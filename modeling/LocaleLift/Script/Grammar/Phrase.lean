import LocaleLift.Script.Lexeme
import LocaleLift.Failure

/-! The phrases of the script grammar, and the small rules that its parts share. -/
namespace LocaleLift.Script.Grammar

/-- The phrases that refer to each other. -/
inductive Phrase where
  | statement
  | declaration
  | block
  /-- An expression; whether an arrow function at its start may declare its result. -/
  | expression (results : Bool)
  /-- An expression without the operators after it. -/
  | operand (results : Bool)
  | newTarget
  | template
  | object
  | array
  | arguments
  | function
  | classExpression
  | element
  | pattern
  | parameters
  | decorator
  | propertyName
  | type
  | typeOperand
  | typeArguments
  | typeParameters
  | objectType
  deriving DecidableEq, Repr

/-- A rule over these phrases. -/
abbrev Production := Rule Phrase

/-- Comments in the form of markup, which may stand where a statement or an expression begins. -/
def markupComments : Production :=
  Rule.many (Rule.token Lexeme.markupComment)

def word (w : Text) : Production :=
  Rule.token (Lexeme.word w)

def oneWord (ws : List Text) : Production :=
  Rule.token (Lexeme.firstOf (ws.map Lexeme.word))

def mark (m : Text) : Production :=
  Rule.token (Lexeme.mark m [])

def markExcept (m stops : Text) : Production :=
  Rule.token (Lexeme.mark m stops)

/-- A sign of equality that is not the beginning of another operator. -/
def equals : Production :=
  markExcept "=" "=>"

def sameLine : Production :=
  Rule.scan Lexeme.sameLine

def semicolon (d : Dialect) : Production :=
  mark ";" <|> Rule.scan (Lexeme.lineEnd d.hasTypes true)

/-- The end of a statement that does not end with an expression. -/
def plainSemicolon (d : Dialect) : Production :=
  mark ";" <|> Rule.scan (Lexeme.lineEnd d.hasTypes false)

def listOf (item : Production) : Production :=
  Rule.opt item >> Rule.many (mark "," >> Rule.opt item)

def nonemptyListOf (item : Production) : Production :=
  item >> Rule.many (mark "," >> item)

def expression : Production :=
  Rule.phrase (Phrase.expression true)

/-- Expressions with commas between them; two or more are a node of their own. -/
def sequence : Production :=
  Rule.chain expression (Rule.node .other (mark "," >> expression))

def group : Production :=
  Rule.tree .group (mark "(" >> sequence >> mark ")")

def string : Production :=
  Rule.tree .string (Rule.scan Lexeme.string)

/-- The words that name nothing in a dialect without types, and no property and its value at once
in any dialect. -/
def reserved : List Text :=
  ["break", "case", "catch", "class", "const", "continue", "debugger", "default", "delete", "do",
    "else", "export", "extends", "false", "finally", "for", "function", "if", "import", "in",
    "instanceof", "new", "null", "return", "super", "switch", "this", "throw", "true", "try",
    "typeof", "var", "void", "while", "with"].map Text.ofString

/-- The words that name no value in a dialect with types, which tells other words from names by
their place. -/
def valueWords : List Text :=
  ["await", "class", "delete", "false", "function", "import", "null", "super", "this", "true",
    "typeof", "void"].map Text.ofString

/-- The words that begin a statement, and therefore no expression or label where a statement may
begin, in a dialect with types. -/
def statementWords : List Text :=
  ["abstract", "break", "case", "const", "continue", "debugger", "default", "do", "enum", "for",
    "if", "interface", "return", "switch", "throw", "try", "var", "while", "with"].map Text.ofString

def name (d : Dialect) : Production :=
  Rule.tree .word (Rule.scan (Lexeme.nameExcept (if d.hasTypes then [] else reserved)))

def valueName (d : Dialect) : Production :=
  Rule.tree .word
    (Rule.scan (Lexeme.nameExcept (if d.hasTypes then valueWords else "await" :: reserved)))

/-- The name of a member: any word will do. -/
def memberName : Production :=
  Rule.tree .word (Rule.scan Lexeme.name)

def privateName : Production :=
  Rule.tree .word (Rule.scan Lexeme.privateName)

def typeAfterColon (d : Dialect) : Production :=
  Rule.when d.hasTypes (mark ":" >> Rule.phrase Phrase.type)

def initializer : Production :=
  equals >> expression

end LocaleLift.Script.Grammar
