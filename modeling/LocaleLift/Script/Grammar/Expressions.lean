import LocaleLift.Script.Grammar.Types

/-! Productions for expressions, patterns, functions and classes. -/
namespace LocaleLift.Script.Grammar

def spread : Production :=
  Rule.tree .other (mark "..." >> expression)

def arguments : Production :=
  Rule.tree .arguments (mark "(" >> listOf (spread <|> expression) >> mark ")")

/-- A template literal: static text and substitutions. -/
def template : Production :=
  Rule.tree .template
    (Rule.scan (Lexeme.mark "\x60" []) >>
      Rule.many (Rule.scan Lexeme.templateText <|>
        Rule.node .substitution
          (Rule.scan (Lexeme.mark "$\x7b" []) >> sequence >> mark "\x7d")) >>
      Rule.scan (Lexeme.mark "\x60" []))

def array : Production :=
  Rule.tree .other (mark "[" >> listOf (spread <|> expression) >> mark "]")

/-- The name of a property; it may be written as a literal, or computed. -/
def propertyName : Production :=
  memberName <|> privateName <|> string <|> Rule.token Lexeme.number <|>
    Rule.tree .other (mark "[" >> expression >> mark "]")

def methodWords (d : Dialect) : List Text :=
  let always : List Text := ["static", "async", "get", "set"]
  let typed : List Text :=
    ["public", "private", "protected", "override", "readonly", "abstract", "declare", "accessor"]
  if d.hasTypes then always ++ typed else always

def method (d : Dialect) : Production :=
  Rule.tree .other
    (modifiers (methodWords d) >> Rule.opt (mark "*") >>
      Rule.field .name (Rule.phrase Phrase.propertyName) >>
      Rule.opt (Rule.when d.hasTypes (mark "?")) >> callSignature d >> Rule.phrase Phrase.block)

/-- The name of a property that is also the name of its value. -/
def shorthand : Production :=
  Rule.tree .word (Rule.scan (Lexeme.nameExcept reserved))

def object (d : Dialect) : Production :=
  Rule.tree .other
    (mark "\x7b" >>
      listOf
        (spread <|>
          Rule.tree .other
            (Rule.field .key (Rule.phrase Phrase.propertyName) >> mark ":" >> expression) <|>
          method d <|> shorthand) >>
      mark "\x7d")

def memberTail : Production :=
  Rule.node .member
    ((markExcept "?." "0123456789" <|> mark ".") >>
      Rule.field .property (privateName <|> memberName))

def subscriptTail : Production :=
  Rule.node .subscript
    (Rule.opt (markExcept "?." "0123456789") >> mark "[" >> sequence >> mark "]")

def callTail (d : Dialect) : Production :=
  Rule.node .call
    (Rule.opt (markExcept "?." "0123456789") >>
      Rule.opt (Rule.when d.hasTypes (Rule.phrase Phrase.typeArguments >> Rule.ahead (mark "("))) >>
      Rule.field .arguments (Rule.phrase Phrase.arguments))

def templateTail : Production :=
  Rule.node .call (Rule.field .arguments (Rule.phrase Phrase.template))

def nonNullTail (d : Dialect) : Production :=
  Rule.when d.hasTypes (Rule.node .nonNull (sameLine >> markExcept "!" "="))

/-- Type arguments that no call follows. They do not end in the middle of an operator. -/
def instantiationTail (d : Dialect) : Production :=
  Rule.when d.hasTypes
    (Rule.node .other (Rule.phrase Phrase.typeArguments >>
      Rule.absent (Rule.scan (Lexeme.mark "=" [])) >>
      Rule.ahead (Rule.token (Lexeme.firstOf
        (([")", "]", ",", ";", "\x7d", ":", ".", "?", "=", "|", "&"] : List Text).map
          fun m => Lexeme.mark m [])) <|> Rule.scan (Lexeme.lineEnd d.hasTypes true))))

/-- A name followed by choices of members: something to assign to. -/
def target (d : Dialect) : Production :=
  Rule.chain
    (name d <|>
      Rule.tree .other
        (oneWord ["this", "super"] >> Rule.ahead (mark "." <|> mark "?." <|> mark "[")))
    (memberTail <|> subscriptTail)

def withDefault (p : Production) : Production :=
  Rule.chain p (Rule.node .other initializer)

def restPattern : Production :=
  Rule.tree .other (mark "..." >> Rule.phrase Phrase.pattern)

def objectPattern (d : Dialect) : Production :=
  Rule.tree .other
    (mark "\x7b" >>
      listOf
        (restPattern <|>
          Rule.tree .other
            (Rule.field .key (Rule.phrase Phrase.propertyName) >> mark ":" >>
              withDefault (Rule.phrase Phrase.pattern)) <|>
          withDefault (name d)) >>
      mark "\x7d")

def arrayPattern : Production :=
  Rule.tree .other
    (mark "[" >> listOf (restPattern <|> withDefault (Rule.phrase Phrase.pattern)) >> mark "]")

def binder (d : Dialect) : Production :=
  objectPattern d <|> arrayPattern <|> name d

def pattern (d : Dialect) : Production :=
  objectPattern d <|> arrayPattern <|> target d

def parameter (d : Dialect) : Production :=
  let modified : Production :=
    Rule.when d.hasTypes (Rule.many
      (oneWord ["public", "private", "protected", "override", "readonly"] >> Rule.ahead (binder d)))
  Rule.tree .other
    (Rule.many (Rule.phrase Phrase.decorator) >> Rule.opt modified >>
      (restPattern <|> pattern d <|> Rule.when d.hasTypes (word "this")) >>
      Rule.opt (Rule.when d.hasTypes (mark "?")) >> Rule.opt (typeAfterColon d) >>
      Rule.opt initializer)

def parameters (d : Dialect) : Production :=
  Rule.tree .other
    (mark "(" >> Rule.opt (nonemptyListOf (parameter d) >> Rule.opt (mark ",")) >> mark ")")

/-- A function with the word for it and a given rule for its name. -/
def functionNamed (d : Dialect) (called : Production) : Production :=
  Rule.tree .other
    (Rule.opt (word "async" >> sameLine) >> word "function" >> Rule.opt (mark "*") >>
      called >> callSignature d >> Rule.phrase Phrase.block)

def function (d : Dialect) : Production :=
  functionNamed d (Rule.opt (name d))

/-- A function written with an arrow; `results` tells whether its result may be declared. -/
def arrow (d : Dialect) (results : Bool) : Production :=
  let listed : Production :=
    Rule.opt (Rule.when d.hasTypes (Rule.phrase Phrase.typeParameters)) >>
      Rule.phrase Phrase.parameters >>
      Rule.opt (Rule.when (d.hasTypes && results) (mark ":" >> resultType d))
  let rest : Production :=
    mark "=>" >> (Rule.phrase Phrase.block <|> Rule.phrase (Phrase.expression results))
  Rule.tree .other
    ((word "async" >> ((sameLine >> name d) <|> listed) >> rest) <|>
      ((valueName d <|> listed) >> rest))

/-- A note that is attached to a class, a member or a parameter. -/
def decorator (d : Dialect) : Production :=
  Rule.tree .other
    (mark "@" >> (Rule.chain (name d) (memberTail <|> callTail d) <|> group))

/-- A member of a class. Without types, a note stands before the member it is attached to. -/
def classMember (d : Dialect) : Production :=
  let head : Production :=
    modifiers (methodWords d) >> Rule.opt (mark "*") >>
      Rule.field .name (Rule.phrase Phrase.propertyName) >>
      Rule.opt (Rule.when d.hasTypes (mark "?" <|> mark "!"))
  mark ";" <|>
  Rule.tree .other (word "static" >> Rule.phrase Phrase.block) <|>
  (Rule.phrase Phrase.decorator >>
    Rule.absent (Rule.when (!d.hasTypes) (mark ";" <|> mark "\x7d"))) <|>
  method d <|>
  Rule.when d.hasTypes
    ((modifiers ["static", "readonly", "declare", "public", "private", "protected", "override",
        "abstract"] >> indexMember d >> (plainSemicolon d <|> mark ",")) <|>
      (Rule.tree .other (head >> callSignature d) >> (plainSemicolon d <|> mark ","))) <|>
  (Rule.tree .other (head >> Rule.opt (typeAfterColon d) >> initializer) >>
    (semicolon d <|> Rule.when d.hasTypes (mark ","))) <|>
  (Rule.tree .other (head >> Rule.opt (typeAfterColon d)) >>
    (plainSemicolon d <|> Rule.when d.hasTypes (mark ",")))

def className (d : Dialect) : Production :=
  Rule.absent (Rule.when d.hasTypes (oneWord ["extends", "implements"])) >> name d

def classNamed (d : Dialect) (called : Production) : Production :=
  let heritage : Production :=
    word "extends" >> Rule.phrase (Phrase.operand true) >>
      Rule.opt (Rule.when d.hasTypes (Rule.phrase Phrase.typeArguments))
  let interfaces : Production :=
    Rule.when d.hasTypes (word "implements" >> nonemptyListOf (Rule.phrase Phrase.type))
  Rule.tree .other
    (Rule.many (Rule.phrase Phrase.decorator) >>
      Rule.opt (Rule.when d.hasTypes (word "abstract")) >>
      word "class" >> called >>
      Rule.opt (Rule.when d.hasTypes (Rule.phrase Phrase.typeParameters)) >>
      Rule.opt heritage >> Rule.opt interfaces >>
      Rule.tree .other (mark "\x7b" >> Rule.many (classMember d) >> mark "\x7d"))

def classExpression (d : Dialect) : Production :=
  classNamed d (Rule.opt (className d))

def elementChild : Production :=
  Rule.node .elementText (Rule.scan Lexeme.elementText) <|>
  Rule.token Lexeme.characterReference <|>
  Rule.phrase Phrase.element <|>
  Rule.tree .other
    (mark "\x7b" >> Rule.opt (spread <|> sequence) >> mark "\x7d")

def elementName : Production :=
  let part : Production := Rule.token Lexeme.elementName
  part >> ((mark ":" >> part) <|> Rule.many (mark "." >> part))

def elementAttribute : Production :=
  let value : Production :=
    Rule.tree .string (Rule.scan Lexeme.attributeString) <|>
    Rule.tree .other (mark "\x7b" >> Rule.opt (spread <|> sequence) >> mark "\x7d") <|>
    Rule.phrase Phrase.element
  Rule.tree .other (mark "\x7b" >> Rule.opt (spread <|> sequence) >> mark "\x7d") <|>
  Rule.tree .attribute
    (Rule.token Lexeme.elementName >> Rule.opt (mark ":" >> Rule.token Lexeme.elementName) >>
      Rule.opt (mark "=" >> value))

/-- A markup element. The names of its tags need not agree. -/
def element (d : Dialect) : Production :=
  let close : Production := mark "</" >> Rule.opt elementName >> mark ">"
  Rule.tree .other
    (mark "<" >>
      ((mark ">" >> Rule.many elementChild >> close) <|>
        (elementName >> Rule.opt (Rule.when d.hasTypes (Rule.phrase Phrase.typeArguments)) >>
          Rule.many elementAttribute >>
          (mark "/>" <|> (mark ">" >> Rule.many elementChild >> close)))))

/-- An expression that no operator begins and that is no arrow function. -/
def simple (d : Dialect) : Production :=
  function d <|>
  Rule.phrase Phrase.classExpression <|>
  Rule.tree .other (word "new" >> mark "." >> word "target") <|>
  Rule.phrase Phrase.newTarget <|>
  group <|> string <|> Rule.phrase Phrase.template <|>
  Rule.tree .other (Rule.scan Lexeme.number) <|>
  Rule.tree .other (Rule.scan Lexeme.regex) <|>
  Rule.phrase Phrase.object <|> Rule.phrase Phrase.array <|>
  Rule.tree .other (oneWord ["this", "super", "null", "true", "false"]) <|>
  Rule.tree .other (word "import" >> Rule.ahead (mark "(" <|> mark ".")) <|>
  valueName d <|>
  (privateName >> Rule.ahead (word "in")) <|>
  Rule.when d.hasElements (Rule.phrase Phrase.element)

/-- The making of an object: the class and the arguments, if there are any. -/
def newTarget (d : Dialect) : Production :=
  Rule.tree .other
    (word "new" >>
      (Rule.phrase Phrase.newTarget <|>
        Rule.chain (simple d) (memberTail <|> subscriptTail <|> nonNullTail d)) >>
      Rule.opt (Rule.when d.hasTypes (Rule.phrase Phrase.typeArguments)) >>
      Rule.opt (Rule.phrase Phrase.arguments))

def assignable : Kind → Bool
  | .word | .member | .subscript | .group | .nonNull => true
  | _ => false

def assignment : Production :=
  equals <|> Rule.token (Lexeme.firstOf
    ((["+=", "-=", "*=", "/=", "%=", "^=", "&=", "|=", ">>=", ">>>=", "<<=", "**=", "&&=", "||=",
      "??="] : List Text).map fun m => Lexeme.mark m []))

def tail (d : Dialect) : Production :=
  memberTail <|> subscriptTail <|> callTail d <|> templateTail <|> nonNullTail d <|>
    instantiationTail d

def chained (d : Dialect) (results : Bool) : Production :=
  Rule.chain
    (Rule.grow (Rule.chain (arrow d results <|> simple d) (tail d)) assignable
      (Rule.node .other (assignment >> Rule.phrase (Phrase.expression results))))
    (Rule.node .other (sameLine >> (mark "++" <|> mark "--")))

def patternAssignment (d : Dialect) (results : Bool) : Production :=
  Rule.tree .other
    ((objectPattern d <|> arrayPattern) >> equals >> Rule.phrase (Phrase.expression results))

def operand (d : Dialect) (results : Bool) : Production :=
  let here : Production := Rule.phrase (Phrase.operand results)
  Rule.tree .other
    ((mark "!" <|> mark "~" <|> mark "++" <|> mark "--" <|> mark "+" <|> mark "-" <|>
      oneWord ["typeof", "void", "delete"]) >> here) <|>
  Rule.tree .other (word "await" >> here) <|>
  Rule.tree .other
    (word "yield" >>
      ((mark "*" >> Rule.phrase (Phrase.expression results)) <|>
        (sameLine >> Rule.phrase (Phrase.expression results)) <|>
        Rule.ahead (mark ")" <|> mark "]" <|> mark "\x7d" <|> mark "," <|> mark ";" <|> mark ":" <|>
          Rule.scan (Lexeme.lineEnd d.hasTypes true)))) <|>
  Rule.when (d.hasTypes && !d.hasElements)
    (Rule.tree .other
      (Rule.ahead (mark "<") >> Rule.absent (arrow d results) >> Rule.phrase Phrase.typeArguments >>
        here)) <|>
  Rule.tree .other
    (word "using" >> sameLine >> binder d >> equals >> Rule.phrase (Phrase.expression results)) <|>
  patternAssignment d results <|>
  chained d results

def operator : Production :=
  Rule.token (Lexeme.firstOf
    [Lexeme.mark ">>>" "=", Lexeme.mark ">>" "=", Lexeme.mark "<<" "=", Lexeme.mark "===" [],
      Lexeme.mark "!==" [], Lexeme.mark "==" [], Lexeme.mark "!=" [], Lexeme.mark "<=" [],
      Lexeme.mark ">=" [], Lexeme.mark "&&" "=", Lexeme.mark "||" "=", Lexeme.mark "??" "=",
      Lexeme.mark "**" "=", Lexeme.mark "+" "+=", Lexeme.mark "-" "-=", Lexeme.mark "*" "*=",
      Lexeme.mark "/" "=", Lexeme.mark "%" "=", Lexeme.mark "<" "=<", Lexeme.mark ">" "=",
      Lexeme.mark "&" "&=", Lexeme.mark "|" "|=", Lexeme.mark "^" "=",
      Lexeme.word "instanceof", Lexeme.word "in"])

/-- An expression: operands, operators between them, choices and type assertions. -/
def operation (d : Dialect) (results : Bool) : Production :=
  let chosen : Production :=
    (expression >> mark ":") <|> (Rule.phrase (Phrase.expression false) >> mark ":")
  let asserted : Production :=
    sameLine >> oneWord ["as", "satisfies"] >> (word "const" <|> Rule.phrase Phrase.type)
  markupComments >> Rule.chain (Rule.phrase (Phrase.operand results))
    (Rule.node .other (operator >> Rule.phrase (Phrase.operand results)) <|>
      Rule.node .other
        (Rule.token (Lexeme.choiceMark d.hasTypes) >> chosen >>
          Rule.phrase (Phrase.expression results)) <|>
      Rule.when d.hasTypes (Rule.node .other asserted))

end LocaleLift.Script.Grammar
