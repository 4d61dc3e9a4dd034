import LocaleLift.Script.Grammar.Phrase

/-! Productions for types. -/
namespace LocaleLift.Script.Grammar

def literalType : Production :=
  Rule.tree .literalType
    (string <|> (Rule.opt (mark "-" <|> mark "+") >> Rule.token Lexeme.number) <|>
      oneWord ["true", "false", "null", "undefined"])

/-- A template used as a type; its holes hold types. -/
def templateType : Production :=
  Rule.token (Lexeme.mark "\x60" []) >>
    Rule.many (Rule.scan Lexeme.templateText <|>
      (Rule.scan (Lexeme.mark "$\x7b" []) >> Rule.phrase Phrase.type >> mark "\x7d")) >>
    Rule.scan (Lexeme.mark "\x60" [])

def resultType (d : Dialect) : Production :=
  let subject : Production := name d <|> word "this"
  Rule.tree .other
    ((word "asserts" >> sameLine >> subject >> Rule.opt (word "is" >> Rule.phrase Phrase.type)) <|>
      (subject >> sameLine >> word "is" >> Rule.phrase Phrase.type)) <|>
  Rule.phrase Phrase.type

/-- The head of a function: type parameters, parameters and the type of the result. -/
def callSignature (d : Dialect) : Production :=
  if d.hasTypes then
    Rule.opt (Rule.phrase Phrase.typeParameters) >> Rule.phrase Phrase.parameters >>
      Rule.opt (mark ":" >> resultType d)
  else Rule.phrase Phrase.parameters

def importedType : Production :=
  Rule.tree .call (Rule.field .function (Rule.tree .word (word "import")) >>
    Rule.field .arguments (Rule.phrase Phrase.arguments))

def queryType (d : Dialect) : Production :=
  word "typeof" >>
    Rule.chain (importedType <|> name d <|> Rule.tree .word (word "this"))
      (Rule.node .member ((mark "." <|> mark "?.") >>
          Rule.field .property (privateName <|> memberName)) <|>
        Rule.node .subscript (sameLine >> mark "[" >>
          (string <|> Rule.token Lexeme.number) >> mark "]")) >>
    Rule.opt (sameLine >> Rule.phrase Phrase.typeArguments)

/-- One member of a tuple: it may be named, optional or the rest. -/
def tupleMember : Production :=
  Rule.opt (Rule.phrase Phrase.decorator) >>
    ((Rule.opt (mark "...") >> memberName >> Rule.opt (mark "?") >> mark ":" >>
        Rule.phrase Phrase.type) <|>
      (Rule.opt (mark "...") >> Rule.phrase Phrase.type >> Rule.opt (mark "?")))

def mappedClause : Production :=
  Rule.token Lexeme.name >> word "in" >> Rule.phrase Phrase.type >>
    Rule.opt (word "as" >> Rule.phrase Phrase.type)

def indexMember (d : Dialect) : Production :=
  Rule.tree .other
    (Rule.opt (Rule.opt (mark "+" <|> mark "-") >> word "readonly") >> mark "[" >>
      (mappedClause <|> (Rule.token Lexeme.name >> typeAfterColon d)) >> mark "]" >>
      Rule.opt ((mark "+?" <|> mark "-?" <|> mark "?")) >>
      Rule.opt (typeAfterColon d))

def modifiers (ws : List Text) : Production :=
  Rule.many (oneWord ws >>
    Rule.ahead (Rule.phrase Phrase.propertyName <|> mark "*" <|> mark "["))

def typeMember (d : Dialect) : Production :=
  Rule.tree .other (Rule.opt (word "new") >> callSignature d >>
    Rule.absent (mark "=>")) <|>
  indexMember d <|>
  Rule.tree .other
    (modifiers ["public", "private", "protected", "static", "override", "readonly", "get", "set",
        "async", "declare"] >>
      Rule.opt (mark "*") >>
      Rule.field .name (Rule.phrase Phrase.propertyName) >> Rule.opt (mark "?") >>
      ((callSignature d) <|> Rule.opt (typeAfterColon d)))

def objectType (d : Dialect) : Production :=
  let separator := mark "," <|> plainSemicolon d
  Rule.tree .other
    (mark "\x7b" >> Rule.opt (mark "," <|> mark ";") >>
      Rule.many (typeMember d >> (separator <|> Rule.ahead (mark "\x7d"))) >> mark "\x7d")

def functionType (d : Dialect) : Production :=
  Rule.tree .other
    (Rule.opt (Rule.opt (word "abstract") >> word "new") >>
      Rule.opt (Rule.phrase Phrase.typeParameters) >> Rule.phrase Phrase.parameters >>
      mark "=>" >> resultType d)

def namedType : Production :=
  (importedType <|> Rule.token (Lexeme.nameExcept reserved) <|> word "this" <|> word "const" <|>
    word "void" <|> word "null") >>
    Rule.many (mark "." >> Rule.token Lexeme.name) >>
    Rule.opt (sameLine >> Rule.phrase Phrase.typeArguments)

def typeOperand (d : Dialect) : Production :=
  let here : Production := Rule.phrase Phrase.typeOperand
  functionType d <|>
  ((oneWord ["keyof", "readonly", "unique"] >> here)) <|>
  (word "infer" >> Rule.token Lexeme.name >>
    Rule.opt (word "extends" >> here)) <|>
  (mark "?" >> here) <|>
  ((queryType d <|> literalType <|> templateType <|>
      (mark "(" >> Rule.phrase Phrase.type >> mark ")") <|>
      (mark "[" >> listOf tupleMember >> mark "]") <|>
      Rule.phrase Phrase.objectType <|> namedType <|> markExcept "*" "*=") >>
    Rule.many (sameLine >> mark "[" >> Rule.opt (Rule.phrase Phrase.type) >> mark "]"))

/-- A type: alternatives, parts and conditions. -/
def type : Production :=
  Rule.tree .other
    (Rule.opt (markExcept "|" "|" <|> markExcept "&" "&") >> Rule.phrase Phrase.typeOperand >>
      Rule.many ((markExcept "|" "|=" <|> markExcept "&" "&=") >> Rule.phrase Phrase.typeOperand) >>
      Rule.opt (sameLine >> word "extends" >> Rule.phrase Phrase.type >>
        mark "?" >> Rule.phrase Phrase.type >> mark ":" >> Rule.phrase Phrase.type))

def typeArguments : Production :=
  Rule.tree .other
    (mark "<" >> nonemptyListOf (Rule.phrase Phrase.type) >> Rule.opt (mark ",") >> mark ">")

def typeParameters : Production :=
  Rule.tree .other
    (mark "<" >>
      nonemptyListOf
        (Rule.many (oneWord ["const", "in", "out"] >> Rule.ahead (Rule.token Lexeme.name)) >>
          Rule.token (Lexeme.nameExcept reserved) >>
          Rule.opt ((word "extends" <|> mark ":") >> Rule.phrase Phrase.type) >>
          Rule.opt (equals >> Rule.phrase Phrase.type)) >>
      Rule.opt (mark ",") >> mark ">")

end LocaleLift.Script.Grammar
