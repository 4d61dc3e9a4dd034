import LocaleLift.Script.Grammar.Expressions

/-! Productions for statements, declarations and modules. -/
namespace LocaleLift.Script.Grammar

def statement : Production :=
  Rule.phrase Phrase.statement

def statements : Production :=
  markupComments >> Rule.many (statement >> markupComments)

def block : Production :=
  Rule.tree .other (mark "\x7b" >> statements >> mark "\x7d")

def bareDeclarator (d : Dialect) : Production :=
  binder d >> Rule.opt (Rule.when d.hasTypes (markExcept "!" "=")) >> Rule.opt (typeAfterColon d)

def valuedDeclarator (d : Dialect) : Production :=
  bareDeclarator d >> equals >> Rule.field .value expression

/-- The declaration of variables, the last of which follows a given rule. -/
def variablesUpTo (d : Dialect) (last : Production) : Production :=
  let declarators : Production :=
    Rule.many (Rule.tree .declarator (valuedDeclarator d <|> bareDeclarator d) >> mark ",") >>
      Rule.tree .declarator last
  Rule.tree .declaration (oneWord ["let", "const"] >> declarators) <|>
  Rule.tree .other (word "var" >> declarators)

def variableDeclaration (d : Dialect) : Production :=
  variablesUpTo d (valuedDeclarator d <|> bareDeclarator d)

def variableStatement (d : Dialect) : Production :=
  (variablesUpTo d (valuedDeclarator d) >> semicolon d) <|>
  (variablesUpTo d (bareDeclarator d) >> plainSemicolon d)

def functionHead (d : Dialect) : Production :=
  Rule.tree .other
    (Rule.opt (word "async" >> sameLine) >> word "function" >> Rule.opt (mark "*") >> name d >>
      callSignature d)

def enumeration (d : Dialect) : Production :=
  let member : Production :=
    Rule.tree .other (Rule.field .name (Rule.phrase Phrase.propertyName) >> initializer) <|>
    Rule.field .name (Rule.phrase Phrase.propertyName)
  Rule.tree .other
    (Rule.opt (word "const") >> word "enum" >> name d >>
      Rule.tree .enumBody
        (mark "\x7b" >> Rule.opt (nonemptyListOf member >> Rule.opt (mark ",")) >> mark "\x7d"))

def path (d : Dialect) : Production :=
  Rule.tree .other (name d >> Rule.many (mark "." >> memberName))

def typeDeclaration (d : Dialect) : Production :=
  Rule.tree .other
    (word "interface" >> name d >> Rule.opt (Rule.phrase Phrase.typeParameters) >>
      Rule.opt (word "extends" >> nonemptyListOf (Rule.phrase Phrase.type)) >>
      Rule.phrase Phrase.objectType) <|>
  (Rule.tree .other
    (word "type" >> sameLine >> name d >> Rule.opt (Rule.phrase Phrase.typeParameters) >> equals >>
      Rule.phrase Phrase.type) >> plainSemicolon d) <|>
  enumeration d <|>
  (Rule.tree .other
    (oneWord ["namespace", "module"] >> sameLine >> Rule.field .name (string <|> path d) >>
      block)) <|>
  (Rule.tree .other (functionHead d) >> plainSemicolon d) <|>
  (Rule.tree .other (word "import" >> name d >> equals >> path d) >> plainSemicolon d)

def declaration (d : Dialect) : Production :=
  functionNamed d (name d) <|>
  classNamed d (className d) <|>
  Rule.when d.hasTypes (typeDeclaration d) <|>
  variableStatement d <|>
  Rule.when d.hasTypes
    (Rule.tree .other
      (word "declare" >>
        ((word "global" >> block) <|>
          (word "module" >> mark "." >> name d >> typeAfterColon d >> plainSemicolon d) <|>
          (word "module" >> Rule.field .name string >> plainSemicolon d) <|>
          Rule.phrase Phrase.declaration)))

/-- The name of something in a module, which may be a string. -/
def moduleName : Production :=
  string <|> memberName

def importAttributes (d : Dialect) : Production :=
  oneWord (if d.hasTypes then ["with", "assert"] else ["with"]) >> Rule.phrase Phrase.object

def fromClause (d : Dialect) : Production :=
  word "from" >> Rule.field .source string >> Rule.opt (importAttributes d)

def exportItem (d : Dialect) : Production :=
  let renamed : Production :=
    Rule.field .name moduleName >> Rule.opt (word "as" >> moduleName)
  Rule.tree .other (renamed >> Rule.ahead (mark "," <|> mark "\x7d")) <|>
  Rule.when d.hasTypes (Rule.tree .other (oneWord ["type", "typeof"] >> renamed))

def exportClause (d : Dialect) : Production :=
  Rule.tree .other
    (mark "\x7b" >> Rule.opt (nonemptyListOf (exportItem d)) >> Rule.opt (mark ",") >> mark "\x7d")

def exportStatement (d : Dialect) : Production :=
  let everything : Production :=
    mark "*" >> Rule.opt (Rule.tree .other (word "as" >> moduleName)) >> fromClause d
  let listed : Production := exportClause d >> Rule.opt (fromClause d)
  Rule.tree .other
    (Rule.many (Rule.phrase Phrase.decorator) >> word "export" >>
      (((everything <|> listed) >> plainSemicolon d) <|>
        Rule.when d.hasTypes
          ((word "type" >> (everything <|> listed) >> plainSemicolon d) <|>
            (equals >> sequence >> semicolon d) <|>
            (word "as" >> word "namespace" >> name d >> plainSemicolon d)) <|>
        (word "default" >> (Rule.phrase Phrase.declaration <|> (expression >> semicolon d))) <|>
        Rule.phrase Phrase.declaration))

def importItem (d : Dialect) : Production :=
  let renamed : Production :=
    (Rule.field .name moduleName >> word "as" >> name d) <|> Rule.field .name (name d)
  Rule.tree .other (renamed >> Rule.ahead (mark "," <|> mark "\x7d")) <|>
  Rule.when d.hasTypes (Rule.tree .other (oneWord ["type", "typeof"] >> renamed))

def importStatement (d : Dialect) : Production :=
  let all : Production := Rule.tree .other (mark "*" >> word "as" >> name d)
  let listed : Production :=
    Rule.tree .other
      (mark "\x7b" >> Rule.opt (nonemptyListOf (importItem d)) >> Rule.opt (mark ",") >>
        mark "\x7d")
  let clause : Production :=
    all <|> listed <|> (name d >> Rule.opt (mark "," >> (all <|> listed)))
  let required : Production :=
    Rule.tree .other (name d >> equals >> word "require" >> mark "(" >>
      Rule.field .source string >> mark ")")
  let body : Production :=
    (clause >> fromClause d) <|> Rule.when d.hasTypes required
  Rule.tree .other
    (word "import" >>
      ((Rule.field .source string >> Rule.opt (importAttributes d)) <|>
        Rule.when d.hasTypes
          (oneWord ["type", "typeof"] >> (body <|> Rule.field .source string)) <|>
        body) >>
      plainSemicolon d)

def memberLoop (d : Dialect) : Production :=
  let each : Production :=
    (word "var" >> binder d >> Rule.opt (equals >> Rule.phrase (Phrase.operand true))) <|>
      (oneWord ["let", "const"] >> binder d) <|> pattern d <|>
      Rule.chain group (memberTail <|> subscriptTail)
  Rule.opt (word "await") >> mark "(" >> each >> oneWord ["in", "of"] >> sequence >> mark ")" >>
    statement

def countingLoop (d : Dialect) : Production :=
  mark "(" >> (((variableDeclaration d <|> sequence) >> mark ";") <|> mark ";") >>
    Rule.opt sequence >> mark ";" >> Rule.opt sequence >> mark ")" >> statement

def wordStatement (d : Dialect) : Production :=
  (word "if" >> group >> statement >> Rule.opt (word "else" >> statement)) <|>
  (word "switch" >> group >> mark "\x7b" >>
    Rule.many (((word "case" >> sequence) <|> word "default") >> mark ":" >> statements) >>
    mark "\x7d") <|>
  (word "for" >> (memberLoop d <|> countingLoop d)) <|>
  (word "while" >> group >> statement) <|>
  (word "do" >> statement >> word "while" >> group >> Rule.opt (mark ";")) <|>
  (word "try" >> block >>
    Rule.opt (word "catch" >> Rule.opt (mark "(" >> binder d >> Rule.opt (typeAfterColon d) >>
      mark ")") >>
      block) >>
    Rule.opt (word "finally" >> block)) <|>
  (word "with" >> group >> statement) <|>
  (oneWord ["break", "continue"] >>
    (plainSemicolon d <|> (sameLine >> name d >> plainSemicolon d))) <|>
  (word "debugger" >> plainSemicolon d) <|>
  (word "return" >> (plainSemicolon d <|> (sequence >> semicolon d))) <|>
  (word "throw" >> sequence >> semicolon d)

def anyStatement (d : Dialect) : Production :=
  block <|>
  Rule.tree .other (mark ";") <|>
  Rule.tree .other (wordStatement d) <|>
  importStatement d <|>
  exportStatement d <|>
  Rule.phrase Phrase.declaration <|>
  (Rule.absent (Rule.when d.hasTypes (oneWord statementWords)) >>
    (Rule.tree .other (name d >> mark ":" >> statement) <|>
      (Rule.tree .other sequence >> semicolon d)))

end LocaleLift.Script.Grammar
