import LocaleLift.Script.Localize

/-! Localizing a single expression, as it stands in a bound attribute of a template. -/
namespace LocaleLift.Script.Binding

def opening : Text := "const __temp = "

def closing : Text := ";"

def enclose (expression : Text) : Text :=
  opening ++ expression ++ closing

private def isAsciiSpace (c : CodePoint) : Bool :=
  c.inRange 0x09 0x0D || c.toNat == 0x20

variable [Parser]

/-- The tree of an expression inside the script around it. There is none if the text is not
exactly one expression, ASCII space around it apart. -/
def parse? (expression : Text) : Option Node := do
  let source := enclose expression
  let root ← Script.parse? .typescript source
  let [declaration] := root.children | none
  if declaration.kind != .declaration then none
  let [declarator] := declaration.children.filter (·.kind == .declarator) | none
  let value ← declarator.child? .value
  let start := Utf8.size opening
  let stop := Utf8.size source - Utf8.size closing
  let around := Utf8.slice start value.start source ++ Utf8.slice value.stop stop source
  if around.all isAsciiSpace then some value else none

/-- Whether a text is one expression that holds a call of the look-up function. -/
def hasCall (function expression : Text) : Except Failure Bool :=
  if Text.isEncodable expression then
    .ok ((parse? expression).any (hasLookupCall (enclose expression) function))
  else .error .notEncodable

mutual

/-- The edits for the static text of the templates in a tree. Runs take punctuation along, and
their texts are trimmed. -/
def phraseEdits (scope : Scope) (quote source : Text) (ancestors : List Node) :
    Node → Extract (List Edit)
  | .mk k f a b cs => do
    let n : Node := .mk k f a b cs
    let ranges := if k == .template && !isTagged n ancestors then n.staticRanges else []
    let pieces := ranges.map fun (a, b) => (a, b, Text.pieces .phrase (Utf8.slice a b source))
    let chinese := pieces.filter fun (_, _, ps) => ps.any fun p => p.run?.isSome
    Extract.found (chinese.flatMap fun (_, _, ps) => (ps.filterMap Piece.run?).map Text.trim)
    let es := chinese.map fun (a, b, ps) =>
      Edit.ofRange a b
        (Text.wrapTemplateRuns (fun r => asSubstitution (scope.call quote (Text.trim r))) ps)
    let fs ← phraseEditsOfAll scope quote source (n :: ancestors) cs
    return es ++ fs

/-- The edits for the static text of the templates in several trees. -/
def phraseEditsOfAll (scope : Scope) (quote source : Text) (ancestors : List Node) :
    List Node → Extract (List Edit)
  | [] => return []
  | n :: ns => do
    let es ← phraseEdits scope quote source ancestors n
    let fs ← phraseEditsOfAll scope quote source ancestors ns
    return es ++ fs

end

def disclose (script : Text) : Text :=
  (script.drop opening.length).dropLast

/-- Localize an expression. One that already holds a call is left as it is; string literals are
replaced, and only where there is none to replace, the text of templates. A text that is not
exactly one expression is left unchanged with a warning. -/
def localize (scope : Scope) (quote expression : Text) : Extract Text := do
  if !Text.isEncodable expression then Extract.fail .notEncodable
  let source := enclose expression
  match parse? expression with
  | none =>
    Extract.warn (.unparsedBinding expression)
    return expression
  | some value =>
    if hasLookupCall source scope.function value then return expression
    let es ← edits ⟨scope, quote, false, false⟩ source [] value
    let es ← if es.isEmpty then phraseEdits scope quote source [] value else pure es
    if es.isEmpty then return expression
    return disclose (← Extract.lift (applyEdits source es))

end LocaleLift.Script.Binding
