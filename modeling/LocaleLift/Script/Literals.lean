import LocaleLift.Script.Calls
import LocaleLift.Registry
import LocaleLift.Text.Han
import LocaleLift.Extract
import LocaleLift.Edit

/-! The literals of a script that hold Chinese, and the edits that turn them into calls. -/
namespace LocaleLift.Script

/-- How the literals of a script are localized. -/
structure Style where
  scope : Scope
  /-- The quotes around the keys. -/
  quote : Text
  /-- Whether the static text of templates is localized. -/
  templates : Bool
  /-- Whether the words of markup elements are localized. -/
  elements : Bool
  deriving DecidableEq, Repr

def Style.call (s : Style) (text : Text) : Extract Text := do
  Extract.text text
  return s.scope.call s.quote text

def nameFields : List Field :=
  [.key, .name, .property, .source]

/-- Whether a string may not be replaced where it stands: as an argument of the look-up function,
as a type, as a member of an enumeration, or as a name. Ancestors are given nearest first. -/
def isFixed (source function : Text) (n : Node) : List Node → Bool
  | [] => false
  | parent :: above =>
    (parent.kind == .arguments && (above.head?.any (isLookupCall source function))) ||
      parent.kind == .literalType || parent.kind == .enumBody ||
      nameFields.any (n.isPart parent)

/-- The edit for a string literal, if it holds Chinese and may be replaced. The value of an
attribute gets braces around the call. -/
def stringEdit (s : Style) (source : Text) (n : Node) (ancestors : List Node) :
    Extract (List Edit) := do
  let raw := n.text source
  if raw.length < 2 then return []
  let value ← Extract.lift (Literal.cook (raw.drop 1).dropLast)
  if !Text.hasHan value || isFixed source s.scope.function n ancestors then return []
  let call ← s.call (Text.trim value)
  let inAttribute := ancestors.head?.any fun p => p.kind == .attribute
  return [.ofRange n.start n.stop (if inAttribute then "\x7b" ++ call ++ "\x7d" else call)]

def staticRanges (stop : Nat) : Nat → List Node → List (Nat × Nat)
  | cursor, [] => [(cursor, stop)]
  | cursor, n :: ns =>
    if n.kind == .substitution then (cursor, n.start) :: staticRanges stop n.stop ns
    else staticRanges stop cursor ns

def Node.staticRanges (n : Node) : List (Nat × Nat) :=
  Script.staticRanges (n.stop - 1) (n.start + 1) n.children

/-- Whether a template is given to a function, which receives its text as it is written. -/
def isTagged (n : Node) : List Node → Bool
  | [] => false
  | parent :: _ => parent.kind == .call && n.isPart parent .arguments

def asSubstitution (call : Text) : Text :=
  "$\x7b" ++ call ++ "\x7d"

/-- The edits for the static text of a template: each run of Chinese becomes a substitution. -/
def templateEdits (s : Style) (source : Text) (n : Node) (ancestors : List Node) :
    Extract (List Edit) := do
  if isTagged n ancestors then return []
  let pieces := n.staticRanges.map fun (a, b) =>
      (a, b, Text.pieces .ideographs (Utf8.slice a b source))
  let chinese := pieces.filter fun (_, _, ps) => ps.any fun p => p.run?.isSome
  Extract.found (chinese.flatMap fun (_, _, ps) => ps.filterMap Piece.run?)
  return chinese.map fun (a, b, ps) =>
    .ofRange a b (Text.wrapTemplateRuns (fun r => asSubstitution (s.scope.call s.quote r)) ps)

/-- The edit for the words of an element: each run of Chinese becomes an expression. -/
def elementEdits (s : Style) (source : Text) (n : Node) : Extract (List Edit) := do
  let raw := n.text source
  if !Text.hasHan raw then return []
  Extract.found (Text.runs .ideographs raw)
  let wrap (r : Text) : Text := "\x7b" ++ s.scope.call s.quote r ++ "\x7d"
  return [.ofRange n.start n.stop (Text.wrapRuns wrap (Text.pieces .ideographs raw))]

mutual

def edits (s : Style) (source : Text) (ancestors : List Node) : Node → Extract (List Edit)
  | .mk k f a b cs =>
    let n : Node := .mk k f a b cs
    if k == .string then stringEdit s source n ancestors
    else if k == .template && s.templates then do
      let es ← templateEdits s source n ancestors
      let fs ← editsOfAll s source (n :: ancestors) (· == .substitution) cs
      return es ++ fs
    else if k == .elementText && s.elements then elementEdits s source n
    else editsOfAll s source (n :: ancestors) (fun _ => true) cs

/-- The edits for all literals of several trees, as far as their kinds are looked into. -/
def editsOfAll (s : Style) (source : Text) (ancestors : List Node) (visits : Kind → Bool) :
    List Node → Extract (List Edit)
  | [] => return []
  | n :: ns => do
    let es ← if visits n.kind then edits s source ancestors n else pure []
    let fs ← editsOfAll s source ancestors visits ns
    return es ++ fs

end

end LocaleLift.Script
