import LocaleLift.Script.Grammar
import LocaleLift.Script.Literals

/-! Localizing the literals of a whole script. -/
namespace LocaleLift.Script

def Style.ofDialect (d : Dialect) (scope : Scope) (quote : Text) (templates elements : Bool) :
    Style :=
  ⟨scope, quote, templates, elements && d.hasElements⟩

def applyEdits (source : Text) (es : List Edit) : Except Failure Text := do
  match Utf8.encode source with
  | none => .error .notEncodable
  | some bytes =>
    match Utf8.decode (← Edit.applyAll bytes es) with
    | some t => .ok t
    | none => .error .notEncodable

variable [Parser]

/-- Localize a script: every literal that holds Chinese becomes a call, as far as a call can stand
in its place. A script that is no sentence of its dialect is refused. -/
def localize (d : Dialect) (s : Style) (source : Text) : Extract Text := do
  if !Text.isEncodable source then Extract.fail .notEncodable
  match parse? d source with
  | none => Extract.fail (.unparsable d)
  | some root =>
    let es ← edits s source [] root
    if es.isEmpty then return source
    Extract.lift (applyEdits source es)

end LocaleLift.Script
