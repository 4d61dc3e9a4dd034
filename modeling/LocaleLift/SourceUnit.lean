import LocaleLift.Component.Localize
import LocaleLift.Path

/-! Source units: components and scripts, told apart by the ends of their names. -/
namespace LocaleLift

/-- What a source file holds. -/
inductive UnitKind where
  | component
  | script (dialect : Dialect)
  deriving DecidableEq, Repr

namespace UnitKind

def table : List (Text × UnitKind) :=
  [(".vue", component), (".ts", script .typescript), (".tsx", script .tsx),
    (".jsx", script .javascript)]

/-- What the file at a path holds, if it is a source file. -/
def ofPath? (p : Path) : Option UnitKind :=
  table.lookup p.suffix

end UnitKind

namespace SourceUnit

/-- The dialect of the script at a path, which is given as it is written. -/
def dialect (path : Text) : Except Failure Dialect :=
  match UnitKind.ofPath? (Path.ofText path) with
  | some (.script d) => .ok d
  | _ => .error (.notScript path)

variable [Script.Parser]

def localize (scope : Scope) (path text : Text) : Extract Text :=
  match UnitKind.ofPath? (Path.ofText path) with
  | some .component => Component.localize scope text
  | some (.script d) =>
    Script.localize d (Script.Style.ofDialect d scope "\x22" true true) text
  | none => Extract.fail (.notScript path)

/-- What comes of localizing a source: the registry afterwards, the warnings, and the text or the
failure. -/
structure Outcome where
  registry : Registry
  warnings : List Warning
  result : Except Failure Text

/-- Localize the source at a path and file the texts found in it. They are filed in a registry of
their own first, which is merged only if the whole source was localized. -/
def process (r : Registry) (ns function path text : Text) : Outcome :=
  let scratch := r.fork
  let x := localize ⟨ns, scratch.common, function⟩ path text
  match x.result with
  | .ok out => ⟨r.merge (scratch.recordAll ns x.texts), x.warnings, .ok out⟩
  | .error e => ⟨r, x.warnings, .error e⟩

end SourceUnit
end LocaleLift
