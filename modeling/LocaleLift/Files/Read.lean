import LocaleLift.Files.Tree
import LocaleLift.Json.Read

/-! Reading texts and JSON from files. -/
namespace LocaleLift

/-- Why a file could not be read. -/
inductive ReadError where
  | file (e : FileError)
  /-- The bytes are not UTF-8. -/
  | notText
  /-- The text is not JSON. -/
  | notJson
  deriving DecidableEq, Repr

/-- The text of bytes in UTF-8. Every end of line becomes a line feed. -/
def Text.ofBytes? (bytes : List UInt8) : Option Text :=
  (Utf8.decode bytes).map withLineFeeds

namespace FileTree

def readText (t : FileTree) (p : Path) : Except ReadError Text :=
  match t.readBytes p with
  | .error e => .error (.file e)
  | .ok bytes =>
    match Text.ofBytes? bytes with
    | some text => .ok text
    | none => .error .notText

def readJson (t : FileTree) (p : Path) : Except ReadError JsonValue := do
  match JsonValue.read? (← t.readText p) with
  | some v => return v
  | none => throw .notJson

end FileTree
end LocaleLift
