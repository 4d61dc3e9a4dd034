import LocaleLift.Json.Value
import LocaleLift.Text.Hex

/-! Writing JSON, on one line or over several. -/
namespace LocaleLift.JsonValue

def writePoint (c : CodePoint) : Text :=
  match c with
  | .scalar '\x22' => "\\\x22"
  | .scalar '\\' => "\\\\"
  | .scalar '\n' => "\\n"
  | .scalar '\r' => "\\r"
  | .scalar '\t' => "\\t"
  | .scalar '\x08' => "\\b"
  | .scalar '\x0c' => "\\f"
  | c => if c.toNat < 0x20 then "\\u" ++ Text.hex 4 c.toNat else [c]

/-- A text as a JSON string. Only quotes, backslashes and controls are escaped. -/
def writeString (t : Text) : Text :=
  .scalar '\x22' :: t.flatMap writePoint ++ [.scalar '\x22']

/-- What stands between the parts of a value: after a colon, and around the parts of an array or
object at a depth, given by the line break before one at that depth. -/
structure Layout where
  afterColon : Text
  lineBreak : Nat → Text

def Layout.compact : Layout :=
  ⟨[], fun _ => []⟩

/-- Every part on a line of its own, two spaces further in than what it is a part of. -/
def Layout.indented : Layout :=
  ⟨" ", fun depth => .scalar '\n' :: List.replicate (2 * depth) (.scalar ' ')⟩

/-- Parts between two brackets, each on a line of its own. There are no lines without parts. -/
def enclose (l : Layout) (depth : Nat) (opening closing : Char) (parts : List Text) :
    Text :=
  if parts.isEmpty then [.scalar opening, .scalar closing]
  else
    .scalar opening :: l.lineBreak (depth + 1) ++
      Text.join (.scalar ',' :: l.lineBreak (depth + 1)) parts ++
      l.lineBreak depth ++ [.scalar closing]

mutual

def writeAt (l : Layout) (depth : Nat) : JsonValue → Text
  | null => "null"
  | bool b => if b then "true" else "false"
  | int n => Text.ofInt n
  | real spelling => spelling
  | string t => writeString t
  | array items => enclose l depth '[' ']' (writeItems l (depth + 1) items)
  | object members => enclose l depth '\x7b' '\x7d' (writeMembers l (depth + 1) members)

def writeItems (l : Layout) (depth : Nat) : List JsonValue → List Text
  | [] => []
  | v :: vs => writeAt l depth v :: writeItems l depth vs

def writeMembers (l : Layout) (depth : Nat) : List (Text × JsonValue) → List Text
  | [] => []
  | (k, v) :: ms =>
    (writeString k ++ .scalar ':' :: l.afterColon ++ writeAt l depth v) ::
      writeMembers l depth ms

end

def write (l : Layout) (v : JsonValue) : Text :=
  writeAt l 0 v

end LocaleLift.JsonValue
