import LocaleLift.Text.Binary
import LocaleLift.Text.Quoted

/-! JSON values. -/
namespace LocaleLift

/-- A JSON value. A number with a fraction or an exponent keeps its spelling, as do the numbers
that are none or infinite. -/
inductive JsonValue where
  | null
  | bool (b : Bool)
  | int (n : Int)
  | real (spelling : Text)
  | string (t : Text)
  | array (items : List JsonValue)
  | object (members : List (Text × JsonValue))
  deriving Repr, Inhabited

namespace JsonValue

def isNull : JsonValue → Bool
  | null => true
  | _ => false

def text? : JsonValue → Option Text
  | string t => some t
  | _ => none

/-- Whether a value is more than nothing: not null, false, zero or empty. -/
def isFilled : JsonValue → Bool
  | null => false
  | bool b => b
  | int n => n != 0
  | real spelling => (Binary.ofText spelling).isNonzero
  | string t => !t.isEmpty
  | array items => !items.isEmpty
  | object members => !members.isEmpty

mutual

def shown : JsonValue → Text
  | null => "None"
  | bool b => if b then "True" else "False"
  | int n => Text.ofInt n
  | real spelling => (Binary.ofText spelling).shown
  | string t => t.quoted
  | array items => "[" ++ Text.join ", " (shownItems items) ++ "]"
  | object members => "\x7b" ++ Text.join ", " (shownMembers members) ++ "\x7d"

def shownItems : List JsonValue → List Text
  | [] => []
  | v :: vs => shown v :: shownItems vs

def shownMembers : List (Text × JsonValue) → List Text
  | [] => []
  | (k, v) :: ms => (k.quoted ++ ": " ++ shown v) :: shownMembers ms

end

/-- A value in running text: a string stands without quotes. -/
def plain : JsonValue → Text
  | string t => t
  | v => shown v

end JsonValue
end LocaleLift
