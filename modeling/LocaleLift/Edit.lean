import LocaleLift.Failure
import LocaleLift.Text.Utf8

/-! Replacing ranges of a byte sequence by texts. -/
namespace LocaleLift

/-- An edit puts a text in the place of the bytes from `start` up to `stop`. -/
structure Edit where
  start : Int
  stop : Int
  text : Text
  deriving DecidableEq, Repr

namespace Edit

def ofRange (start stop : Nat) (text : Text) : Edit :=
  ⟨start, stop, text⟩

/-- The place an offset means in a sequence: a negative one counts back from the end, and one
outside is moved to the nearest end. -/
def place (length : Nat) (offset : Int) : Nat :=
  if offset < 0 then (offset + length).toNat else min offset.toNat length

def apply (bytes : List UInt8) (e : Edit) : Except Failure (List UInt8) :=
  match Utf8.encode e.text with
  | none => .error .notEncodable
  | some new =>
    .ok (bytes.take (place bytes.length e.start) ++ new ++ bytes.drop (place bytes.length e.stop))

/-- Carry out edits in the order given, none reaching past a bound, and each but the first not past
the start of the one before. -/
def applyDown (bytes : List UInt8) (bound : Int) : List Edit → Except Failure (List UInt8)
  | [] => .ok bytes
  | e :: es =>
    if e.stop > bound then .error (.overlap e.start)
    else do applyDown (← e.apply bytes) e.start es

/-- Carry out edits from the last to the first, so that the offsets of those still to come stay
right. An edit may not reach past the start of the one that follows it. -/
def applyAll (bytes : List UInt8) (edits : List Edit) : Except Failure (List UInt8) :=
  applyDown bytes (bytes.length + 1) (edits.mergeSort fun a b => b.start ≤ a.start)

end Edit
end LocaleLift
