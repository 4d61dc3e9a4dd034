import LocaleLift.Text.Space

/-! Integers written in the decimal digits of any script. -/
namespace LocaleLift

/-- The zeros of the scripts that have decimal digits. The other nine digits follow each. -/
def CodePoint.zeros : List Nat :=
  [0x30, 0x660, 0x6F0, 0x7C0, 0x966, 0x9E6, 0xA66, 0xAE6, 0xB66, 0xBE6, 0xC66, 0xCE6, 0xD66,
    0xDE6, 0xE50, 0xED0, 0xF20, 0x1040, 0x1090, 0x17E0, 0x1810, 0x1946, 0x19D0, 0x1A80, 0x1A90,
    0x1B50, 0x1BB0, 0x1C40, 0x1C50, 0xA620, 0xA8D0, 0xA900, 0xA9D0, 0xA9F0, 0xAA50, 0xABF0,
    0xFF10, 0x104A0, 0x10D30, 0x11066, 0x110F0, 0x11136, 0x111D0, 0x112F0, 0x11450, 0x114D0,
    0x11650, 0x116C0, 0x11730, 0x118E0, 0x11950, 0x11C50, 0x11D50, 0x11DA0, 0x16A60, 0x16AC0,
    0x16B50, 0x1D7CE, 0x1D7D8, 0x1D7E2, 0x1D7EC, 0x1D7F6, 0x1E140, 0x1E2F0, 0x1E950, 0x1FBF0]

def CodePoint.digit? (c : CodePoint) : Option Nat :=
  (CodePoint.zeros.find? fun z => c.inRange z (z + 9)).map fun z => c.toNat - z

def CodePoint.isDigit (c : CodePoint) : Bool :=
  c.digit?.isSome

namespace Text

def maxDigits : Nat := 4300

/-- The digits of a number. One low line may part two digits. -/
def digits? : Text → Option (List Nat)
  | [] => none
  | [c] => c.digit?.map fun d => [d]
  | c :: .scalar '_' :: t => do return (← c.digit?) :: (← digits? t)
  | c :: t => do return (← c.digit?) :: (← digits? t)

def toNat? (t : Text) : Option Nat := do
  let digits ← digits? t
  if maxDigits < digits.length then none else return digits.foldl (fun n d => 10 * n + d) 0

/-- The integer that a text writes, with or without a sign, and with white space around it. -/
def toInt? (t : Text) : Option Int :=
  match trim t with
  | .scalar '-' :: t => (toNat? t).map fun n => -(n : Int)
  | .scalar '+' :: t => (toNat? t).map fun n => (n : Int)
  | t => (toNat? t).map fun n => (n : Int)

end Text
end LocaleLift
