import LocaleLift.Text.Number

/-! Binary numbers of 64 bits, as which numbers with a fraction or an exponent are read, and the
shortest decimal numbers that are read as them. -/
namespace LocaleLift

/-- A mantissa of up to 53 digits times a power of two, an infinite number, or none. -/
inductive Binary where
  | finite (negative : Bool) (mantissa : Nat) (exponent : Int)
  | infinite (negative : Bool)
  | undefined
  deriving DecidableEq, Repr

namespace Binary

private def scale (base n d : Nat) (power : Int) : Nat × Nat :=
  (n * base.pow power.toNat, d * base.pow (-power).toNat)

/-- The integer nearest to a quotient, the even one if two are. -/
private def nearest (n d : Nat) : Nat :=
  let rest := 2 * (n % d)
  if d < rest || (d == rest && n / d % 2 == 1) then n / d + 1 else n / d

def ofQuotient (negative : Bool) (n d : Nat) : Binary :=
  let high : Int := n.log2 - d.log2 - 52
  let (m, k) := scale 2 n d (-high)
  let exponent := max (-1074) (if m / k < Nat.pow 2 52 then high - 1 else high)
  let (m, k) := scale 2 n d (-exponent)
  let rounded := nearest m k
  let (mantissa, exponent) :=
    if rounded == Nat.pow 2 53 then (Nat.pow 2 52, exponent + 1) else (rounded, exponent)
  if 971 < exponent then infinite negative else finite negative mantissa exponent

/-- The binary number nearest to a natural number times a power of ten. -/
def ofDecimal (negative : Bool) (n : Nat) (power : Int) : Binary :=
  -- What is too large or too small in any case is told before a power of ten is written out.
  if n == 0 || power + n.log2 < -330 then finite negative 0 0
  else if 310 < power then infinite negative
  else
    let (n, d) := scale 10 n 1 power
    ofQuotient negative n d

private def natural (digits : Text) : Nat :=
  digits.foldl (fun n c => 10 * n + c.digit?.getD 0) 0

private def power (t : Text) : Int :=
  match t.drop 1 with
  | .scalar '-' :: digits => -(natural digits : Int)
  | .scalar '+' :: digits => natural digits
  | digits => natural digits

def ofDigits (negative : Bool) (t : Text) : Binary :=
  let whole := t.takeWhile CodePoint.isDigit
  match t.drop whole.length with
  | .scalar '.' :: t =>
    let fraction := t.takeWhile CodePoint.isDigit
    ofDecimal negative (natural (whole ++ fraction)) (power (t.drop fraction.length) - fraction.length)
  | t => ofDecimal negative (natural whole) (power t)

def ofText : Text → Binary
  | .scalar '-' :: t => if t = "Infinity" then infinite true else ofDigits true t
  | t => if t = "Infinity" then infinite false else if t = "NaN" then undefined else ofDigits false t

def isNonzero : Binary → Bool
  | finite _ mantissa _ => mantissa != 0
  | _ => true

/-- The number without its fraction; none if it is not finite. -/
def truncate? : Binary → Option Int
  | finite negative mantissa exponent =>
    let (n, d) := scale 2 mantissa 1 exponent
    some (if negative then -(n / d : Nat) else (n / d : Nat))
  | _ => none

def isBelow (size : Nat) : Binary → Bool
  | finite negative mantissa exponent =>
    let (n, d) := scale 2 mantissa 1 exponent
    if negative then 0 < n || 0 < size else n < size * d
  | infinite negative => negative
  | undefined => false

/-- A decimal number of so many digits that is read as a binary one, the nearest of them: a natural
number, and the power of ten to take it times. -/
private def decimal? (n d : Nat) (digits : Nat) : Option (Nat × Int) :=
  let (m, k) := scale 10 n d 400
  let power : Int := (Text.ofNat (m / k)).length - 400 - digits
  let (m, k) := scale 10 n d (-power)
  let next := if nearest m k = m / k then [m / k, m / k + 1] else [m / k + 1, m / k]
  (next.find? fun a => ofDecimal false a power == ofQuotient false n d).map fun a => (a, power)

private def zeros (n : Nat) : Text :=
  List.replicate n (.scalar '0')

private def zero : Text := "0"

private def point : Text := "."

/-- Digits as a decimal number, by the exponent of the first one. -/
private def place (digits : Text) (exponent : Int) : Text :=
  if -4 ≤ exponent && exponent < 0 then zero ++ point ++ zeros (-exponent - 1).toNat ++ digits
  else if 0 ≤ exponent && exponent < 16 then
    let whole := digits.take (exponent.toNat + 1)
    let fraction := digits.drop (exponent.toNat + 1)
    whole ++ zeros (exponent.toNat + 1 - digits.length) ++ point ++
      (if fraction.isEmpty then zero else fraction)
  else
    let size := Text.ofNat exponent.natAbs
    let sign : Text := if exponent < 0 then "e-" else "e+"
    digits.take 1 ++ (if digits.length = 1 then [] else point ++ digits.drop 1) ++ sign ++
      zeros (2 - size.length) ++ size

def shown : Binary → Text
  | finite negative mantissa exponent =>
    let (n, d) := scale 2 mantissa 1 exponent
    let digits := match (List.range 17).findSome? fun i => decimal? n d (i + 1) with
      | some (a, power) =>
        let digits := Text.ofNat a
        let short := (digits.reverse.dropWhile (· == .scalar '0')).reverse
        place short (power + digits.length - 1)
      | none => "0.0"
    if negative then .scalar '-' :: digits else digits
  | infinite negative => if negative then "-inf" else "inf"
  | undefined => "nan"

end Binary

example : [("3.5" : Text), "1e2", "0e9", "1e-999", "2.9999999999999999999"].map
    (fun t => ((Binary.ofDigits false t).truncate?, (Binary.ofDigits false t).isBelow 3)) =
    [(some 3, false), (some 100, false), (some 0, true), (some 0, true), (some 3, false)] := by
  decide +kernel

end LocaleLift
