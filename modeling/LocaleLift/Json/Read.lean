import LocaleLift.Assoc
import LocaleLift.Json.Value
import LocaleLift.Text.Hex
import LocaleLift.Text.Parts

/-! Reading JSON. Nothing may stand in a control character's place inside a string, and nothing but
white space may follow the value. -/
namespace LocaleLift.JsonValue

def isBlank (c : CodePoint) : Bool :=
  c.toNat == 0x20 || c.inRange 0x09 0x0A || c.toNat == 0x0D

def skipBlank (t : Text) : Text :=
  t.dropWhile isBlank

def isDigit (c : CodePoint) : Bool :=
  c.inRange 0x30 0x39

def maxDigits : Nat := 4300

def decimal (digits : Text) : Nat :=
  digits.foldl (fun n c => 10 * n + (c.toNat - 0x30)) 0

def unit? (a b c d : CodePoint) : Option Nat :=
  Text.hexNumber? [a, b, c, d]

def simpleEscape? (c : CodePoint) : Option CodePoint :=
  match c with
  | .scalar '\x22' | .scalar '\\' | .scalar '/' => some c
  | .scalar 'b' => some (.scalar '\x08')
  | .scalar 'f' => some (.scalar '\x0c')
  | .scalar 'n' => some (.scalar '\n')
  | .scalar 'r' => some (.scalar '\r')
  | .scalar 't' => some (.scalar '\t')
  | _ => none

def cons? (c? : Option CodePoint) (rest? : Option (Text × Text)) :
    Option (Text × Text) := do
  let c ← c?
  let (t, rest) ← rest?
  return (c :: t, rest)

/-- The code point of two escapes that name the halves of one. -/
def pair? (high low : Nat) : Option CodePoint :=
  if 0xD800 ≤ high ∧ high < 0xDC00 ∧ 0xDC00 ≤ low ∧ low < 0xE000 then
    CodePoint.ofNat? (0x10000 + (high - 0xD800) * 0x400 + (low - 0xDC00))
  else none

/-- A string after its opening quote, and what follows the closing one. -/
def readString : Text → Option (Text × Text)
  | [] => none
  | .scalar '\x22' :: t => some ([], t)
  | .scalar '\\' :: .scalar 'u' :: a :: b :: c :: d ::
      .scalar '\\' :: .scalar 'u' :: e :: f :: g :: h :: t =>
    match unit? a b c d, unit? e f g h with
    | none, _ => none
    | some high, low? =>
      match low?.bind (pair? high) with
      | some p => cons? (some p) (readString t)
      | none =>
        cons? (CodePoint.ofNat? high)
          (readString (.scalar '\\' :: .scalar 'u' :: e :: f :: g :: h :: t))
  | .scalar '\\' :: .scalar 'u' :: a :: b :: c :: d :: t =>
    cons? ((unit? a b c d).bind CodePoint.ofNat?) (readString t)
  | .scalar '\\' :: c :: t => cons? (simpleEscape? c) (readString t)
  | c :: t => if c.toNat < 0x20 then none else cons? (some c) (readString t)

private def fraction (t : Text) : Text :=
  match t with
  | .scalar '.' :: t =>
    let digits := t.takeWhile isDigit
    if digits.isEmpty then [] else .scalar '.' :: digits
  | _ => []

private def exponent (t : Text) : Text :=
  match t with
  | e :: t =>
    if e = .scalar 'e' || e = .scalar 'E' then
      let sign := (t.take 1).filter fun c => c == .scalar '+' || c == .scalar '-'
      let digits := (t.drop sign.length).takeWhile isDigit
      if digits.isEmpty then [] else e :: sign ++ digits
    else []
  | [] => []

/-- A number without its sign: its digits, and the fraction and exponent after them. A number that
begins with a zero has no further digits before the point. -/
def readDigits (t : Text) : Option (Text × Text × Text) :=
  let digits := if t.head? == some (.scalar '0') then t.take 1 else t.takeWhile isDigit
  if digits.isEmpty then none
  else
    let t := t.drop digits.length
    let point := fraction t
    let t := t.drop point.length
    let power := exponent t
    some (digits, point ++ power, t.drop power.length)

private def number? (negative : Bool) (t : Text) : Option (JsonValue × Text) := do
  let (digits, more, rest) ← readDigits t
  if more.isEmpty then
    if digits.length > maxDigits then none
    let n : Int := decimal digits
    return (.int (if negative then -n else n), rest)
  else return (.real ((if negative then [.scalar '-'] else []) ++ digits ++ more), rest)

private def words : List (Text × JsonValue) :=
  [("null", null), ("true", bool true), ("false", bool false), ("NaN", real "NaN"),
    ("Infinity", real "Infinity"), ("-Infinity", real "-Infinity")]

def readPlain (t : Text) : Option (JsonValue × Text) :=
  match words.findSome? fun (w, v) => (Text.dropStart? w t).map fun rest => (v, rest) with
  | some r => some r
  | none =>
    match t with
    | .scalar '-' :: t => number? true t
    | t => number? false t

mutual

/-- A value of a text that starts with it, and what follows. The depth bounds the nesting and the
number of parts. -/
def readValue : Nat → Text → Option (JsonValue × Text)
  | 0, _ => none
  | depth + 1, t =>
    match t with
    | .scalar '\x22' :: t => (readString t).map fun (s, rest) => (string s, rest)
    | .scalar '[' :: t =>
      match skipBlank t with
      | .scalar ']' :: rest => some (array [], rest)
      | t => (readItems depth t).map fun (items, rest) => (array items, rest)
    | .scalar '\x7b' :: t =>
      match skipBlank t with
      | .scalar '\x7d' :: rest => some (object [], rest)
      | t => (readMembers depth t).map fun (ms, rest) => (object (Assoc.ofPairs ms), rest)
    | t => readPlain t

def readItems : Nat → Text → Option (List JsonValue × Text)
  | 0, _ => none
  | depth + 1, t => do
    let (item, t) ← readValue depth t
    match skipBlank t with
    | .scalar ']' :: rest => return ([item], rest)
    | .scalar ',' :: t =>
      let (items, rest) ← readItems depth (skipBlank t)
      return (item :: items, rest)
    | _ => none

def readMembers : Nat → Text → Option (List (Text × JsonValue) × Text)
  | 0, _ => none
  | depth + 1, t => do
    let .scalar '\x22' :: t := t | none
    let (key, t) ← readString t
    let .scalar ':' :: t := skipBlank t | none
    let (value, t) ← readValue depth (skipBlank t)
    match skipBlank t with
    | .scalar '\x7d' :: rest => return ([(key, value)], rest)
    | .scalar ',' :: t =>
      let (members, rest) ← readMembers depth (skipBlank t)
      return ((key, value) :: members, rest)
    | _ => none

end

/-- The value that a text writes, if it writes one, however deeply its parts are nested. Of two members
with the same key the later one counts. -/
def read? (t : Text) : Option JsonValue := do
  let (value, rest) ← readValue (t.length + 1) (skipBlank t)
  if (skipBlank rest).isEmpty then return value else none

private theorem not_object_of_readPlain {t rest : Text} {v : JsonValue}
    (h : readPlain t = some (v, rest)) (ms : List (Text × JsonValue)) : v ≠ .object ms := by
  have hnumber {negative : Bool} {t : Text} (h : number? negative t = some (v, rest)) :
      v ≠ .object ms := by
    simp only [number?, Option.bind_eq_bind, Option.bind_eq_some_iff] at h
    obtain ⟨_, -, h⟩ := h
    split at h
    · split at h
      · cases h
      · cases h
        exact nofun
    · cases h
      exact nofun
  unfold readPlain at h
  split at h
  · rename_i r hword
    obtain ⟨p, hp, hdrop⟩ := List.exists_of_findSome?_eq_some hword
    cases h
    obtain ⟨_, -, hv⟩ := Option.map_eq_some_iff.mp hdrop
    obtain ⟨rfl, -⟩ := Prod.mk.inj hv
    simp only [words, List.mem_cons, List.not_mem_nil, or_false] at hp
    rcases hp with rfl | rfl | rfl | rfl | rfl | rfl <;> exact nofun
  · split at h
    · exact hnumber h
    · exact hnumber h

/-- The keys of an object that is read are different. -/
theorem nodup_of_read? {t : Text} {ms : List (Text × JsonValue)} (h : read? t = some (.object ms)) :
    (ms.map (·.1)).Nodup := by
  simp only [read?, Option.bind_eq_bind, Option.bind_eq_some_iff] at h
  obtain ⟨⟨v, rest⟩, hread, h⟩ := h
  split at h
  · cases h
    unfold readValue at hread
    split at hread
    · obtain ⟨_, -, he⟩ := Option.map_eq_some_iff.mp hread
      cases he
    · split at hread
      · cases hread
      · obtain ⟨_, -, he⟩ := Option.map_eq_some_iff.mp hread
        cases he
    · split at hread
      · cases hread
        exact List.nodup_nil
      · obtain ⟨_, -, he⟩ := Option.map_eq_some_iff.mp hread
        cases he
        exact Assoc.nodup_ofPairs _
    · exact absurd rfl (not_object_of_readPlain hread ms)
  · cases h

end LocaleLift.JsonValue
