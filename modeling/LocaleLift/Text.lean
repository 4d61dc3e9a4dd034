/-! Code points and the texts made of them. -/
namespace LocaleLift

/-- A code point is a Unicode scalar value, or a surrogate that stands alone. -/
inductive CodePoint where
  | scalar (c : Char)
  | surrogate (offset : Fin 0x800)
  deriving DecidableEq, Repr, Inhabited

namespace CodePoint

def toNat : CodePoint → Nat
  | scalar c => c.toNat
  | surrogate i => 0xD800 + i.val

def ofNat? (n : Nat) : Option CodePoint :=
  if h : n.isValidChar then some (scalar (Char.ofNatAux n h))
  else if 0xD800 ≤ n ∧ n < 0xE000 then some (surrogate (Fin.ofNat 0x800 (n - 0xD800)))
  else none

def inRange (lo hi : Nat) (c : CodePoint) : Bool :=
  lo ≤ c.toNat && c.toNat ≤ hi

def isScalar : CodePoint → Bool
  | scalar _ => true
  | surrogate _ => false

instance : Coe Char CodePoint := ⟨scalar⟩

@[simp] theorem isScalar_scalar (c : Char) : (scalar c).isScalar = true := rfl

theorem toNat_lt (c : CodePoint) : c.toNat < 0x110000 := by
  cases c with
  | scalar c =>
    have hc : c.toNat < 0xD800 ∨ 0xDFFF < c.toNat ∧ c.toNat < 0x110000 := c.valid
    rw [toNat]
    omega
  | surrogate i =>
    have := i.isLt
    rw [toNat]
    omega

/-- The surrogates are told by their numbers. -/
theorem isScalar_iff (c : CodePoint) :
    c.isScalar = true ↔ ¬ (0xD800 ≤ c.toNat ∧ c.toNat < 0xE000) := by
  cases c with
  | scalar c =>
    have hc : c.toNat < 0xD800 ∨ 0xDFFF < c.toNat ∧ c.toNat < 0x110000 := c.valid
    simp only [isScalar, toNat, true_iff]
    omega
  | surrogate i =>
    have := i.isLt
    simp only [isScalar, toNat, Bool.false_eq_true, false_iff]
    omega

theorem toNat_of_ofNat? {n : Nat} {c : CodePoint} (h : ofNat? n = some c) : c.toNat = n := by
  rw [ofNat?] at h
  by_cases hv : n.isValidChar
  · rw [dif_pos hv] at h
    obtain rfl := Option.some.inj h
    rfl
  · rw [dif_neg hv] at h
    split at h
    · obtain rfl := Option.some.inj h
      simp only [toNat, Fin.ofNat]
      omega
    · cases h

/-- Every number below 0x110000 is that of a code point. -/
theorem exists_ofNat? {n : Nat} : (∃ c, ofNat? n = some c) ↔ n < 0x110000 := by
  constructor
  · rintro ⟨c, h⟩
    exact toNat_of_ofNat? h ▸ toNat_lt c
  · intro h
    rw [ofNat?]
    by_cases hv : n.isValidChar
    · exact ⟨_, dif_pos hv⟩
    · rw [dif_neg hv]
      have hv : ¬ (n < 0xD800 ∨ 0xDFFF < n ∧ n < 0x110000) := hv
      exact ⟨_, if_pos (by omega)⟩

end CodePoint

/-- A text is a list of code points. -/
abbrev Text := List CodePoint

namespace Text

def ofString (s : String) : Text :=
  s.toList.map .scalar

instance : Coe String Text := ⟨ofString⟩

-- Spells a literal out at once, where evaluating it would take time quadratic in its length.
theorem ofString_ofList (l : List Char) : ofString (String.ofList l) = l.map .scalar :=
  congrArg (List.map CodePoint.scalar) String.toList_ofList

def isSame : Text → Text → Bool
  | [], [] => true
  | c :: t, d :: u => c == d && isSame t u
  | _, _ => false

theorem isSame_iff {t u : Text} : isSame t u = true ↔ t = u := by
  induction t generalizing u with
  | nil => cases u <;> simp [isSame]
  | cons c t ih => cases u <;> simp [isSame, ih]

-- Evaluates faster than the instance for lists, where a proof that texts differ grows with them.
instance : DecidableEq Text := fun _ _ => decidable_of_iff _ isSame_iff

def ofNat (n : Nat) : Text :=
  ofString (toString n)

/-- The text of an integer, with a sign if it is negative. -/
def ofInt : Int → Text
  | .ofNat n => ofNat n
  | .negSucc n => ofString "-" ++ ofNat (n + 1)

def isEncodable (t : Text) : Bool :=
  t.all (·.isScalar)

@[simp] theorem isEncodable_nil : isEncodable [] = true := rfl

@[simp] theorem isEncodable_cons (c : CodePoint) (t : Text) :
    isEncodable (c :: t) = (c.isScalar && isEncodable t) := rfl

@[simp] theorem isEncodable_append (s t : Text) :
    isEncodable (s ++ t) = (isEncodable s && isEncodable t) :=
  List.all_append

theorem isEncodable_ofString (s : String) : isEncodable (ofString s) = true := by
  simp [isEncodable, ofString, CodePoint.isScalar]

/-- The order of texts by code point; a proper beginning comes first. -/
def lt : Text → Text → Bool
  | _, [] => false
  | [], _ :: _ => true
  | a :: s, b :: t => a.toNat < b.toNat || (a.toNat == b.toNat && lt s t)

def le (s t : Text) : Bool :=
  !lt t s

/-- The texts in increasing order; equal ones keep their places. -/
def sort (ts : List Text) : List Text :=
  ts.mergeSort le

def join (separator : Text) (ts : List Text) : Text :=
  separator.intercalate ts

def dropStart? : Text → Text → Option Text
  | [], t => some t
  | _ :: _, [] => none
  | a :: s, b :: t => if a = b then dropStart? s t else none

theorem dropStart?_eq_some {s t rest : Text} : dropStart? s t = some rest ↔ t = s ++ rest := by
  induction s generalizing t with
  | nil => simp [dropStart?]
  | cons a s ih =>
    cases t with
    | nil => simp [dropStart?]
    | cons b t =>
      by_cases h : a = b
      · simp [dropStart?, h, ih]
      · have h' : ¬ b = a := fun e => h e.symm
        simp [dropStart?, h, h']

def startsWith (start t : Text) : Bool :=
  start.isPrefixOf t

def endsWith (stop t : Text) : Bool :=
  stop.isSuffixOf t

def splitOn (c : CodePoint) : Text → List Text
  | [] => [[]]
  | d :: t =>
    if d = c then [] :: splitOn c t
    else match splitOn c t with
      | [] => [[d]]
      | piece :: rest => (d :: piece) :: rest

end Text
end LocaleLift
