import LocaleLift.Text.Utf8
import Mathlib.Data.List.Basic

/-! Sizes of texts in bytes, and the offsets at which the bytes of a text fall apart into texts. -/
namespace LocaleLift.Utf8

@[simp] theorem size_nil : size [] = 0 := rfl

@[simp] theorem size_cons (c : CodePoint) (t : Text) : size (c :: t) = pointSize c + size t := rfl

@[simp] theorem size_append (s t : Text) : size (s ++ t) = size s + size t := by
  induction s with
  | nil => simp
  | cons c s ih => rw [List.cons_append, size_cons, ih, size_cons, Nat.add_assoc]

theorem pointSize_pos (c : CodePoint) : 0 < pointSize c := by
  rw [pointSize]
  repeat' split
  all_goals omega

theorem eq_nil_of_size {t : Text} (h : size t = 0) : t = [] := by
  cases t with
  | nil => rfl
  | cons c t =>
    have := pointSize_pos c
    rw [size_cons] at h
    omega

private theorem length_encodePoint {p : CodePoint} {bytes : List UInt8}
    (h : encodePoint p = some bytes) : bytes.length = pointSize p := by
  cases p with
  | surrogate i => simp [encodePoint] at h
  | scalar c =>
    simp only [encodePoint, Option.some.injEq] at h
    subst h
    by_cases h1 : c.toNat < 0x80
    · simp [pointSize, CodePoint.toNat, h1]
    · by_cases h2 : c.toNat < 0x800
      · simp [pointSize, CodePoint.toNat, h1, h2]
      · by_cases h3 : c.toNat < 0x10000 <;> simp [pointSize, CodePoint.toNat, h1, h2, h3]

theorem encode_cons {p : CodePoint} {t : Text} {bytes : List UInt8} :
    encode (p :: t) = some bytes ↔
      ∃ first rest, encodePoint p = some first ∧ encode t = some rest ∧ first ++ rest = bytes := by
  simp only [encode, Option.bind_eq_bind, Option.bind_eq_some_iff, Option.pure_def,
    Option.some.injEq, exists_and_left]

/-- A text has as many bytes as its size says. -/
theorem length_encode {t : Text} {bytes : List UInt8} (h : encode t = some bytes) :
    bytes.length = size t := by
  induction t generalizing bytes with
  | nil =>
    obtain rfl : [] = bytes := Option.some.inj h
    rfl
  | cons p t ih =>
    obtain ⟨first, rest, hp, ht, rfl⟩ := encode_cons.mp h
    rw [List.length_append, length_encodePoint hp, ih ht, size_cons]

theorem encode_append {s t : Text} {bytes : List UInt8} :
    encode (s ++ t) = some bytes ↔
      ∃ first rest, encode s = some first ∧ encode t = some rest ∧ first ++ rest = bytes := by
  induction s generalizing bytes with
  | nil => simp [encode]
  | cons p s ih =>
    rw [List.cons_append, encode_cons]
    constructor
    · rintro ⟨first, rest, hp, hst, rfl⟩
      obtain ⟨mid, last, hs, ht, rfl⟩ := ih.mp hst
      exact ⟨first ++ mid, last, encode_cons.mpr ⟨first, mid, hp, hs, rfl⟩, ht,
        List.append_assoc first mid last⟩
    · rintro ⟨first, rest, hps, ht, rfl⟩
      obtain ⟨head, mid, hp, hs, rfl⟩ := encode_cons.mp hps
      exact ⟨head, mid ++ rest, hp, ih.mpr ⟨mid, rest, hs, ht, rfl⟩,
        (List.append_assoc head mid rest).symm⟩

/-- Exactly the texts without surrogates have bytes. -/
theorem exists_encode {t : Text} : (∃ bytes, encode t = some bytes) ↔ t.isEncodable = true := by
  induction t with
  | nil => simp [encode]
  | cons p t ih =>
    have hp : (∃ first, encodePoint p = some first) ↔ p.isScalar = true := by
      cases p <;> simp [encodePoint, CodePoint.isScalar]
    rw [Text.isEncodable_cons, Bool.and_eq_true, ← ih, ← hp]
    constructor
    · rintro ⟨bytes, h⟩
      obtain ⟨first, rest, hf, hr, -⟩ := encode_cons.mp h
      exact ⟨⟨first, hf⟩, ⟨rest, hr⟩⟩
    · rintro ⟨⟨first, hf⟩, ⟨rest, hr⟩⟩
      exact ⟨_, encode_cons.mpr ⟨first, rest, hf, hr, rfl⟩⟩

/-- An offset in bytes at which a text can be parted. -/
def Boundary (t : Text) (offset : Nat) : Prop :=
  ∃ before after, t = before ++ after ∧ size before = offset

theorem Boundary.le_size {t : Text} {offset : Nat} (h : Boundary t offset) : offset ≤ size t := by
  obtain ⟨before, after, rfl, rfl⟩ := h
  rw [size_append]
  omega

/-- Of two beginnings of a text, the one that takes less bytes is a beginning of the other. -/
theorem prefix_of_size_le {s t u : Text} (hs : s <+: u) (ht : t <+: u)
    (h : size s ≤ size t) : s <+: t := by
  rcases List.prefix_or_prefix_of_prefix hs ht with hst | ⟨more, rfl⟩
  · exact hst
  · rw [size_append] at h
    obtain rfl : more = [] := eq_nil_of_size (by omega)
    exact ⟨[], by rw [List.append_nil, List.append_nil]⟩

/-- Two boundaries part a text into three. -/
theorem Boundary.split {t : Text} {a b : Nat} (ha : Boundary t a) (hb : Boundary t b)
    (hab : a ≤ b) : ∃ s u v, t = s ++ u ++ v ∧ size s = a ∧ size (s ++ u) = b := by
  obtain ⟨s, s', hs, rfl⟩ := ha
  obtain ⟨w, v, rfl, rfl⟩ := hb
  obtain ⟨u, rfl⟩ := prefix_of_size_le ⟨s', hs.symm⟩ ⟨v, rfl⟩ hab
  exact ⟨s, u, v, rfl, rfl, rfl⟩

/-- A boundary before the end of a first part is a boundary of that part. -/
theorem Boundary.of_append {s t : Text} {a : Nat} (h : Boundary (s ++ t) a) (ha : a ≤ size s) :
    Boundary s a := by
  obtain ⟨u, u', hu, rfl⟩ := h
  obtain ⟨v, rfl⟩ := prefix_of_size_le ⟨u', hu.symm⟩ ⟨t, rfl⟩ ha
  exact ⟨u, v, rfl, rfl⟩

/-- A slice is one piece of the text. -/
theorem slice_isInfix (start stop : Nat) (t : Text) : slice start stop t <:+: t := by
  have hstart (stop : Nat) (t : Text) : slice 0 stop t <+: t := by
    induction t generalizing stop with
    | nil => exact List.prefix_refl []
    | cons c t ih =>
      rw [slice, if_neg (Nat.lt_irrefl 0)]
      split
      · exact List.cons_prefix_cons.mpr ⟨rfl, ih _⟩
      · exact List.nil_prefix
  induction t generalizing start stop with
  | nil => exact List.infix_refl []
  | cons c t ih =>
    cases start with
    | zero => exact (hstart stop (c :: t)).isInfix
    | succ start =>
      rw [slice, if_pos (Nat.succ_pos start)]
      exact List.infix_cons (ih _ _)

theorem slice_eq_nil {start stop : Nat} (h : stop ≤ start) (t : Text) : slice start stop t = [] := by
  induction t generalizing start stop with
  | nil => rfl
  | cons c t ih =>
    rw [slice]
    split
    · exact ih (by omega)
    · rw [if_neg (by omega)]

/-- What stands between two boundaries is sliced out. -/
theorem slice_append (s u v : Text) : slice (size s) (size (s ++ u)) (s ++ u ++ v) = u := by
  induction s with
  | nil =>
    rw [List.nil_append, size_nil]
    induction u with
    | nil => exact slice_eq_nil (Nat.le_refl 0) v
    | cons c u ih =>
      have hpos := pointSize_pos c
      rw [List.cons_append, slice, if_neg (Nat.lt_irrefl 0), size_cons, if_pos (by omega),
        Nat.add_sub_cancel_left, ih]
  | cons c s ih =>
    have hpos := pointSize_pos c
    rw [List.cons_append, List.cons_append, slice, size_cons, size_cons, if_pos (by omega),
      Nat.add_sub_cancel_left, Nat.add_sub_cancel_left, ih]

/-- What follows a first part does not matter for its slices. -/
theorem Boundary.slice_append {s t : Text} {a b : Nat} (ha : Boundary s a) (hb : Boundary s b)
    (hab : a ≤ b) : slice a b (s ++ t) = slice a b s := by
  obtain ⟨u, v, w, rfl, rfl, rfl⟩ := ha.split hb hab
  rw [List.append_assoc (u ++ v), Utf8.slice_append, Utf8.slice_append]

theorem isEncodable_slice {start stop : Nat} {t : Text} (h : t.isEncodable = true) :
    (slice start stop t).isEncodable = true := by
  rw [Text.isEncodable, List.all_eq_true] at *
  intro c hc
  exact h c ((slice_isInfix start stop t).subset hc)

end LocaleLift.Utf8
