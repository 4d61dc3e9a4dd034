import LocaleLift.Proofs.Literal.Escape
import LocaleLift.Proofs.Literal.Spelling
import LocaleLift.Proofs.Text.Order
import LocaleLift.Text.Space

/-! The string that a literal denotes in strict code, a sequence of units of 16 bits, and the bodies
that are their own value apart from white space at the ends. -/
namespace LocaleLift

def CodePoint.units (c : CodePoint) : List Nat :=
  if c.toNat < 0x10000 then [c.toNat]
  else [0xD800 + (c.toNat - 0x10000) / 0x400, 0xDC00 + (c.toNat - 0x10000) % 0x400]

namespace Text

def units (t : Text) : List Nat :=
  t.flatMap CodePoint.units

private theorem eq_of_units_append {c d : CodePoint} {us vs : List Nat} (hc : c.isScalar = true)
    (hd : d.isScalar = true) (h : c.units ++ us = d.units ++ vs) : c = d ∧ us = vs := by
  rw [CodePoint.isScalar_iff] at hc hd
  have hc' := c.toNat_lt
  have hd' := d.toNat_lt
  unfold CodePoint.units at h
  split at h <;> split at h <;> simp only [List.cons_append, List.nil_append, List.cons.injEq] at h
  · exact ⟨CodePoint.toNat_injective h.1, h.2⟩
  · omega
  · omega
  · exact ⟨CodePoint.toNat_injective (by omega), h.2.2⟩

/-- Without surrogates of their own, texts are told apart by their units. -/
theorem eq_of_units {s t : Text} (hs : s.isEncodable = true) (ht : t.isEncodable = true)
    (h : s.units = t.units) : s = t := by
  have hne (c : CodePoint) (t : Text) : units (c :: t) ≠ [] := by
    rw [units, List.flatMap_cons, CodePoint.units]
    split
    · exact List.cons_ne_nil _ _
    · exact List.cons_ne_nil _ _
  induction s generalizing t with
  | nil =>
    cases t with
    | nil => rfl
    | cons d t => exact absurd h.symm (hne d t)
  | cons c s ih =>
    cases t with
    | nil => exact absurd h (hne c s)
    | cons d t =>
      rw [isEncodable_cons, Bool.and_eq_true] at hs ht
      obtain ⟨rfl, hrest⟩ := eq_of_units_append hs.1 ht.1 h
      rw [ih hs.2 ht.2 hrest]

/-- The number of code points that are no white space. -/
def ink (t : Text) : Nat :=
  t.countP fun c => !c.isSpace

private theorem ink_append (s t : Text) : ink (s ++ t) = s.ink + t.ink :=
  List.countP_append

private theorem ink_trim (t : Text) : (trim t).ink = t.ink := by
  have hdrop (t : Text) : ink (t.dropWhile (·.isSpace)) = t.ink := by
    induction t with
    | nil => rfl
    | cons c t ih =>
      rw [List.dropWhile_cons]
      split
      · rename_i hc
        rw [ih, ink, ink, List.countP_cons_of_neg (by simp [hc])]
      · rfl
  have hreverse (t : Text) : ink t.reverse = t.ink := List.countP_reverse
  rw [trim, trimEnd, hreverse, hdrop, hreverse, trimStart, hdrop]

end Text

namespace Literal

/-- The letters that stand for a code point which is hard to write, with its unit. -/
def controls : List (CodePoint × Nat) :=
  [('b', 0x08), ('t', 0x09), ('n', 0x0A), ('v', 0x0B), ('f', 0x0C), ('r', 0x0D)]

/-- The string that a body denotes. Octal escapes, which strict code does not have, and escapes by
number that are not complete denote nothing. -/
inductive Denotes : Text → List Nat → Prop where
  | nil : Denotes [] []
  | plain {c : CodePoint} {t : Text} {us : List Nat} (hc : c ≠ .scalar '\\') (ht : Denotes t us) :
      Denotes (c :: t) (c.units ++ us)
  /-- A line may go on behind its end. -/
  | lineEnd {c : CodePoint} {t : Text} {us : List Nat} (hc : c ∈ lineEnds)
      (hfeed : c = .scalar '\r' → t.head? ≠ some (.scalar '\n')) (ht : Denotes t us) :
      Denotes (.scalar '\\' :: c :: t) us
  | feed {t : Text} {us : List Nat} (ht : Denotes t us) :
      Denotes (.scalar '\\' :: .scalar '\r' :: .scalar '\n' :: t) us
  | control {c : CodePoint} {u : Nat} {t : Text} {us : List Nat} (hc : (c, u) ∈ controls)
      (ht : Denotes t us) : Denotes (.scalar '\\' :: c :: t) (u :: us)
  | zero {t : Text} {us : List Nat} (hdigit : ∀ d ∈ t.head?, d.inRange 0x30 0x39 = false)
      (ht : Denotes t us) : Denotes (.scalar '\\' :: .scalar '0' :: t) (0 :: us)
  | byte {hex t : Text} {n : Nat} {us : List Nat} (hlength : hex.length = 2)
      (hhex : Text.hexNumber? hex = some n) (ht : Denotes t us) :
      Denotes (.scalar '\\' :: .scalar 'x' :: (hex ++ t)) (n :: us)
  | unit {hex t : Text} {n : Nat} {us : List Nat} (hlength : hex.length = 4)
      (hhex : Text.hexNumber? hex = some n) (ht : Denotes t us) :
      Denotes (.scalar '\\' :: .scalar 'u' :: (hex ++ t)) (n :: us)
  | braced {hex t : Text} {c : CodePoint} {us : List Nat}
      (hhex : Text.hexNumber? hex = some c.toNat) (hne : hex ≠ []) (ht : Denotes t us) :
      Denotes (.scalar '\\' :: .scalar 'u' :: .scalar '\x7b' :: (hex ++ .scalar '\x7d' :: t))
        (c.units ++ us)
  /-- Any other code point stands for itself. -/
  | itself {c : CodePoint} {t : Text} {us : List Nat} (hline : c ∉ lineEnds)
      (hc : c ∉ ("btnvfrux0123456789" : Text)) (ht : Denotes t us) :
      Denotes (.scalar '\\' :: c :: t) (c.units ++ us)

section Denotes

variable {r t : Text} {us : List Nat} (ht : ∃ v, cook t = .ok v ∧ v.units = us)

include ht

private theorem exists_cook_escape {e : Escape} {w : Text}
    (he : escape? (r ++ t) = some (e, r.length)) (hw : e.cook (.scalar '\\' :: r) = .ok w) :
    ∃ v, cook (.scalar '\\' :: (r ++ t)) = .ok v ∧ v.units = w.units ++ us := by
  obtain ⟨v, hv, rfl⟩ := ht
  refine ⟨w ++ v, ?_, List.flatMap_append⟩
  rw [cook_escape he, hw, hv]
  rfl

private theorem exists_cook_spelled {n : Nat} {c : CodePoint} (hr : Spelling r (.number n))
    (hc : CodePoint.ofNat? n = some c) :
    ∃ v, cook (.scalar '\\' :: (r ++ t)) = .ok v ∧ v.units = c.units ++ us := by
  have h := exists_cook_escape (w := [c]) ht (escape?_number hr t) (by rw [Escape.cook, hc])
  rwa [Text.units, List.flatMap_singleton] at h

private theorem exists_cook_unit {n : Nat} (hr : Spelling r (.number n)) (hn : n < 0x10000) :
    ∃ v, cook (.scalar '\\' :: (r ++ t)) = .ok v ∧ v.units = n :: us := by
  obtain ⟨c, hc⟩ := CodePoint.exists_ofNat?.mpr (show n < 0x110000 by omega)
  have h := exists_cook_spelled ht hr hc
  rwa [CodePoint.units, CodePoint.toNat_of_ofNat? hc, if_pos hn] at h

end Denotes

private theorem escape?_lineEnd {c : CodePoint} {t : Text} (hc : c ∈ lineEnds)
    (hfeed : c = .scalar '\r' → t.head? ≠ some (.scalar '\n')) :
    escape? (c :: t) = some (.text [], 1) := by
  have hcases : c = .scalar '\n' ∨ c = .scalar '\r' ∨ c = .scalar '\u2028' ∨
      c = .scalar '\u2029' := by
    simpa [lineEnds, Text.ofString] using hc
  rcases hcases with rfl | rfl | rfl | rfl
  · rfl
  · cases t with
    | nil => rfl
    | cons d t =>
      have hd : d ≠ .scalar '\n' := fun hd => hfeed rfl (hd ▸ rfl)
      simp [escape?, hd, simpleEscape]
  · rfl
  · rfl

private theorem escape?_itself {c : CodePoint} (t : Text) (hline : c ∉ lineEnds)
    (hc : c ∉ ("btnvfrux0123456789" : Text)) : escape? (c :: t) = some (.text [c], 1) := by
  have hne {d : Char} (hd : .scalar d ∈ ("btnvfrux0123456789" : Text)) : c ≠ .scalar d :=
    fun he => hc (he ▸ hd)
  have hnotLine {d : Char} (hd : .scalar d ∈ lineEnds) : c ≠ .scalar d :=
    fun he => hline (he ▸ hd)
  have hself : simpleEscape c = [c] := by
    unfold simpleEscape
    split <;> first
      | rfl
      | exact absurd rfl (hne (by decide))
      | exact absurd rfl (hnotLine (by decide))
  rw [escape?.eq_6 _ _ (fun _ h _ => hne (by decide) h) (hne (by decide)) (hne (by decide))
    fun _ h _ => hnotLine (by decide) h, hself]

/-- A body that denotes a string is cooked to a text of the same units. -/
theorem Denotes.exists_cook {body : Text} {us : List Nat} (h : Denotes body us) :
    ∃ v, cook body = .ok v ∧ v.units = us := by
  induction h with
  | nil => exact ⟨[], rfl, rfl⟩
  | @plain c t us hc _ ih =>
    obtain ⟨v, hv, rfl⟩ := ih
    refine ⟨c :: v, ?_, List.flatMap_cons⟩
    rw [cook_cons hc, hv]
    rfl
  | @lineEnd c t us hc hfeed _ ih =>
    exact exists_cook_escape (r := [c]) (w := []) ih (escape?_lineEnd hc hfeed) rfl
  | feed _ ih => exact exists_cook_escape (r := "\r\n") (w := []) ih rfl rfl
  | @control c u t us hc _ ih =>
    have hcontrol : ∀ p ∈ controls, ∃ w : Text, (∀ t, escape? (p.1 :: t) = some (.text w, 1)) ∧
        w.units = [p.2] := by
      simp only [controls, List.forall_mem_cons]
      exact ⟨⟨_, fun _ => rfl, rfl⟩, ⟨_, fun _ => rfl, rfl⟩, ⟨_, fun _ => rfl, rfl⟩,
        ⟨_, fun _ => rfl, rfl⟩, ⟨_, fun _ => rfl, rfl⟩, ⟨_, fun _ => rfl, rfl⟩, nofun⟩
    obtain ⟨w, hw, hunits⟩ := hcontrol _ hc
    have h := exists_cook_escape (r := [c]) ih (hw t) rfl
    rwa [hunits] at h
  | zero _ _ ih => exact exists_cook_escape (r := "0") (w := "\x00") ih rfl rfl
  | byte hlength hhex _ ih =>
    have hn := Text.lt_of_hexNumber? hhex
    rw [hlength] at hn
    exact exists_cook_unit ih (.byte hlength hhex) (Nat.lt_trans hn (by decide))
  | unit hlength hhex _ ih =>
    have hn := Text.lt_of_hexNumber? hhex
    rw [hlength] at hn
    exact exists_cook_unit ih (.unit hlength hhex) hn
  | @braced hex t c us hhex hne _ ih =>
    have hc : CodePoint.ofNat? c.toNat = some c := by
      obtain ⟨d, hd⟩ := CodePoint.exists_ofNat?.mpr c.toNat_lt
      rw [hd, CodePoint.toNat_injective (CodePoint.toNat_of_ofNat? hd)]
    have h := exists_cook_spelled ih (.braced hne hhex) hc
    rwa [List.cons_append, List.cons_append, List.append_assoc] at h
  | @itself c t us hline hc _ ih =>
    have h := exists_cook_escape (r := [c]) ih (escape?_itself t hline hc) rfl
    rwa [Text.units, List.flatMap_singleton] at h

/-- An escape names a number that no code point has. -/
def Escape.IsVoid (e : Escape) : Prop :=
  ∃ n ∈ e.number?, 0x110000 ≤ n

instance : DecidablePred Escape.IsVoid := fun e =>
  inferInstanceAs (Decidable (∃ _ ∈ e.number?, _))

def IsUnescaped (body : Text) : Prop :=
  ∀ e ∈ Text.findAll matchEscape body, e.IsVoid

instance : DecidablePred IsUnescaped := fun _ =>
  inferInstanceAs (Decidable (∀ _ ∈ _, _))

private theorem ink_cons (c : CodePoint) (t : Text) :
    Text.ink (c :: t) = Text.ink [c] + t.ink :=
  Text.ink_append [c] t

private theorem ink_simpleEscape (c : CodePoint) : (simpleEscape c).ink ≤ Text.ink [c] := by
  unfold simpleEscape
  split <;> first | decide | exact Nat.le_refl _

/-- A number of a code point stands for less than it is spelled with, and another one for its
spelling. -/
private theorem cook_number_cases {n : Nat} {c : CodePoint} {t w : Text} (hc : Text.ink [c] = 1)
    (hw : (Escape.number n).cook (.scalar '\\' :: c :: t) = .ok w) :
    (Escape.number n).IsVoid ∧ w = .scalar '\\' :: c :: t ∨
      ¬ (Escape.number n).IsVoid ∧ w.ink < Text.ink (.scalar '\\' :: c :: t) := by
  have hvoid : (Escape.number n).IsVoid ↔ 0x110000 ≤ n := by
    simp [Escape.IsVoid, Escape.number?]
  have hslash : Text.ink [.scalar '\\'] = 1 := by decide
  have hlong : 2 ≤ Text.ink (.scalar '\\' :: c :: t) := by
    rw [ink_cons, ink_cons c]
    omega
  rw [hvoid]
  rw [Escape.cook] at hw
  split at hw
  · rename_i d hd
    have hone : Text.ink [d] ≤ 1 := List.countP_le_length
    have := CodePoint.exists_ofNat?.mp ⟨d, hd⟩
    obtain rfl := Except.ok.inj hw
    exact .inr ⟨by omega, by omega⟩
  · rename_i hnone
    split at hw
    · refine .inl ⟨Nat.not_lt.mp fun hn => ?_, (Except.ok.inj hw).symm⟩
      obtain ⟨d, hd⟩ := CodePoint.exists_ofNat?.mpr hn
      rw [hnone] at hd
      cases hd
    · cases hw

private theorem cook_spelling_cases {r w : Text} {e : Escape} (h : Spelling r e)
    (hw : e.cook (.scalar '\\' :: r) = .ok w) :
    e.IsVoid ∧ w = .scalar '\\' :: r ∨ ¬ e.IsVoid ∧ w.ink < Text.ink (.scalar '\\' :: r) := by
  have htext (t : Text) : ¬ (Escape.text t).IsVoid := by
    rintro ⟨n, hn, -⟩
    cases hn
  cases h with
  | braced hne hhex => exact cook_number_cases (by decide) hw
  | unit hlength hhex => exact cook_number_cases (by decide) hw
  | byte hlength hhex => exact cook_number_cases (by decide) hw
  | lineEnd =>
    obtain rfl := Except.ok.inj hw
    exact .inr ⟨htext _, by decide⟩
  | single c =>
    obtain rfl := Except.ok.inj hw
    have hslash : Text.ink [.scalar '\\'] = 1 := by decide
    have := ink_simpleEscape c
    refine .inr ⟨htext _, ?_⟩
    rw [ink_cons]
    omega

/-- The parts of a body stand for as much as they hold, or for less. -/
private theorem cook_cases {body v : Text} (h : cook body = .ok v) :
    IsUnescaped body ∧ v = body ∨ ¬ IsUnescaped body ∧ v.ink < body.ink := by
  obtain ⟨vs, hvs, rfl⟩ := cook_eq_ok.mp h
  have hpart (p : Part Escape) (hp : p ∈ Text.parts matchEscape body) (w : Text)
      (hw : cookPart p = .ok w) :
      (∀ e ∈ p.found?, e.IsVoid) ∧ w = p.text ∨
        ¬ (∀ e ∈ p.found?, e.IsVoid) ∧ w.ink < p.text.ink := by
    cases p with
    | plain c =>
      obtain rfl := Except.ok.inj hw
      exact .inl ⟨fun e he => absurd he (Option.not_mem_none e), rfl⟩
    | found e spelling =>
      obtain ⟨_, c, after, n, -, hm, rfl⟩ := Text.of_mem_parts hp
      rw [matchEscape] at hm
      split at hm
      · rename_i hc
        subst hc
        obtain ⟨r, rest, rfl, rfl, hr⟩ := spelling_of_escape? hm
        rw [List.take_left] at hw ⊢
        simpa [Part.found?, Part.text] using cook_spelling_cases hr hw
      · cases hm
  have hbody := Text.flatten_parts matchEscape body
  rw [IsUnescaped, Text.findAll]
  generalize Text.parts matchEscape body = ps at hvs hpart hbody ⊢
  subst hbody
  clear h
  induction hvs with
  | nil => exact .inl ⟨List.forall_mem_nil _, rfl⟩
  | @cons p w ps vs hw _ ih =>
    have hfirst := hpart p (List.mem_cons_self ..) w hw
    have hrest := ih fun q hq => hpart q (List.mem_cons_of_mem p hq)
    have hall : (∀ e ∈ (p :: ps).filterMap Part.found?, e.IsVoid) ↔
        (∀ e ∈ p.found?, e.IsVoid) ∧ ∀ e ∈ ps.filterMap Part.found?, e.IsVoid := by
      rw [List.filterMap_cons]
      cases p.found? with
      | none => simp
      | some e => simp
    rw [hall, List.flatten_cons, List.flatMap_cons, Text.ink_append, Text.ink_append]
    rcases hfirst with ⟨hp, rfl⟩ | ⟨hp, hlt⟩
    · rcases hrest with ⟨hps, heq⟩ | ⟨hps, hlt⟩
      · exact .inl ⟨⟨hp, hps⟩, by rw [heq]⟩
      · exact .inr ⟨fun h => hps h.2, by omega⟩
    · refine .inr ⟨fun h => hp h.1, ?_⟩
      rcases hrest with ⟨-, heq⟩ | ⟨-, hlt'⟩
      · rw [heq]
        omega
      · omega

/-- A body and its value agree apart from white space at the ends exactly if no escape stands for
anything. -/
theorem trim_cook_iff {body v : Text} (h : cook body = .ok v) :
    Text.trim v = Text.trim body ↔ IsUnescaped body := by
  rcases cook_cases h with ⟨hplain, rfl⟩ | ⟨hescaped, hlt⟩
  · exact iff_of_true rfl hplain
  · refine iff_of_false (fun htrim => ?_) hescaped
    rw [← Text.ink_trim v, ← Text.ink_trim body, htrim] at hlt
    exact Nat.lt_irrefl _ hlt

end Literal
end LocaleLift
