import LocaleLift.Proofs.Literal.Spelling
import LocaleLift.Proofs.Literal.Verbatim

/-! Where a body may be cut in two: behind an even number of backslashes, and before a code point
at which no escape goes on. -/
namespace LocaleLift

namespace Text

def closingBackslashes (t : Text) : Nat :=
  (t.reverse.takeWhile (· == .scalar '\\')).length

/-- Whatever comes behind a text is not escaped by it: no backslash ends it, or each that does
belongs to a pair. -/
def EndsEven (t : Text) : Prop :=
  t.closingBackslashes % 2 = 0

instance : DecidablePred EndsEven := fun _ => inferInstanceAs (Decidable (_ = _))

private theorem closingBackslashes_cons (c : CodePoint) (t : Text) :
    closingBackslashes (c :: t) =
      if closingBackslashes t = t.length then t.length + if c = .scalar '\\' then 1 else 0
      else closingBackslashes t := by
  rw [closingBackslashes, List.reverse_cons, List.takeWhile_append, List.length_reverse]
  by_cases hall : closingBackslashes t = t.length
  · rw [if_pos hall]
    rw [closingBackslashes] at hall
    rw [if_pos hall]
    by_cases hc : c = .scalar '\\'
    · simp [hc]
    · simp [hc]
  · rw [if_neg hall]
    rw [closingBackslashes] at hall
    rw [if_neg hall]
    rfl

private theorem closingBackslashes_le (t : Text) : closingBackslashes t ≤ t.length := by
  have h := (List.takeWhile_prefix (l := t.reverse) (· == CodePoint.scalar '\\')).length_le
  rwa [List.length_reverse] at h

theorem endsEven_cons {c : CodePoint} (hc : c ≠ .scalar '\\') {t : Text} :
    EndsEven (c :: t) ↔ EndsEven t := by
  rw [EndsEven, EndsEven, closingBackslashes_cons, if_neg hc, Nat.add_zero]
  split
  · rename_i hall
    rw [hall]
  · rfl

/-- A backslash and what it takes leave the end as it is. -/
theorem endsEven_pair (c : CodePoint) (t : Text) :
    EndsEven (.scalar '\\' :: c :: t) ↔ EndsEven t := by
  have hle := closingBackslashes_le t
  rw [EndsEven, EndsEven, closingBackslashes_cons, closingBackslashes_cons, if_pos rfl,
    List.length_cons]
  by_cases hall : closingBackslashes t = t.length
  · rw [if_pos hall]
    by_cases hc : c = .scalar '\\'
    · rw [if_pos hc, if_pos rfl]
      omega
    · rw [if_neg hc, if_neg (by omega)]
      omega
  · rw [if_neg hall, if_neg (by omega)]

theorem endsEven_append {s : Text} (hs : .scalar '\\' ∉ s) (t : Text) :
    EndsEven (s ++ t) ↔ EndsEven t := by
  induction s with
  | nil => exact Iff.rfl
  | cons c s ih =>
    rw [List.mem_cons, not_or] at hs
    rw [List.cons_append, endsEven_cons (Ne.symm hs.1), ih hs.2]

/-- A backslash is dropped exactly where one is left over. -/
theorem dropOddBackslash_cases (t : Text) :
    EndsEven t ∧ dropOddBackslash t = t ∨
      ∃ s, t = s ++ [.scalar '\\'] ∧ EndsEven s ∧ dropOddBackslash t = s := by
  have hdrop : dropOddBackslash t = if closingBackslashes t % 2 = 1 then t.dropLast else t := rfl
  by_cases hodd : closingBackslashes t % 2 = 1
  · rw [if_pos hodd] at hdrop
    rcases dropOddBackslash_eq t with h | h
    · rw [h] at hdrop
      cases t with
      | nil => cases hodd
      | cons c t =>
        have := congrArg List.length hdrop
        rw [List.length_dropLast, List.length_cons] at this
        omega
    · refine .inr ⟨dropOddBackslash t, h, ?_, rfl⟩
      rw [h] at hodd
      simp only [closingBackslashes, List.reverse_append, List.reverse_singleton,
        List.singleton_append, List.takeWhile_cons, beq_self_eq_true, if_true,
        List.length_cons] at hodd
      rw [EndsEven, closingBackslashes]
      omega
  · rw [if_neg hodd] at hdrop
    refine .inl ⟨?_, hdrop⟩
    rw [EndsEven]
    omega

end Text

namespace Literal

open Text (EndsEven)

/-- A code point at which no escape goes on that has begun before it. -/
structure IsSeam (c : CodePoint) : Prop where
  digit : Text.hexDigit? c = none
  other : c ∉ ("\x7b\x7d\n" : Text)

theorem IsVerbatim.isSeam {c : CodePoint} (h : IsVerbatim c) : IsSeam c := by
  refine ⟨h.digit, fun hmem => ?_⟩
  have hcases : c = .scalar '\x7b' ∨ c = .scalar '\x7d' ∨ c = .scalar '\n' := by
    simpa [Text.ofString] using hmem
  rcases hcases with rfl | rfl | rfl
  · exact h.spelling (by decide)
  · exact h.spelling (by decide)
  · exact absurd h.itself (by decide)

theorem isSeam_backslash : IsSeam (.scalar '\\') :=
  ⟨by decide, by decide⟩

/-- Of what an escape takes only the first code point may be a backslash. -/
private theorem exists_of_spelling {r : Text} {e : Escape} (h : Spelling r e) :
    ∃ c w, r = c :: w ∧ .scalar '\\' ∉ w := by
  have hdigits {hex : Text} {n : Nat} (hhex : Text.hexNumber? hex = some n) :
      .scalar '\\' ∉ hex := Text.not_mem_of_hexNumber? hhex (by decide)
  cases h with
  | braced hne hhex =>
    refine ⟨_, _, rfl, fun hmem => ?_⟩
    rcases List.mem_cons.mp hmem with hopen | hmem
    · cases hopen
    rcases List.mem_append.mp hmem with hmem | hclose
    · exact hdigits hhex hmem
    · cases List.mem_singleton.mp hclose
  | unit hlength hhex => exact ⟨_, _, rfl, hdigits hhex⟩
  | byte hlength hhex => exact ⟨_, _, rfl, hdigits hhex⟩
  | lineEnd => exact ⟨_, _, rfl, by decide⟩
  | single c => exact ⟨c, [], rfl, by simp⟩

section Seam

variable {s u : Text} (hu : ∀ c ∈ u.head?, IsSeam c)

include hu

private theorem digits_append (k : Nat) (t : Text) : digits k (t ++ u) = digits k t := by
  by_cases hlength : t.length < k
  · have hnone : digits k t = none := by rw [digits, if_pos hlength]
    rw [hnone, digits]
    split
    · rfl
    · rename_i hlong
      cases u with
      | nil => exact absurd hlength (by simpa using hlong)
      | cons d u =>
        rw [← Option.not_isSome_iff_eq_none, Text.isSome_hexNumber?]
        intro hall
        have hd := hall d (by
          rw [List.take_append]
          refine List.mem_append_right _ ?_
          obtain ⟨m, hm⟩ : ∃ m, k - t.length = m + 1 := ⟨k - t.length - 1, by omega⟩
          rw [hm]
          exact List.mem_cons_self ..)
        rw [(hu d rfl).digit] at hd
        cases hd
  · rw [digits, digits, if_neg hlength, if_neg (by rw [List.length_append]; omega),
      List.take_append_of_le_length (Nat.le_of_not_lt hlength)]

private theorem takeWhile_append_seam (t : Text) :
    (t ++ u).takeWhile (fun c => (Text.hexDigit? c).isSome) =
      t.takeWhile (fun c => (Text.hexDigit? c).isSome) := by
  rw [List.takeWhile_append]
  split
  · rename_i hall
    have hnone : u.takeWhile (fun c => (Text.hexDigit? c).isSome) = [] := by
      cases u with
      | nil => rfl
      | cons d u => rw [List.takeWhile_cons_of_neg (by simp [(hu d rfl).digit])]
    have hwhole : t.takeWhile (fun c => (Text.hexDigit? c).isSome) = t :=
      List.Sublist.eq_of_length (List.takeWhile_sublist _) hall
    rw [hnone, List.append_nil, hwhole]
  · rfl

private theorem head?_drop_append (t : Text) {n : Nat} (h : n ≤ t.length) :
    ((t ++ u).drop n).head? = some (.scalar '\x7d') ↔
      (t.drop n).head? = some (.scalar '\x7d') := by
  rw [List.drop_append_of_le_length h]
  cases t.drop n with
  | nil =>
    refine iff_of_false (fun hhead => ?_) nofun
    exact (hu _ hhead).other (by decide)
  | cons c t => rfl

/-- Something found behind a backslash does not reach over a seam. -/
theorem escape?_append (hs : s ≠ []) : escape? (s ++ u) = escape? s := by
  cases s with
  | nil => exact absurd rfl hs
  | cons c t =>
    rw [List.cons_append]
    by_cases hunit : c = .scalar 'u'
    · subst hunit
      by_cases hbrace : t.head? = some (.scalar '\x7b')
      · obtain ⟨t, rfl⟩ := List.head?_eq_some_iff.mp hbrace
        have hclose := head?_drop_append hu t (List.takeWhile_sublist
          (fun c => (Text.hexDigit? c).isSome)).length_le
        rw [List.cons_append, escape?, escape?, takeWhile_append_seam hu]
        simp only [Bool.and_eq_true, beq_iff_eq, hclose]
      · have hopen (v : Text) (hv : v.head? ≠ some (.scalar '\x7b')) (w : Text)
            (hw : v = .scalar '\x7b' :: w) : False :=
          hv (hw ▸ rfl)
        have hopenu : (t ++ u).head? ≠ some (.scalar '\x7b') := by
          cases t with
          | nil => exact fun hhead => (hu _ hhead).other (by decide)
          | cons d t => exact hbrace
        rw [escape?.eq_3 _ (hopen _ hopenu), escape?.eq_3 _ (hopen _ hbrace), digits_append hu]
    by_cases hbyte : c = .scalar 'x'
    · subst hbyte
      rw [escape?, escape?, digits_append hu]
    by_cases hfeed : c = .scalar '\r' ∧ t.head? = some (.scalar '\n')
    · obtain ⟨rfl, hfeed⟩ := hfeed
      obtain ⟨t, rfl⟩ := List.head?_eq_some_iff.mp hfeed
      rfl
    have hfeedu : ∀ v, c = .scalar '\r' → t ++ u = .scalar '\n' :: v → False := by
      intro v hc hv
      cases t with
      | nil =>
        rw [List.nil_append] at hv
        exact (hu (.scalar '\n') (by rw [hv]; rfl)).other (by decide)
      | cons d t =>
        obtain rfl := (List.cons.inj hv).1
        exact hfeed ⟨hc, rfl⟩
    rw [escape?.eq_6 _ _ (fun _ hc _ => hunit hc) hunit hbyte hfeedu,
      escape?.eq_6 _ _ (fun _ hc _ => hunit hc) hunit hbyte
        fun v hc hv => hfeed ⟨hc, by rw [hv]; rfl⟩]

/-- What stands around a seam is cooked apart. -/
theorem cook_append (hs : EndsEven s) : cook (s ++ u) = do return (← cook s) ++ (← cook u) := by
  induction hlength : s.length using Nat.strongRecOn generalizing s with
  | ind _ ih =>
  subst hlength
  cases s with
  | nil => simp [cook_nil]
  | cons c t =>
    by_cases hslash : c = .scalar '\\'
    · subst hslash
      cases t with
      | nil => cases hs
      | cons d t =>
        obtain ⟨e, n, he⟩ := exists_escape? (List.cons_ne_nil d t)
        obtain ⟨r, rest, hsplit, rfl, hspelling⟩ := spelling_of_escape? he
        obtain ⟨f, w, rfl, hw⟩ := exists_of_spelling hspelling
        have hbehind := escape?_append hu (List.cons_ne_nil d t)
        rw [he, hsplit, List.append_assoc] at hbehind
        rw [hsplit] at hs he ⊢
        have hrest : EndsEven rest := by
          rwa [List.cons_append, Text.endsEven_pair, Text.endsEven_append hw] at hs
        have hlt : rest.length < (.scalar '\\' :: d :: t : Text).length := by
          rw [hsplit]
          simp only [List.length_cons, List.length_append]
          omega
        rw [List.cons_append, List.append_assoc, cook_escape hbehind, cook_escape he,
          ih rest.length hlt hrest rfl]
        simp only [bind_assoc, pure_bind, List.append_assoc]
    · rw [List.cons_append, cook_cons hslash, cook_cons hslash,
        ih t.length (Nat.lt_succ_self _) ((Text.endsEven_cons hslash).mp hs) rfl]
      simp only [bind_assoc, pure_bind, List.cons_append]

end Seam

end Literal
end LocaleLift
