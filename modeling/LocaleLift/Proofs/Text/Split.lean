import LocaleLift.Text
import Mathlib.Data.List.Basic

/-! Dividing a text at a separator, and joining texts with one. -/
namespace LocaleLift.Text

theorem splitOn_eq (c : CodePoint) (t : Text) : splitOn c t = List.splitOn c t := by
  induction t with
  | nil => rfl
  | cons d t ih =>
    rw [splitOn, ih, List.splitOn_cons_eq_if_modifyHead]
    by_cases h : d = c
    · simp [h]
    · cases hpieces : List.splitOn c t with
      | nil => exact absurd hpieces (List.splitOn_ne_nil c t)
      | cons piece rest => simp [h]

theorem splitOn_of_not_mem {c : CodePoint} {t : Text} (h : c ∉ t) : splitOn c t = [t] := by
  rw [splitOn_eq, List.splitOn_eq_singleton h]

theorem splitOn_append_cons (c : CodePoint) (s t : Text) :
    splitOn c (s ++ c :: t) = splitOn c s ++ splitOn c t := by
  simp only [splitOn_eq, List.splitOn_append_cons_self]

theorem splitOn_ne_nil (c : CodePoint) (t : Text) : splitOn c t ≠ [] := by
  rw [splitOn_eq]
  exact List.splitOn_ne_nil c t

/-- What stands between separators is found again. -/
theorem splitOn_join {c : CodePoint} {ts : List Text} (h : ∀ t ∈ ts, c ∉ t) (hne : ts ≠ []) :
    splitOn c (join [c] ts) = ts := by
  rw [splitOn_eq, join, List.splitOn_intercalate c h hne]

theorem join_cons (separator t : Text) {ts : List Text} (h : ts ≠ []) :
    join separator (t :: ts) = t ++ (separator ++ join separator ts) := by
  rw [join, List.intercalate_cons_of_ne_nil h, List.append_assoc]
  rfl

theorem mem_join {c : CodePoint} {separator : Text} {ts : List Text}
    (h : c ∈ join separator ts) : c ∈ separator ∨ ∃ t ∈ ts, c ∈ t := by
  induction ts with
  | nil => simp [join] at h
  | cons t ts ih =>
    by_cases hnil : ts = []
    · subst hnil
      exact .inr ⟨t, List.mem_cons_self, by simpa [join] using h⟩
    · rw [join_cons _ _ hnil, List.mem_append, List.mem_append] at h
      obtain h | h | h := h
      · exact .inr ⟨t, List.mem_cons_self, h⟩
      · exact .inl h
      · exact (ih h).imp_right fun ⟨u, hu, hc⟩ => ⟨u, List.mem_cons_of_mem _ hu, hc⟩

theorem cons_join (c : CodePoint) {ts : List Text} (h : ts ≠ []) :
    c :: join [c] ts = ts.flatMap (c :: ·) := by
  induction ts with
  | nil => exact absurd rfl h
  | cons t ts ih =>
    by_cases hnil : ts = []
    · simp [hnil, join]
    · rw [List.flatMap_cons, ← ih hnil, join_cons _ _ hnil]
      rfl

theorem flatMap_splitOn (c : CodePoint) (t : Text) : (splitOn c t).flatMap (c :: ·) = c :: t := by
  rw [← cons_join c (splitOn_ne_nil c t), splitOn_eq, join, List.intercalate_splitOn]

/-- A piece that is not the last one stands between two separators, the start of the text being one. -/
theorem mem_dropLast_splitOn {c : CodePoint} {piece : Text} (h : c ∉ piece) (t : Text) :
    piece ∈ (splitOn c t).dropLast ↔ c :: (piece ++ [c]) <:+: c :: t := by
  constructor
  · intro hmem
    obtain ⟨before, after, hsplit⟩ := List.append_of_mem hmem
    obtain ⟨last, hlast⟩ : ∃ last, splitOn c t = before ++ piece :: (after ++ [last]) := by
      refine ⟨(splitOn c t).getLast (splitOn_ne_nil c t), ?_⟩
      rw [← List.cons_append, ← List.append_assoc, ← hsplit, List.dropLast_append_getLast]
    have hnext : ∃ rest, (after ++ [last]).flatMap (c :: ·) = c :: rest := by
      cases after with
      | nil => exact ⟨_, rfl⟩
      | cons => exact ⟨_, rfl⟩
    obtain ⟨rest, hrest⟩ := hnext
    refine ⟨before.flatMap (c :: ·), rest, ?_⟩
    rw [← flatMap_splitOn c t, hlast, List.flatMap_append, List.flatMap_cons, hrest]
    simp
  · rintro ⟨before, after, heq⟩
    cases before with
    | nil =>
      obtain rfl : piece ++ c :: after = t := by simpa using heq
      rw [splitOn_append_cons, splitOn_of_not_mem h,
        List.dropLast_append_of_ne_nil (splitOn_ne_nil c after)]
      exact List.mem_append_left _ List.mem_cons_self
    | cons d before =>
      obtain ⟨rfl, rfl⟩ : d = c ∧ before ++ c :: (piece ++ c :: after) = t := by simpa using heq
      rw [splitOn_append_cons, splitOn_append_cons, splitOn_of_not_mem h, ← List.append_assoc,
        List.dropLast_append_of_ne_nil (splitOn_ne_nil d after)]
      simp

/-- Whether a list begins with another one shows in the texts that they are joined to. -/
theorem prefix_iff_join {c : CodePoint} {ts us : List Text} (hts : ∀ t ∈ ts, c ∉ t)
    (hus : ∀ t ∈ us, c ∉ t) (hne : ts ≠ []) (hne' : us ≠ []) :
    ts <+: us ↔ join [c] us = join [c] ts ∨ join [c] ts ++ [c] <+: join [c] us := by
  constructor
  · rintro ⟨rest, rfl⟩
    by_cases hrest : rest = []
    · exact .inl (by rw [hrest, List.append_nil])
    · refine .inr ⟨join [c] rest, ?_⟩
      have hjoin : c :: join [c] (ts ++ rest) = c :: join [c] ts ++ c :: join [c] rest := by
        rw [cons_join c hne', List.flatMap_append, cons_join c hne, cons_join c hrest]
      simpa using (List.cons.inj hjoin).2.symm
  · rintro (heq | ⟨rest, heq⟩)
    · obtain rfl : ts = us := by
        rw [← splitOn_join hts hne, ← splitOn_join hus hne', heq]
      exact List.prefix_rfl
    · refine ⟨splitOn c rest, ?_⟩
      rw [List.append_assoc, List.singleton_append] at heq
      rw [← splitOn_join hus hne', ← heq, splitOn_append_cons, splitOn_join hts hne]

end LocaleLift.Text
