import LocaleLift.Text.Parts
import Mathlib.Data.List.Infix

/-! The first occurrence of a pattern in a text. -/
namespace LocaleLift.Text

variable {pattern t before rest : Text}

theorem dropStart?_eq_none : dropStart? pattern t = none ↔ ¬ pattern <+: t := by
  rw [Option.eq_none_iff_forall_ne_some]
  constructor
  · rintro h ⟨rest, rfl⟩
    exact h rest (dropStart?_eq_some.mpr rfl)
  · exact fun h rest hrest => h ⟨rest, (dropStart?_eq_some.mp hrest).symm⟩

/-- A text is not split exactly if the pattern does not occur in it. -/
theorem splitAt?_eq_none : splitAt? pattern t = none ↔ ¬ pattern <:+: t := by
  induction t with
  | nil =>
    rw [splitAt?, List.infix_nil, ← List.isEmpty_iff]
    cases pattern.isEmpty <;> simp
  | cons c t ih =>
    rw [splitAt?, List.infix_cons_iff, not_or]
    cases hdrop : dropStart? pattern (c :: t) with
    | some rest =>
      refine iff_of_false (Option.some_ne_none _) fun h => ?_
      rw [dropStart?_eq_none.mpr h.1] at hdrop
      cases hdrop
    | none => rw [Option.map_eq_none_iff, ih, and_iff_right (dropStart?_eq_none.mp hdrop)]

private theorem append_dropLast_isPrefix (s pattern rest : Text) :
    s ++ pattern.dropLast <+: s ++ pattern ++ rest :=
  ((List.prefix_append_right_inj s).mpr (List.dropLast_prefix pattern)).trans
    (List.prefix_append _ rest)

/-- A text is split where the pattern does not occur earlier, not even one code point before. -/
theorem splitAt?_eq_some_iff (hne : pattern ≠ []) : splitAt? pattern t = some (before, rest) ↔
    t = before ++ pattern ++ rest ∧ ¬ pattern <:+: before ++ pattern.dropLast := by
  have hpos := List.length_pos_iff.mpr hne
  constructor
  · intro h
    refine ⟨splitAt?_eq_some h, ?_⟩
    induction t generalizing before with
    | nil =>
      rw [splitAt?, if_neg (by simpa using hne)] at h
      cases h
    | cons c t ih =>
      rw [splitAt?] at h
      cases hdrop : dropStart? pattern (c :: t) with
      | some rest' =>
        rw [hdrop] at h
        cases h
        intro hinfix
        have hle := hinfix.length_le
        rw [List.nil_append, List.length_dropLast] at hle
        omega
      | none =>
        rw [hdrop] at h
        obtain ⟨⟨before', rest'⟩, hsplit, h⟩ := Option.map_eq_some_iff.mp h
        cases h
        rw [List.cons_append, List.infix_cons_iff, not_or]
        refine ⟨fun hstart => dropStart?_eq_none.mp hdrop (hstart.trans ?_), ih hsplit⟩
        rw [splitAt?_eq_some hsplit]
        exact append_dropLast_isPrefix (c :: before') pattern rest
  · rintro ⟨rfl, h⟩
    induction before with
    | nil =>
      have hdrop := dropStart?_eq_some (t := pattern ++ rest).mpr rfl
      cases pattern with
      | nil => exact absurd rfl hne
      | cons d pattern =>
        rw [List.nil_append, List.cons_append, splitAt?, ← List.cons_append, hdrop]
    | cons c before ih =>
      rw [List.cons_append, List.infix_cons_iff, not_or] at h
      have hdrop : dropStart? pattern (c :: before ++ pattern ++ rest) = none := by
        refine dropStart?_eq_none.mpr fun hstart => h.1 ?_
        refine List.prefix_of_prefix_length_le hstart
          (append_dropLast_isPrefix (c :: before) pattern rest) ?_
        rw [List.length_cons, List.length_append, List.length_dropLast]
        omega
      rw [List.cons_append, List.cons_append] at hdrop
      rw [List.cons_append, List.cons_append, splitAt?, hdrop, ih h.2]
      rfl

/-- What follows the first occurrence of a pattern does not matter for it. -/
theorem splitAt?_append (hne : pattern ≠ []) (h : splitAt? pattern t = some (before, rest))
    (rest' : Text) : splitAt? pattern (before ++ pattern ++ rest') = some (before, rest') :=
  (splitAt?_eq_some_iff hne).mpr ⟨rfl, ((splitAt?_eq_some_iff hne).mp h).2⟩

end LocaleLift.Text
