import LocaleLift.Text.Han
import LocaleLift.Text.Space

/-! Texts that are worth filing: Chinese stands in them, and no white space around them. -/
namespace LocaleLift

namespace CodePoint

theorem isSpace_of_isHan {c : CodePoint} (h : c.isHan = true) : c.isSpace = false := by
  simp only [isHan, inRange, Bool.and_eq_true, decide_eq_true_eq] at h
  simp only [isSpace, inRange, Bool.or_eq_false_iff, Bool.and_eq_false_iff,
    decide_eq_false_iff_not, beq_eq_false_iff_ne]
  omega

theorem isHan_of_isSpace {c : CodePoint} (h : c.isSpace = true) : c.isHan = false := by
  cases hhan : c.isHan with
  | false => rfl
  | true =>
    rw [isSpace_of_isHan hhan] at h
    cases h

end CodePoint

namespace Text

theorem hasHan_eq_false {t : Text} : t.hasHan = false ↔ ∀ c ∈ t, c.isHan = false := by
  simp [hasHan]

/-- Trimming takes no Chinese away. -/
@[simp] theorem hasHan_trim (t : Text) : hasHan (trim t) = hasHan t := by
  have h : hasHan (trim t) = false ↔ hasHan t = false := by
    rw [hasHan_eq_false, hasHan_eq_false]
    exact forall_mem_trim fun _ => CodePoint.isHan_of_isSpace
  cases ht : hasHan t with
  | false => exact h.mpr ht
  | true => simpa [ht] using h

/-- A text that may be filed. -/
structure IsEntry (t : Text) : Prop where
  han : hasHan t = true
  trimmed : trim t = t

instance : DecidablePred IsEntry := fun t =>
  decidable_of_iff (hasHan t = true ∧ trim t = t) ⟨fun ⟨h, h'⟩ => ⟨h, h'⟩, fun h => ⟨h.1, h.2⟩⟩

theorem isEntry_trim {t : Text} (h : hasHan t = true) : IsEntry (trim t) :=
  ⟨(hasHan_trim t).trans h, trim_trim t⟩

theorem IsRun.hasHan {style : RunStyle} {r : Text} (h : IsRun style r) : hasHan r = true := by
  obtain ⟨c, t, rfl, hc, -⟩ := h
  rw [Text.hasHan, List.any_cons, hc, Bool.true_or]

/-- A run of ideographs holds nothing to trim. -/
theorem IsRun.isEntry {r : Text} (h : IsRun .ideographs r) : IsEntry r := by
  refine ⟨h.hasHan, trim_eq_self ?_⟩
  obtain ⟨c, t, rfl, hc, ht⟩ := h
  exact List.forall_mem_cons.mpr
    ⟨CodePoint.isSpace_of_isHan hc, fun d hd => CodePoint.isSpace_of_isHan (ht d hd)⟩

theorem isRun_of_mem_runs {style : RunStyle} {t r : Text} (h : r ∈ runs style t) :
    IsRun style r := by
  obtain ⟨p, hp, hr⟩ := List.mem_filterMap.mp h
  cases p with
  | plain t => cases hr
  | run t =>
    cases hr
    exact isRun_of_mem_pieces hp

end Text
end LocaleLift
