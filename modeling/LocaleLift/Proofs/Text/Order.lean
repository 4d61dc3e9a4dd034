import LocaleLift.Text
import Mathlib.Data.List.Lex

/-! The order of texts by code point is total, and sorting forgets the order of its input. -/
namespace LocaleLift

theorem CodePoint.toNat_injective : Function.Injective CodePoint.toNat := by
  have hapart (c : Char) (i : Fin 0x800) : c.toNat ≠ 0xD800 + i.val := by
    have hc : c.toNat < 0xD800 ∨ 0xDFFF < c.toNat ∧ c.toNat < 0x110000 := c.valid
    omega
  intro a b h
  cases a with
  | scalar c =>
    cases b with
    | scalar d => exact congrArg CodePoint.scalar (Char.toNat_inj.mp h)
    | surrogate i => exact absurd h (hapart c i)
  | surrogate i =>
    cases b with
    | scalar d => exact absurd h.symm (hapart d i)
    | surrogate j =>
      have hij : 0xD800 + i.val = 0xD800 + j.val := h
      exact congrArg CodePoint.surrogate (Fin.ext (by omega))

namespace Text

/-- Texts are compared like the lists of the numbers of their code points. -/
theorem lt_iff (s t : Text) : lt s t = true ↔ s.map CodePoint.toNat < t.map CodePoint.toNat := by
  induction s generalizing t with
  | nil =>
    cases t with
    | nil => simp [lt]
    | cons b t => simp [lt]
  | cons a s ih =>
    cases t with
    | nil => simp [lt]
    | cons b t => simp [lt, ih, List.cons_lt_cons_iff]

theorem lt_irrefl (s : Text) : ¬ lt s s = true := by
  rw [lt_iff]
  exact List.lt_irrefl _

theorem lt_asymm {s t : Text} (hst : lt s t = true) : ¬ lt t s = true := by
  rw [lt_iff] at *
  exact List.lt_asymm hst

theorem le_iff (s t : Text) : le s t = true ↔ s.map CodePoint.toNat ≤ t.map CodePoint.toNat := by
  rw [← not_lt, ← lt_iff, le]
  simp

theorem le_total (s t : Text) : (le s t || le t s) = true := by
  rw [Bool.or_eq_true, le_iff, le_iff]
  exact LinearOrder.le_total _ _

theorem le_trans (s t u : Text) (hst : le s t = true) (htu : le t u = true) : le s u = true := by
  rw [le_iff] at *
  exact hst.trans htu

theorem le_antisymm {s t : Text} (hst : le s t = true) (hts : le t s = true) : s = t := by
  rw [le_iff] at *
  exact List.map_injective_iff.mpr CodePoint.toNat_injective (hst.antisymm hts)

theorem sort_perm (ts : List Text) : (sort ts).Perm ts :=
  List.mergeSort_perm ts le

theorem pairwise_sort (ts : List Text) : (sort ts).Pairwise fun s t => le s t = true :=
  List.pairwise_mergeSort le_trans le_total ts

/-- Sorting forgets in which order the texts came. -/
theorem sort_eq_of_perm {ts us : List Text} (h : ts.Perm us) : sort ts = sort us := by
  refine List.Perm.eq_of_pairwise (fun s t _ _ => le_antisymm) (pairwise_sort ts)
    (pairwise_sort us) ?_
  exact (sort_perm ts).trans (h.trans (sort_perm us).symm)

end Text
end LocaleLift
