import Mathlib.Data.Int.Order.Lemmas
import Mathlib.Data.Nat.Basic
import Mathlib.Order.Lattice

/-! Ranges apart from each other, from the last to the first. -/
namespace LocaleLift

variable {α β : Type} [LinearOrder β]

theorem pairwise_start_mergeSort {start : α → β} {before : α → α → Bool}
    (hbefore : ∀ r s, before r s = true ↔ start s ≤ start r) (rs : List α) :
    (rs.mergeSort before).Pairwise fun r s => start s ≤ start r := by
  refine (List.pairwise_mergeSort (fun r s t hrs hst => ?_) (fun r s => ?_) rs).imp
    fun {r s} => (hbefore r s).mp
  · exact (hbefore r t).mpr (le_trans ((hbefore s t).mp hst) ((hbefore r s).mp hrs))
  · rw [Bool.or_eq_true, hbefore, hbefore]
    exact le_total _ _

/-- Sorted by their starts from the last to the first, ranges that are not empty and stand apart lie
each before the ones that come earlier. -/
theorem pairwise_mergeSort_of_apart {start stop : α → β} {before : α → α → Bool} {rs : List α}
    (hbefore : ∀ r s, before r s = true ↔ start s ≤ start r) (hlt : ∀ r ∈ rs, start r < stop r)
    (hapart : rs.Pairwise fun r s => stop r ≤ start s ∨ stop s ≤ start r) :
    (rs.mergeSort before).Pairwise fun r s => stop s ≤ start r := by
  have hperm := List.mergeSort_perm rs before
  have hdown := pairwise_start_mergeSort hbefore rs
  refine List.Pairwise.imp_of_mem ?_ (hdown.and (hapart.perm hperm.symm Or.symm))
  rintro r s hr - ⟨hdown, hstop | hstop⟩
  · have hstart := lt_of_lt_of_le (hlt r (hperm.mem_iff.mp hr)) hstop
    exact absurd hdown (not_le_of_gt hstart)
  · exact hstop

end LocaleLift
