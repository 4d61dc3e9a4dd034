import LocaleLift.Proofs.Component.Layout
import LocaleLift.Proofs.Ranges
import LocaleLift.Proofs.Text.Draft
import LocaleLift.Proofs.Text.Encodable

/-! Putting the localized contents of blocks back in their places. -/
namespace LocaleLift.Component

/-- Ranges that are not empty, lie inside a text of a given length, and stand apart. -/
structure Apart (length : Nat) (rs : List Replacement) : Prop where
  inside : ∀ r ∈ rs, r.start < r.stop ∧ r.stop ≤ length
  apart : rs.Pairwise fun r s => r.stop ≤ s.start ∨ s.stop ≤ r.start

/-- Replacing ranges by what stands in them changes nothing. -/
theorem splice_self {text : Text} {rs : List Replacement}
    (h : ∀ r ∈ rs, r.start ≤ r.stop ∧ r.text = (text.take r.stop).drop r.start) :
    splice text rs = text := by
  rw [splice]
  have hsorted (r : Replacement) (hr : r ∈ rs.mergeSort fun a b => b.start ≤ a.start) :=
    h r ((List.mergeSort_perm rs _).mem_iff.mp hr)
  revert hsorted
  generalize rs.mergeSort (fun a b => b.start ≤ a.start) = sorted
  intro hsorted
  induction sorted with
  | nil => rfl
  | cons r sorted ih =>
    obtain ⟨⟨hle, htext⟩, hrest⟩ := List.forall_mem_cons.mp hsorted
    have hstep : text.take r.start ++ r.text ++ text.drop r.stop = text := by
      have htake : text.take r.start = (text.take r.stop).take r.start := by
        rw [List.take_take, Nat.min_eq_left hle]
      rw [htext, htake, List.take_append_drop, List.take_append_drop]
    rw [List.foldl_cons, hstep]
    exact ih hrest

private def carryOut (text : Text) (rs : List Replacement) : Text :=
  rs.foldl (fun t r => t.take r.start ++ r.text ++ t.drop r.stop) text

/-- Each replacement lies before the ones carried out before it. -/
private def Descend (length : Nat) (rs : List Replacement) : Prop :=
  (∀ r ∈ rs, r.start < r.stop ∧ r.stop ≤ length) ∧ rs.Pairwise fun r s => s.stop ≤ r.start

private theorem descend_mergeSort {length : Nat} {rs : List Replacement} (h : Apart length rs) :
    Descend length (rs.mergeSort fun a b => b.start ≤ a.start) := by
  have hperm := List.mergeSort_perm rs fun a b => b.start ≤ a.start
  refine ⟨fun r hr => h.inside r (hperm.mem_iff.mp hr), ?_⟩
  exact pairwise_mergeSort_of_apart (fun _ _ => decide_eq_true_iff)
    (fun r hr => (h.inside r hr).1) h.apart

private theorem Descend.tail {length : Nat} {r : Replacement} {rs : List Replacement}
    (h : Descend length (r :: rs)) : Descend r.start rs := by
  obtain ⟨hinside, hdown⟩ := h
  obtain ⟨hr, hrs⟩ := List.pairwise_cons.mp hdown
  exact ⟨fun s hs => ⟨(hinside s (List.mem_cons_of_mem r hs)).1, hr s hs⟩, hrs⟩

/-- What stands behind all ranges is left alone. -/
private theorem carryOut_append {head tail : Text} {rs : List Replacement}
    (h : Descend head.length rs) : carryOut (head ++ tail) rs = carryOut head rs ++ tail := by
  induction rs generalizing head tail with
  | nil => rfl
  | cons r rs ih =>
    obtain ⟨hlt, hle⟩ := h.1 r (List.mem_cons_self ..)
    have htake : (head.take r.start).length = r.start := by
      rw [List.length_take]
      omega
    have hrest : Descend (head.take r.start).length rs := htake.symm ▸ h.tail
    have hstep : (head ++ tail).take r.start ++ r.text ++ (head ++ tail).drop r.stop =
        head.take r.start ++ (r.text ++ head.drop r.stop ++ tail) := by
      rw [List.take_append_of_le_length (by omega), List.drop_append_of_le_length hle]
      simp only [List.append_assoc]
    rw [carryOut, List.foldl_cons, hstep, ← carryOut, ih hrest, carryOut, carryOut,
      List.foldl_cons, List.append_assoc (head.take r.start), ← carryOut, ← carryOut, ih hrest]
    simp only [List.append_assoc]

private theorem carryOut_cons {text : Text} {r : Replacement} {rs : List Replacement}
    (h : Descend text.length (r :: rs)) :
    carryOut text (r :: rs) = carryOut (text.take r.start) rs ++ (r.text ++ text.drop r.stop) := by
  obtain ⟨hlt, hle⟩ := h.1 r (List.mem_cons_self ..)
  have htake : (text.take r.start).length = r.start := by
    rw [List.length_take]
    omega
  rw [carryOut, List.foldl_cons, List.append_assoc, ← carryOut,
    carryOut_append (htake.symm ▸ h.tail)]

/-- A component can be encoded after replacements exactly if the new texts can. -/
theorem isEncodable_splice {text : Text} {rs : List Replacement} (h : Apart text.length rs)
    (htext : text.isEncodable = true) :
    (splice text rs).isEncodable = true ↔ ∀ r ∈ rs, r.text.isEncodable = true := by
  have hcarry (rs : List Replacement) (text : Text) (h : Descend text.length rs)
      (htext : text.isEncodable = true) :
      (carryOut text rs).isEncodable = true ↔ ∀ r ∈ rs, r.text.isEncodable = true := by
    induction rs generalizing text with
    | nil => exact iff_of_true htext (List.forall_mem_nil _)
    | cons r rs ih =>
      have hlen : (text.take r.start).length = r.start := by
        obtain ⟨hlt, hle⟩ := h.1 r (List.mem_cons_self ..)
        rw [List.length_take]
        omega
      have htake := Text.isEncodable_of_subset (List.take_subset r.start text) htext
      have hdrop := Text.isEncodable_of_subset (List.drop_subset r.stop text) htext
      rw [carryOut_cons h, Text.isEncodable_append, Text.isEncodable_append, hdrop, Bool.and_true,
        Bool.and_eq_true, ih _ (hlen.symm ▸ h.tail) htake, List.forall_mem_cons]
      exact and_comm
  rw [show splice text rs = carryOut text _ from rfl, hcarry _ text (descend_mergeSort h) htext]
  have hperm := List.mergeSort_perm rs fun a b => b.start ≤ a.start
  exact ⟨fun h r hr => h r (hperm.mem_iff.mpr hr), fun h r hr => h r (hperm.mem_iff.mp hr)⟩

def Replacement.ofSwap (s : Swap) : Replacement :=
  ⟨s.before.length, (s.before ++ s.old).length, s.new⟩

private theorem carryOut_swaps (draft : Draft) (before : Text) :
    carryOut (before ++ draft.old) ((draft.swapsFrom before).map .ofSwap).reverse =
      before ++ draft.new := by
  induction draft generalizing before with
  | nil => simp [carryOut, Draft.swapsFrom]
  | cons stretch draft ih =>
    cases stretch with
    | kept c => simpa [Stretch.old, Stretch.new, Draft.swapsFrom] using ih (before ++ [c])
    | swapped old new =>
      have hrest := ih (before ++ old)
      rw [carryOut] at hrest
      rw [Draft.old_cons, Draft.new_cons, Draft.swapsFrom, List.map_cons, List.reverse_cons,
        carryOut, List.foldl_append, Stretch.old, Stretch.new, ← List.append_assoc, hrest]
      simp [Replacement.ofSwap, List.drop_append]

/-- Carrying out the swaps of a draft, in whatever order they are given, turns its old text into the
new one. -/
theorem splice_swaps {draft : Draft} {rs : List Replacement}
    (hp : rs.Perm (draft.swaps.map .ofSwap)) (hne : ∀ s ∈ draft.swaps, s.old ≠ []) :
    splice draft.old rs = draft.new := by
  have hlt : ∀ r ∈ rs, r.start < r.stop := by
    intro r hr
    obtain ⟨s, hs, rfl⟩ := List.mem_map.mp (hp.mem_iff.mp hr)
    have := List.length_pos_iff.mpr (hne s hs)
    simp only [Replacement.ofSwap, List.length_append]
    omega
  have hup : (draft.swaps.map Replacement.ofSwap).Pairwise fun r s => r.stop ≤ s.start :=
    List.pairwise_map.mpr ((draft.pairwise_swapsFrom []).imp fun h => h.length_le)
  have hdown : (rs.mergeSort fun a b => b.start ≤ a.start).Pairwise fun r s =>
      s.stop ≤ r.start :=
    pairwise_mergeSort_of_apart (fun _ _ => decide_eq_true_iff) hlt
      ((hup.imp fun h => Or.inl h).perm hp.symm Or.symm)
  have hsorted : rs.mergeSort (fun a b => b.start ≤ a.start) =
      (draft.swaps.map Replacement.ofSwap).reverse := by
    refine List.Perm.eq_of_pairwise (fun r s hr hs hrs hsr => ?_) hdown
      (List.pairwise_reverse.mpr hup)
      ((List.mergeSort_perm rs _).trans (hp.trans (List.reverse_perm _).symm))
    have := hlt r ((List.mergeSort_perm rs _).mem_iff.mp hr)
    have := hlt s (hp.mem_iff.mpr (List.mem_reverse.mp hs))
    omega
  rw [splice, hsorted]
  exact carryOut_swaps draft []

/-- Ranges that stand apart in a text are the swaps of a draft of it. -/
theorem exists_draft {text : Text} {rs : List Replacement} (h : Apart text.length rs) :
    ∃ draft : Draft, draft.old = text ∧ rs.Perm (draft.swaps.map .ofSwap) := by
  have hdown (rs : List Replacement) (text : Text) (h : Descend text.length rs) :
      ∃ draft : Draft, draft.old = text ∧ rs.Perm (draft.swaps.map .ofSwap) := by
    induction rs generalizing text with
    | nil => exact ⟨Draft.keep text, by simp [Draft.swaps]⟩
    | cons r rs ih =>
      obtain ⟨hlt, hle⟩ := h.1 r (List.mem_cons_self ..)
      have hlen : (text.take r.start).length = r.start := by
        rw [List.length_take]
        omega
      obtain ⟨draft, hold, hswaps⟩ := ih (text.take r.start) (hlen.symm ▸ h.tail)
      have hstop : ((text.drop r.start).take (r.stop - r.start)).length = r.stop - r.start := by
        rw [List.length_take, List.length_drop]
        omega
      refine ⟨draft ++ .swapped ((text.drop r.start).take (r.stop - r.start)) r.text ::
        Draft.keep (text.drop r.stop), ?_, ?_⟩
      · rw [Draft.old_append, Draft.old_cons, Draft.old_keep, hold, Stretch.old]
        have hrest : text.drop r.stop = (text.drop r.start).drop (r.stop - r.start) := by
          rw [List.drop_drop]
          congr 1
          omega
        rw [hrest, List.take_append_drop, List.take_append_drop]
      · have hr : Replacement.ofSwap ⟨text.take r.start,
            (text.drop r.start).take (r.stop - r.start), r.text⟩ = r := by
          simp only [Replacement.ofSwap, List.length_append, hlen, hstop]
          rw [Nat.add_sub_cancel' (Nat.le_of_lt hlt)]
        rw [Draft.swaps, Draft.swapsFrom_append, Draft.swapsFrom, Draft.swapsFrom_keep,
          List.nil_append, hold, List.map_append, List.map_singleton, hr]
        exact (List.perm_cons r |>.mpr hswaps).trans (List.perm_append_singleton r _).symm
  have hperm := List.mergeSort_perm rs fun a b => b.start ≤ a.start
  obtain ⟨draft, hold, hswaps⟩ := hdown _ text (descend_mergeSort h)
  exact ⟨draft, hold, hperm.symm.trans hswaps⟩

end LocaleLift.Component
