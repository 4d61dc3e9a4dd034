import LocaleLift.Proofs.Edit.Spread

/-! Edits that stand apart can be carried out on any bytes: what is around their ranges stays as it
is and in order. -/
namespace LocaleLift.Edit

/-- The bytes from an offset on with the texts of edits, given from left to right, in the place of
their ranges. There are none if a text cannot be encoded. -/
def weave (bytes : List UInt8) (offset : Nat) : List Edit → Option (List UInt8)
  | [] => some (bytes.drop offset)
  | e :: es => do
    let new ← Utf8.encode e.text
    let rest ← weave bytes e.stop.toNat es
    return (bytes.take e.start.toNat).drop offset ++ new ++ rest

section Weave

variable {bytes : List UInt8} {e : Edit} {x y offset : Nat} {fs : List Edit}

private theorem weave_concat_none (hnew : Utf8.encode e.text = none) :
    weave bytes offset (fs ++ [e]) = none := by
  induction fs generalizing offset with
  | nil => simp [weave, hnew]
  | cons f fs ih => simp [weave, ih]

/-- The last edit can be carried out first. -/
private theorem weave_concat {new : List UInt8} (hx : e.start = x) (hy : e.stop = y)
    (hlength : x ≤ bytes.length) (hnew : Utf8.encode e.text = some new)
    (hfs : ∀ f ∈ fs, f.start ≤ e.start ∧ f.stop ≤ e.start) (hoffset : offset ≤ x) :
    weave bytes offset (fs ++ [e]) =
      weave (bytes.take x ++ new ++ bytes.drop y) offset fs := by
  have htake : (bytes.take x).length = x := List.length_take_of_le hlength
  induction fs generalizing offset with
  | nil =>
    have hdrop : (bytes.take x ++ (new ++ bytes.drop y)).drop offset =
        (bytes.take x).drop offset ++ (new ++ bytes.drop y) :=
      List.drop_append_of_le_length (by omega)
    simp [weave, hx, hy, hnew, hdrop]
  | cons f fs ih =>
    obtain ⟨⟨hstart, hstop⟩, hrest⟩ := List.forall_mem_cons.mp hfs
    have hhead : (bytes.take x ++ new ++ bytes.drop y).take f.start.toNat =
        bytes.take f.start.toNat := by
      rw [List.append_assoc, List.take_append_of_le_length (by omega), List.take_take,
        Nat.min_eq_left (by omega)]
    rw [List.cons_append, weave, weave, hhead, ih hrest (by omega)]

end Weave

/-- Edits in order from the last to the first come to what is woven from the first to the last. -/
theorem applyDown_eq_weave {bytes : List UInt8} {bound : Int} {es : List Edit}
    (hin : ∀ e ∈ es, ∃ x y : Nat, e.start = x ∧ e.stop = y ∧ x ≤ y ∧ y ≤ bytes.length)
    (hbound : ∀ e ∈ es, e.stop ≤ bound) (hdown : es.Pairwise fun e f => f.stop ≤ e.start) :
    applyDown bytes bound es = (weave bytes 0 es.reverse).elim (.error .notEncodable) .ok := by
  induction es generalizing bytes bound with
  | nil => rfl
  | cons e es ih =>
    obtain ⟨x, y, hx, hy, hxy, hlength⟩ := hin e (List.mem_cons_self ..)
    obtain ⟨hbefore, hdown⟩ := List.pairwise_cons.mp hdown
    have hle : ¬ e.stop > bound := by
      have := hbound e (List.mem_cons_self ..)
      omega
    have hinside (f : Edit) (hf : f ∈ es) :
        ∃ u v : Nat, f.start = u ∧ f.stop = v ∧ u ≤ v ∧ v ≤ x := by
      obtain ⟨u, v, hu, hv, huv, -⟩ := hin f (List.mem_cons_of_mem e hf)
      have := hbefore f hf
      exact ⟨u, v, hu, hv, huv, by omega⟩
    rw [applyDown, if_neg hle, apply, List.reverse_cons]
    cases hnew : Utf8.encode e.text with
    | none => rw [weave_concat_none hnew]; rfl
    | some new =>
      rw [hx, hy, place_ofNat (hxy.trans hlength), place_ofNat hlength]
      have hleft (f : Edit) (hf : f ∈ es.reverse) : f.start ≤ e.start ∧ f.stop ≤ e.start := by
        obtain ⟨u, v, hu, hv, huv, hvx⟩ := hinside f (List.mem_reverse.mp hf)
        omega
      rw [weave_concat hx hy (hxy.trans hlength) hnew hleft (Nat.zero_le x)]
      refine ih (fun f hf => ?_) (fun f hf => ?_) hdown
      · obtain ⟨u, v, hu, hv, huv, hvx⟩ := hinside f hf
        refine ⟨u, v, hu, hv, huv, ?_⟩
        simp only [List.length_append, List.length_take]
        omega
      · have := hbefore f hf
        omega

namespace Spread

variable {place : Nat → Prop} {a b : Nat} {es fs : List Edit}

/-- Edits apart from each other can be put in order from left to right. -/
theorem exists_ordered (h : Spread place a b es) :
    ∃ fs : List Edit, fs.Perm es ∧ fs.Pairwise fun e f => e.stop ≤ f.start :=
  ⟨(es.mergeSort fun e f => f.start ≤ e.start).reverse,
    (List.reverse_perm _).trans (List.mergeSort_perm ..),
    List.pairwise_reverse.mpr h.pairwise_mergeSort⟩

private theorem eq_of_ordered {gs : List Edit} (h : Spread place a b es) (hf : fs.Perm es)
    (hg : gs.Perm es) (hfs : fs.Pairwise fun e f => e.stop ≤ f.start)
    (hgs : gs.Pairwise fun e f => e.stop ≤ f.start) : fs = gs := by
  refine (hf.trans hg.symm).eq_of_pairwise (fun e f he hf' hef hfe => ?_) hfs hgs
  obtain ⟨x, y, hx, hy, -, -, -, hxy, -⟩ := h.inside e (hf.mem_iff.mp he)
  obtain ⟨u, v, hu, hv, -, -, -, huv, -⟩ := h.inside f (hg.mem_iff.mp hf')
  omega

/-- Edits apart from each other inside some bytes never overlap: in whatever order they are given,
they come to the bytes with their texts woven in from left to right, unless one of these cannot be
encoded. -/
theorem applyAll (h : Spread place a b es) {bytes : List UInt8} (hb : b ≤ bytes.length)
    (hp : fs.Perm es) (hfs : fs.Pairwise fun e f => e.stop ≤ f.start) :
    applyAll bytes es = (weave bytes 0 fs).elim (.error .notEncodable) .ok := by
  have hperm := List.mergeSort_perm es fun e f => f.start ≤ e.start
  have hinside (e : Edit) (he : e ∈ es.mergeSort fun e f => f.start ≤ e.start) :
      ∃ x y : Nat, e.start = x ∧ e.stop = y ∧ x ≤ y ∧ y ≤ bytes.length := by
    obtain ⟨x, y, hx, hy, -, -, -, hxy, hyb⟩ := h.inside e (hperm.mem_iff.mp he)
    exact ⟨x, y, hx, hy, by omega, by omega⟩
  have hsame : (es.mergeSort fun e f => f.start ≤ e.start).reverse = fs :=
    h.eq_of_ordered ((List.reverse_perm _).trans hperm) hp
      (List.pairwise_reverse.mpr h.pairwise_mergeSort) hfs
  rw [Edit.applyAll, applyDown_eq_weave hinside (fun e he => ?_) h.pairwise_mergeSort, hsame]
  obtain ⟨x, y, hx, hy, -, hyb⟩ := hinside e he
  omega

end Spread

/-- Edits of ranges between two offsets of some bytes, none empty and each apart from the others.
They never overlap, and the bytes around their ranges are kept as they are and in order: what comes
of them is woven from left to right. -/
structure Disjoint (bytes : List UInt8) (a b : Nat) (es : List Edit) : Prop where
  spread : Spread (fun _ => True) a b es
  notOverlap : ∀ start, applyAll bytes es ≠ .error (.overlap start)
  woven : ∃ fs : List Edit, fs.Perm es ∧ fs.Pairwise (fun e f => e.stop ≤ f.start) ∧
    applyAll bytes es = (weave bytes 0 fs).elim (.error .notEncodable) .ok

theorem Spread.disjoint {bytes : List UInt8} {a b : Nat} {es : List Edit}
    (h : Spread (fun _ => True) a b es) (hb : b ≤ bytes.length) : Disjoint bytes a b es := by
  obtain ⟨fs, hp, hfs⟩ := h.exists_ordered
  have hwoven := h.applyAll hb hp hfs
  refine ⟨h, fun start hstart => ?_, fs, hp, hfs, hwoven⟩
  rw [hwoven] at hstart
  cases hw : weave bytes 0 fs with
  | none => rw [hw] at hstart; cases hstart
  | some out => rw [hw] at hstart; cases hstart

end LocaleLift.Edit
