import LocaleLift.Proofs.Edit.Weave
import Mathlib.Data.List.Pairwise

/-! Edits with different starts are carried out all at once: what comes of them does not depend on
their order, and none is refused unless it reaches into another. -/
namespace LocaleLift.Edit

/-- An edit reaches over the start of another one behind it. -/
def Overlaps (e f : Edit) : Prop :=
  e.start < f.start ∧ f.start < e.stop

instance (e f : Edit) : Decidable (e.Overlaps f) :=
  inferInstanceAs (Decidable (_ ∧ _))

def new (e : Edit) : List UInt8 :=
  (Utf8.encode e.text).getD []

def newAt (es : List Edit) (offset : Nat) : List UInt8 :=
  (es.filter fun e => e.start = (offset : Int)).flatMap new

def Covers (es : List Edit) (offset : Nat) : Prop :=
  ∃ e ∈ es, e.start ≤ offset ∧ offset < e.stop

instance (es : List Edit) (offset : Nat) : Decidable (Covers es offset) :=
  inferInstanceAs (Decidable (∃ e ∈ es, _ ∧ _))

/-- Bytes read from left to right, the first at an offset: what edits bring in stands where they
start, and a byte is kept unless it is in a range that is replaced. -/
def replace (es : List Edit) (offset : Nat) : List UInt8 → List UInt8
  | [] => newAt es offset
  | b :: bytes =>
    newAt es offset ++ (if Covers es offset then [] else [b]) ++ replace es (offset + 1) bytes

/-- Edits of ranges inside some bytes, with different starts and texts that can be encoded. -/
structure Placed (bytes : List UInt8) (es : List Edit) : Prop where
  inside : ∀ e ∈ es, 0 ≤ e.start ∧ e.start ≤ e.stop ∧ e.stop ≤ bytes.length
  starts : (es.map start).Nodup
  encodable : ∀ e ∈ es, e.text.isEncodable = true

section Replace

variable {bytes bs cs : List UInt8} {e : Edit} {es : List Edit} {offset : Nat}

private theorem newAt_of_lt (h : ∀ e ∈ es, (offset : Int) < e.start) : newAt es offset = [] := by
  rw [newAt, List.filter_eq_nil_iff.mpr, List.flatMap_nil]
  intro e he heq
  have := h e he
  have := of_decide_eq_true heq
  omega

private theorem newAt_cons :
    newAt (e :: es) offset = (if e.start = offset then e.new else []) ++ newAt es offset := by
  by_cases h : e.start = offset <;> simp [newAt, h]

private theorem covers_cons :
    Covers (e :: es) offset ↔ (e.start ≤ offset ∧ offset < e.stop) ∨ Covers es offset := by
  simp [Covers]

private theorem covers_passed (hstop : e.stop ≤ offset) :
    Covers (e :: es) offset ↔ Covers es offset :=
  covers_cons.trans (or_iff_right (by omega))

private theorem not_covers_of_lt (h : ∀ e ∈ es, (offset : Int) < e.start) : ¬ Covers es offset := by
  rintro ⟨e, he, hstart, -⟩
  have := h e he
  omega

/-- Bytes in front of all edits are kept. -/
private theorem replace_append (h : ∀ e ∈ es, (offset + bs.length : Int) ≤ e.start) :
    replace es offset (bs ++ cs) = bs ++ replace es (offset + bs.length) cs := by
  induction bs generalizing offset with
  | nil => rfl
  | cons b bs ih =>
    have hlt (e : Edit) (he : e ∈ es) : (offset : Int) < e.start := by
      have := h e he
      rw [List.length_cons] at this
      omega
    have hrest (e : Edit) (he : e ∈ es) : ((offset + 1 : Nat) + bs.length : Int) ≤ e.start := by
      have := h e he
      rw [List.length_cons] at this
      omega
    have hlength : offset + 1 + bs.length = offset + (b :: bs).length := by
      rw [List.length_cons]
      omega
    rw [List.cons_append, replace, newAt_of_lt hlt, if_neg (not_covers_of_lt hlt), ih hrest,
      hlength]
    rfl

private theorem replace_nil : replace [] offset bs = bs := by
  have h : replace [] offset (bs ++ []) = bs ++ replace [] (offset + bs.length) [] :=
    replace_append (List.forall_mem_nil _)
  simpa [replace, newAt] using h

/-- An edit that has been passed changes nothing any more. -/
private theorem replace_passed (hstart : e.start < offset) (hstop : e.stop ≤ offset) :
    replace (e :: es) offset bs = replace es offset bs := by
  induction bs generalizing offset with
  | nil => rw [replace, replace, newAt_cons, if_neg (by omega), List.nil_append]
  | cons b bs ih =>
    rw [replace, replace, newAt_cons, if_neg (by omega), List.nil_append, ih (by omega) (by omega)]
    simp only [covers_passed hstop]

/-- The rest of the range of an edit is left out. What the edit brings in stands there if the rest
is all of the range. -/
private theorem replace_range (hstart : e.start ≤ offset) (hstop : e.stop = offset + bs.length)
    (h : ∀ f ∈ es, e.stop ≤ f.start) :
    replace (e :: es) offset (bs ++ cs) =
      (if e.start = offset then e.new else []) ++ replace es (offset + bs.length) cs := by
  induction bs generalizing offset with
  | nil =>
    -- The range ends here, and if it is empty the edit starts here.
    rw [List.length_nil, Int.natCast_zero, Int.add_zero] at hstop
    cases cs with
    | nil => simp [replace, newAt_cons]
    | cons c cs =>
      have hrest : replace (e :: es) (offset + 1) cs = replace es (offset + 1) cs :=
        replace_passed (by omega) (by omega)
      simp [replace, newAt_cons, covers_passed (Int.le_of_eq hstop), hrest]
  | cons b bs ih =>
    rw [List.length_cons] at hstop
    have hlt (f : Edit) (hf : f ∈ es) : (offset : Int) < f.start := by
      have := h f hf
      omega
    have hcovers : Covers (e :: es) offset := covers_cons.mpr (.inl ⟨hstart, by omega⟩)
    have hlength : offset + 1 + bs.length = offset + (b :: bs).length := by
      rw [List.length_cons]
      omega
    rw [List.cons_append, replace, newAt_cons, newAt_of_lt hlt, if_pos hcovers,
      ih (by omega) (by omega), if_neg (show ¬ e.start = (offset + 1 : Nat) by omega), hlength]
    simp

private theorem drop_eq_append {x y : Nat} (hxy : x ≤ y) (hy : y ≤ bytes.length) :
    bytes.drop x = (bytes.take y).drop x ++ bytes.drop y := by
  have hx : x ≤ (bytes.take y).length := by
    rwa [List.length_take_of_le hy]
  rw [← List.drop_append_of_le_length hx, List.take_append_drop]

/-- Reading from left to right comes to what is woven, for edits in order. -/
private theorem weave_eq_replace
    (hin : ∀ e ∈ es, (offset : Int) ≤ e.start ∧ e.start ≤ e.stop ∧ e.stop ≤ bytes.length)
    (hencode : ∀ e ∈ es, e.text.isEncodable = true)
    (hup : es.Pairwise fun e f => e.stop ≤ f.start) :
    weave bytes offset es = some (replace es offset (bytes.drop offset)) := by
  induction es generalizing offset with
  | nil => rw [weave, replace_nil]
  | cons e es ih =>
    obtain ⟨hbehind, hup⟩ := List.pairwise_cons.mp hup
    obtain ⟨⟨hstart, hle, hstop⟩, hin⟩ := List.forall_mem_cons.mp hin
    obtain ⟨htext, hencode⟩ := List.forall_mem_cons.mp hencode
    obtain ⟨new, hnew⟩ := Utf8.exists_encode.mpr htext
    obtain ⟨x, hx⟩ := Int.eq_ofNat_of_zero_le (show 0 ≤ e.start by omega)
    obtain ⟨y, hy⟩ := Int.eq_ofNat_of_zero_le (show 0 ≤ e.stop by omega)
    have hrest (f : Edit) (hf : f ∈ es) :
        (y : Int) ≤ f.start ∧ f.start ≤ f.stop ∧ f.stop ≤ bytes.length :=
      ⟨hy ▸ hbehind f hf, (hin f hf).2⟩
    have hfront : offset + ((bytes.take x).drop offset).length = x := by
      rw [List.length_drop, List.length_take]
      omega
    have hrange : x + ((bytes.take y).drop x).length = y := by
      rw [List.length_drop, List.length_take]
      omega
    have hfree (f : Edit) (hf : f ∈ e :: es) :
        (offset + ((bytes.take x).drop offset).length : Int) ≤ f.start := by
      rcases List.mem_cons.mp hf with rfl | hf
      · omega
      · have := hbehind f hf
        omega
    have hhere : replace (e :: es) x ((bytes.take y).drop x ++ bytes.drop y) =
        e.new ++ replace es y (bytes.drop y) := by
      rw [replace_range (by omega) (by omega) hbehind, if_pos hx, hrange]
    rw [drop_eq_append (show offset ≤ x by omega) (show x ≤ bytes.length by omega),
      drop_eq_append (show x ≤ y by omega) (show y ≤ bytes.length by omega),
      replace_append hfree, hfront, hhere, weave, hnew, hx, hy]
    simp [ih hrest hencode hup, Edit.new, hnew]

end Replace

variable {bytes : List UInt8} {es fs : List Edit}

private def down (es : List Edit) : List Edit :=
  es.mergeSort fun e f => f.start ≤ e.start

private theorem down_perm (es : List Edit) : (down es).Perm es :=
  List.mergeSort_perm ..

private theorem mem_down {e : Edit} : e ∈ down es ↔ e ∈ es :=
  (down_perm es).mem_iff

/-- Edits are refused, or each lies before the one that was carried out before it. A comparison of
neighbours is enough for that. -/
private theorem exists_overlap_or_apart {bound : Int} (hin : ∀ e ∈ es, e.start ≤ e.stop)
    (hencode : ∀ e ∈ es, e.text.isEncodable = true) :
    (∃ start, applyDown bytes bound es = .error (.overlap start)) ∨
      (∀ e ∈ es, e.stop ≤ bound) ∧ es.Pairwise fun e f => f.stop ≤ e.start := by
  induction es generalizing bytes bound with
  | nil => exact .inr ⟨by simp, .nil⟩
  | cons e es ih =>
    obtain ⟨hle, hin⟩ := List.forall_mem_cons.mp hin
    obtain ⟨htext, hencode⟩ := List.forall_mem_cons.mp hencode
    obtain ⟨new, hnew⟩ := Utf8.exists_encode.mpr htext
    by_cases hstop : e.stop > bound
    · exact .inl ⟨e.start, by rw [applyDown, if_pos hstop]⟩
    · rw [applyDown, if_neg hstop, apply, hnew]
      rcases ih hin hencode with herror | ⟨hbefore, hapart⟩
      · exact .inl herror
      · refine .inr ⟨List.forall_mem_cons.mpr ⟨by omega, fun f hf => ?_⟩,
          List.pairwise_cons.mpr ⟨hbefore, hapart⟩⟩
        have := hbefore f hf
        omega

namespace Placed

private theorem pairwise_down (h : Placed bytes es) :
    (down es).Pairwise fun e f => f.start < e.start := by
  have hne : (down es).Pairwise fun e f => e.start ≠ f.start :=
    List.pairwise_map.mp (((down_perm es).map start).nodup_iff.mpr h.starts)
  have hle : (down es).Pairwise fun e f => f.start ≤ e.start :=
    pairwise_start_mergeSort (fun _ _ => decide_eq_true_iff) es
  refine (hle.and hne).imp ?_
  rintro e f ⟨hle, hne⟩
  omega

private theorem perm (h : Placed bytes es) (hp : fs.Perm es) : Placed bytes fs :=
  ⟨fun e he => h.inside e (hp.mem_iff.mp he), (hp.map start).nodup_iff.mpr h.starts,
    fun e he => h.encodable e (hp.mem_iff.mp he)⟩

private theorem applyAll_perm (h : Placed bytes es) (hp : fs.Perm es) :
    applyAll bytes fs = applyAll bytes es := by
  have hdown : down fs = down es := by
    have hperm : (down fs).Perm (down es) :=
      (down_perm fs).trans (hp.trans (down_perm es).symm)
    refine hperm.eq_of_pairwise (fun e f _ _ hef hfe => ?_) (h.perm hp).pairwise_down
      h.pairwise_down
    omega
  exact congrArg (applyDown bytes (bytes.length + 1)) hdown

/-- At one offset no more than one edit starts, so the order in which they are given does not
matter. -/
private theorem newAt_perm (h : Placed bytes es) (hp : fs.Perm es) (offset : Nat) :
    newAt fs offset = newAt es offset := by
  have hone {gs : List Edit} (hg : Placed bytes gs) :
      (gs.filter fun e => e.start = (offset : Int)).Pairwise fun _ _ => False := by
    refine ((List.pairwise_map.mp hg.starts).filter _).imp_of_mem fun {e f} he hf hne => hne ?_
    have he := of_decide_eq_true (List.mem_filter.mp he).2
    have hf := of_decide_eq_true (List.mem_filter.mp hf).2
    exact he.trans hf.symm
  rw [newAt, newAt, (hp.filter _).eq_of_pairwise (fun _ _ _ _ h _ => h.elim) (hone (h.perm hp))
    (hone h)]

private theorem replace_perm (h : Placed bytes es) (hp : fs.Perm es) (offset : Nat)
    (bs : List UInt8) : replace fs offset bs = replace es offset bs := by
  induction bs generalizing offset with
  | nil => exact h.newAt_perm hp offset
  | cons b bs ih =>
    have hcovers : Covers fs offset ↔ Covers es offset := by
      simp only [Covers, hp.mem_iff]
    rw [replace, replace, h.newAt_perm hp, ih]
    simp only [hcovers]

private theorem apart_iff (h : Placed bytes es) :
    ((down es).Pairwise fun e f => f.stop ≤ e.start) ↔ ∀ e ∈ es, ∀ f ∈ es, ¬ e.Overlaps f := by
  constructor
  · intro hapart e he f hf hover
    have hsymm : Std.Symm fun e f : Edit => f.stop ≤ e.start ∨ e.stop ≤ f.start :=
      ⟨fun _ _ => Or.symm⟩
    have hne : e ≠ f := by
      rintro rfl
      exact absurd hover.1 (Int.lt_irrefl _)
    have hboth : (down es).Pairwise fun e f => f.stop ≤ e.start ∨ e.stop ≤ f.start :=
      hapart.imp Or.inl
    have := hboth.forall (mem_down.mpr he) (mem_down.mpr hf) hne
    have := (h.inside f hf).2.1
    obtain ⟨hstart, hstop⟩ := hover
    omega
  · intro hnone
    refine h.pairwise_down.imp_of_mem fun {e f} he hf hlt => ?_
    exact Int.not_lt.mp fun hstop => hnone f (mem_down.mp hf) e (mem_down.mp he) ⟨hlt, hstop⟩

private theorem applyAll_of_apart (h : Placed bytes es)
    (hapart : (down es).Pairwise fun e f => f.stop ≤ e.start) :
    applyAll bytes es = .ok (replace es 0 bytes) := by
  have hperm : (down es).reverse.Perm es :=
    (List.reverse_perm _).trans (down_perm es)
  have hwoven : weave bytes 0 (down es).reverse = some (replace (down es).reverse 0 bytes) :=
    weave_eq_replace (h.perm hperm).inside (h.perm hperm).encodable
      (List.pairwise_reverse.mpr hapart)
  have hplaced (e : Edit) (he : e ∈ down es) :
      ∃ x y : Nat, e.start = x ∧ e.stop = y ∧ x ≤ y ∧ y ≤ bytes.length := by
    obtain ⟨hstart, hle, hstop⟩ := h.inside e (mem_down.mp he)
    exact ⟨e.start.toNat, e.stop.toNat, by omega, by omega, by omega, by omega⟩
  have hbound (e : Edit) (he : e ∈ down es) : e.stop ≤ bytes.length + 1 := by
    have := (h.inside e (mem_down.mp he)).2.2
    omega
  have hdown := applyDown_eq_weave hplaced hbound hapart
  rw [hwoven, h.replace_perm hperm] at hdown
  exact hdown

/-- Edits with different starts are refused if and only if one of them reaches over the start of
another. If not, they come to the bytes read from left to right with each range replaced by its
text. The order in which they are given makes no difference. -/
theorem applyAll_replace (h : Placed bytes es) :
    ((∃ start, applyAll bytes es = .error (.overlap start)) ↔
      ∃ e ∈ es, ∃ f ∈ es, e.Overlaps f) ∧
    ((∀ e ∈ es, ∀ f ∈ es, ¬ e.Overlaps f) → applyAll bytes es = .ok (replace es 0 bytes)) ∧
    ∀ fs : List Edit, fs.Perm es → applyAll bytes fs = applyAll bytes es := by
  have hok (hnone : ∀ e ∈ es, ∀ f ∈ es, ¬ e.Overlaps f) :
      applyAll bytes es = .ok (replace es 0 bytes) :=
    h.applyAll_of_apart (h.apart_iff.mpr hnone)
  refine ⟨⟨?_, ?_⟩, hok, fun fs => h.applyAll_perm⟩
  · rintro ⟨start, herror⟩
    by_contra hnone
    push Not at hnone
    rw [hok hnone] at herror
    cases herror
  · rintro ⟨e, he, f, hf, hover⟩
    have hcases : (∃ start, applyDown bytes (bytes.length + 1) (down es) =
        .error (.overlap start)) ∨ _ :=
      exists_overlap_or_apart (fun e he => (h.inside e (mem_down.mp he)).2.1)
        fun e he => h.encodable e (mem_down.mp he)
    rcases hcases with herror | ⟨-, hapart⟩
    · exact herror
    · exact absurd hover (h.apart_iff.mp hapart e he f hf)

/-- In `abcdef`, two ranges that touch and one at the end, and two ranges that overlap. -/
theorem applyAll_replace_abcdef :
    applyAll [97, 98, 99, 100, 101, 102] [⟨5, 6, ""⟩, ⟨1, 3, "x"⟩, ⟨3, 3, "yz"⟩] =
      .ok [97, 120, 121, 122, 100, 101] ∧
    ∃ start, applyAll [97, 98, 99, 100, 101, 102] [⟨0, 3, "x"⟩, ⟨2, 4, "y"⟩] =
      .error (.overlap start) := by
  have happly := applyAll_replace
    (⟨by decide, by decide, by decide⟩ : Placed [97, 98, 99, 100, 101, 102]
      [⟨5, 6, ""⟩, ⟨1, 3, "x"⟩, ⟨3, 3, "yz"⟩])
  have hrefuse := applyAll_replace
    (⟨by decide, by decide, by decide⟩ : Placed [97, 98, 99, 100, 101, 102]
      [⟨0, 3, "x"⟩, ⟨2, 4, "y"⟩])
  exact ⟨(happly.2.1 (by decide)).trans (congrArg Except.ok (by decide)),
    hrefuse.1.mpr (by decide)⟩

end Placed

end LocaleLift.Edit
