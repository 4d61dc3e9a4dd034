import LocaleLift.Diff.Script

/-! Scripts lead from one list of lines to the other, and between equal ones nothing changes. -/
namespace LocaleLift.Diff

/-- A run lies within both sides, and has the same lines on either. -/
structure Run.IsCommon (r : Run) (left right : List Text) : Prop where
  left_le : r.left + r.size ≤ left.length
  right_le : r.right + r.size ≤ right.length
  lines_eq : (left.drop r.left).take r.size = (right.drop r.right).take r.size

/-- How many anchors two lists have in common at their start. -/
def commonAnchors : List Text → List Line → Nat
  | line :: left, r :: right =>
    if r.isAnchor && r.text == line then commonAnchors left right + 1 else 0
  | _, _ => 0

private theorem commonAnchors_nil (right : List Line) : commonAnchors [] right = 0 := by
  cases right <;> rfl

private theorem commonAnchors_le (left : List Text) (right : List Line) :
    commonAnchors left right ≤ left.length ∧ commonAnchors left right ≤ right.length := by
  induction left generalizing right with
  | nil => simp [commonAnchors_nil]
  | cons line left ih =>
    cases right with
    | nil => exact ⟨Nat.zero_le _, Nat.zero_le _⟩
    | cons r right =>
      rw [commonAnchors]
      split
      · exact ⟨Nat.succ_le_succ (ih right).1, Nat.succ_le_succ (ih right).2⟩
      · exact ⟨Nat.zero_le _, Nat.zero_le _⟩

private theorem take_commonAnchors (left : List Text) (right : List Line) :
    left.take (commonAnchors left right) =
      (right.map Line.text).take (commonAnchors left right) := by
  induction left generalizing right with
  | nil => simp [commonAnchors_nil]
  | cons line left ih =>
    cases right with
    | nil => rfl
    | cons r right =>
      rw [commonAnchors]
      split
      · rename_i hr
        have htext : r.text = line := beq_iff_eq.mp (Bool.and_eq_true_iff.mp hr).2
        rw [List.take_succ_cons, List.map_cons, List.take_succ_cons, htext, ih]
      · rfl

private theorem commonLength_le (as bs : List Text) :
    commonLength as bs ≤ as.length ∧ commonLength as bs ≤ bs.length := by
  fun_induction commonLength as bs with
  | case1 a as bs ih => exact ⟨Nat.succ_le_succ ih.1, Nat.succ_le_succ ih.2⟩
  | case2 | case3 => exact ⟨Nat.zero_le _, Nat.zero_le _⟩

private theorem take_commonLength (as bs : List Text) :
    as.take (commonLength as bs) = bs.take (commonLength as bs) := by
  fun_induction commonLength as bs with
  | case1 a as bs ih => rw [List.take_succ_cons, List.take_succ_cons, ih]
  | case2 | case3 => rfl

private theorem commonLength_self (as : List Text) : commonLength as as = as.length := by
  induction as with
  | nil => rfl
  | cons a as ih => rw [commonLength, if_pos rfl, ih, List.length_cons]

/-- What stands before a place, read backwards from there. -/
private theorem take_drop_reverse {α : Type} (as : List α) {k : Nat} (hk : k ≤ as.length)
    (rest : List α) : ((as.reverse ++ rest).drop (as.length - k)).take k = (as.take k).reverse := by
  have hdrop : (as.drop k).reverse.length = as.length - k := by simp
  have htake : (as.take k).reverse.length = k := by simp [hk]
  have hsplit : as.reverse = (as.drop k).reverse ++ (as.take k).reverse := by
    rw [← List.reverse_append, List.take_append_drop]
  rw [hsplit, List.append_assoc, ← hdrop, List.drop_left]
  exact List.take_left' htake

private theorem take_around {α : Type} {as : List α} {i back : Nat} (hback : back ≤ i)
    (hi : i ≤ as.length) (n on : Nat) : (as.drop (i - back)).take (back + n + on) =
      ((as.take i).reverse.take back).reverse ++ (as.drop i).take n ++
        (as.drop (i + n)).take on := by
  have hbefore := take_drop_reverse (as.take i).reverse (k := back)
    (by simpa [hi] using hback) (as.drop i)
  rw [List.reverse_reverse, List.take_append_drop, List.length_reverse,
    List.length_take_of_le hi] at hbefore
  rw [Nat.add_assoc, List.take_add, hbefore, List.drop_drop, Nat.sub_add_cancel hback, List.take_add,
    List.drop_drop, List.append_assoc]

/-- How long the runs of anchors are that end with each line of the right side, where `done` holds
the lines of the left side so far, the last one first. -/
def lengthsAt (done : List Text) (right : List Line) : List Nat :=
  (List.range right.length).map fun j => commonAnchors done (right.take (j + 1)).reverse

private theorem lengthsAt_nil (right : List Line) : lengthsAt [] right = right.map fun _ => 0 := by
  rw [lengthsAt]
  simp only [commonAnchors_nil, List.map_const', List.length_range]

private theorem getElem?_lengthsAt {done : List Text} {right : List Line} {j k : Nat}
    (h : (lengthsAt done right)[j]? = some k) :
    j < right.length ∧ commonAnchors done (right.take (j + 1)).reverse = k := by
  rw [lengthsAt, List.getElem?_map, Option.map_eq_some_iff] at h
  obtain ⟨i, hi, rfl⟩ := h
  obtain ⟨hlt, rfl⟩ := List.getElem?_eq_some_iff.mp hi
  rw [List.length_range] at hlt
  exact ⟨hlt, by rw [List.getElem_range]⟩

/-- One more line of the left side makes the next row of the table. -/
private theorem runLengths_lengthsAt (line : Text) (done : List Text) (right : List Line) :
    runLengths line right (lengthsAt done right) = lengthsAt (line :: done) right := by
  have hlength : (lengthsAt done right).length = right.length := by simp [lengthsAt]
  refine List.ext_getElem (by simp [runLengths, lengthsAt]) fun j hj _ => ?_
  have hj : j < right.length := by
    rw [runLengths, List.length_zipWith] at hj
    omega
  have hj' : j < (0 :: lengthsAt done right).length := by
    rw [List.length_cons]
    omega
  have hbefore : (0 :: lengthsAt done right)[j] = commonAnchors done (right.take j).reverse := by
    cases j with
    | zero => cases done <;> rfl
    | succ j => simp [lengthsAt]
  simp only [runLengths, List.getElem_zipWith, hbefore]
  simp only [lengthsAt, List.getElem_map, List.getElem_range]
  rw [List.take_succ_eq_append_getElem hj, List.reverse_append, List.reverse_singleton,
    List.singleton_append, commonAnchors]

private theorem foldl_zipIdx_induction {p : Nat → Run → Prop} {next : Run → Nat × Nat → Run}
    {best : Run} (n : Nat) (lengths : List Nat) (hbest : p n best)
    (hstep : ∀ j k best, lengths[j]? = some k → p (n + j) best →
      p (n + j + 1) (next best (k, n + j))) :
    p (n + lengths.length) ((lengths.zipIdx n).foldl next best) := by
  induction lengths generalizing best n with
  | nil => exact hbest
  | cons k lengths ih =>
    rw [List.zipIdx_cons, List.foldl_cons, List.length_cons, Nat.add_comm _ 1, ← Nat.add_assoc]
    refine ih (n + 1) (hstep 0 k best rfl hbest) fun j k best hk hp => ?_
    have hnext := hstep (j + 1) k best hk
    rw [← Nat.add_assoc, Nat.add_right_comm n j 1] at hnext
    exact hnext hp

/-- What holds of the best run so far, line by line of the right side. -/
private theorem longerRun_induction {p : Nat → Run → Prop} {best : Run} (i : Nat)
    (lengths : List Nat) (hbest : p 0 best)
    (hstep : ∀ j k best, lengths[j]? = some k → p j best →
      p (j + 1) (if best.size < k then ⟨i + 1 - k, j + 1 - k, k⟩ else best)) :
    p lengths.length (longerRun best i lengths) := by
  rw [← Nat.zero_add lengths.length, longerRun]
  refine foldl_zipIdx_induction 0 lengths hbest fun j k best hk hp => ?_
  rw [Nat.zero_add] at hp ⊢
  exact hstep j k best hk hp

private theorem isCommon_ending (done : List Text) {right : List Line} {j : Nat}
    (hj : j ≤ right.length) (left : List Text) :
    let k := commonAnchors done (right.take j).reverse
    Run.IsCommon ⟨done.length - k, j - k, k⟩ (done.reverse ++ left) (right.map Line.text) := by
  intro k
  obtain ⟨hleft, hright⟩ := commonAnchors_le done (right.take j).reverse
  rw [List.length_reverse, List.length_take_of_le hj] at hright
  refine ⟨?_, ?_, ?_⟩
  · simp only [List.length_append, List.length_reverse]
    omega
  · simp only [List.length_map]
    omega
  · have hlines := take_drop_reverse ((right.take j).reverse.map Line.text) (k := k)
      (by simpa [hj] using hright) ((right.drop j).map Line.text)
    rw [← List.map_reverse, List.reverse_reverse, ← List.map_append, List.take_append_drop,
      List.length_map, List.length_reverse, List.length_take_of_le hj] at hlines
    rw [take_drop_reverse done hleft, hlines, take_commonAnchors]

private theorem longestAnchored_isCommon {best : Run} (done : List Text) {left : List Text}
    {right : List Line}
    (h : best.IsCommon (done.reverse ++ left) (right.map Line.text)) :
    (longestAnchored best done.length (lengthsAt done right) right left).IsCommon
      (done.reverse ++ left) (right.map Line.text) := by
  induction left generalizing best done with
  | nil => exact h
  | cons line left ih =>
    rw [longestAnchored, runLengths_lengthsAt]
    have hlines : (line :: done).reverse ++ left = done.reverse ++ line :: left := by simp
    suffices hlonger : (longerRun best done.length (lengthsAt (line :: done) right)).IsCommon
        ((line :: done).reverse ++ left) (right.map Line.text) by
      have hnext := ih (line :: done) hlonger
      rwa [hlines] at hnext
    · rw [hlines]
      refine longerRun_induction _ _ (p := fun _ best => best.IsCommon (done.reverse ++ line :: left)
        (right.map Line.text)) h fun j k best hk hbest => ?_
      obtain ⟨hj, rfl⟩ := getElem?_lengthsAt hk
      split
      · have hrun := isCommon_ending (line :: done) (Nat.succ_le_of_lt hj) left
        rwa [hlines] at hrun
      · exact hbest

/-- The longest run is a common one. -/
theorem longestRun_isCommon (left : List Text) (right : List Line) :
    (longestRun left right).IsCommon left (right.map Line.text) := by
  have hrun : Run.IsCommon
      (longestAnchored ⟨0, 0, 0⟩ 0 (right.map fun _ => 0) right left) left
      (right.map Line.text) := by
    rw [← lengthsAt_nil]
    exact longestAnchored_isCommon [] ⟨Nat.zero_le _, Nat.zero_le _, rfl⟩
  rw [longestRun]
  generalize longestAnchored ⟨0, 0, 0⟩ 0 (right.map fun _ => 0) right left = r at hrun
  generalize right.map Line.text = texts at hrun
  obtain ⟨hleft, hright, hlines⟩ := hrun
  have hback := commonLength_le (left.take r.left).reverse (texts.take r.right).reverse
  have hbefore := take_commonLength (left.take r.left).reverse (texts.take r.right).reverse
  have hon := commonLength_le (left.drop (r.left + r.size)) (texts.drop (r.right + r.size))
  have hbehind := take_commonLength (left.drop (r.left + r.size)) (texts.drop (r.right + r.size))
  simp only [List.length_reverse, List.length_take, List.length_drop] at hback hon
  refine ⟨?_, ?_, ?_⟩
  · dsimp only
    omega
  · dsimp only
    omega
  · rw [take_around (by omega) (by omega), take_around (by omega) (by omega), hbefore, hlines,
      hbehind]

section Side

variable {side : Segment → List Text} (hside : ∀ ls, side (.same ls) = ls)

include hside

private theorem flatMap_consSegment (s : Segment) (script : List Segment) :
    (consSegment s script).flatMap side = side s ++ script.flatMap side := by
  rw [consSegment.eq_def]
  split <;> simp [hside]

private theorem flatMap_joined (before after : List Segment) :
    (before.foldr consSegment after).flatMap side = before.flatMap side ++ after.flatMap side := by
  induction before with
  | nil => rfl
  | cons s before ih =>
    rw [List.foldr_cons, flatMap_consSegment hside, ih, List.flatMap_cons, List.append_assoc]

end Side

private theorem sides_changed (old new : List Text) :
    (changed old new).flatMap Segment.old = old ∧ (changed old new).flatMap Segment.new = new := by
  rw [changed]
  split
  · rename_i hempty
    simp only [Bool.and_eq_true, List.isEmpty_iff] at hempty
    rw [hempty.1, hempty.2]
    exact ⟨rfl, rfl⟩
  · exact ⟨List.append_nil old, List.append_nil new⟩

private theorem around {α : Type} (as : List α) (i n : Nat) :
    as.take i ++ ((as.drop i).take n ++ as.drop (i + n)) = as := by
  rw [← List.drop_drop, List.take_append_drop, List.take_append_drop]

private theorem sides_scriptBetween (left : List Text) (right : List Line) :
    (scriptBetween left right).flatMap Segment.old = left ∧
      (scriptBetween left right).flatMap Segment.new = right.map Line.text := by
  fun_induction scriptBetween left right with
  | case1 left right r h before after ihbefore ihafter =>
    constructor
    · rw [flatMap_joined fun _ => rfl, flatMap_consSegment fun _ => rfl, ihbefore.1, ihafter.1]
      exact around left r.left r.size
    · rw [flatMap_joined fun _ => rfl, flatMap_consSegment fun _ => rfl, ihbefore.2, ihafter.2,
        Segment.new, (longestRun_isCommon left right).lines_eq, List.map_take, List.map_drop]
      exact around (right.map Line.text) r.right r.size
  | case2 left right r h => exact sides_changed left _

private theorem map_text_anchored (lines : List Text) : (anchored lines).map Line.text = lines := by
  rw [anchored, List.map_map]
  exact List.map_id lines

/-- The lines before the changes of a script are those it leads from, whatever common runs it was made
of, and the lines after them are those it leads to. -/
theorem sides_script (old new : List Text) :
    (script old new).flatMap Segment.old = old ∧ (script old new).flatMap Segment.new = new := by
  have h := sides_scriptBetween old (anchored new)
  rwa [map_text_anchored] at h

/-- Whether a line is an anchor goes by its text. -/
def Uniform (right : List Line) : Prop :=
  ∀ a ∈ right, ∀ b ∈ right, a.text = b.text → a.isAnchor = b.isAnchor

private theorem commonAnchors_le_ending (left : List Text) (right : List Line) :
    commonAnchors left right ≤ commonAnchors (right.map Line.text) right := by
  induction left generalizing right with
  | nil => simp [commonAnchors_nil]
  | cons line left ih =>
    cases right with
    | nil => exact Nat.zero_le _
    | cons r right =>
      rw [commonAnchors, List.map_cons, commonAnchors]
      split
      · rename_i hr
        rw [if_pos (by simpa using (Bool.and_eq_true_iff.mp hr).1)]
        exact Nat.succ_le_succ (ih right)
      · exact Nat.zero_le _

private theorem commonAnchors_le_of_uniform {as bs : List Line}
    (h : ∀ a ∈ as, ∀ b ∈ bs, a.text = b.text → a.isAnchor = b.isAnchor) :
    commonAnchors (as.map Line.text) bs ≤ commonAnchors (as.map Line.text) as := by
  induction as generalizing bs with
  | nil => simp [commonAnchors_nil]
  | cons a as ih =>
    cases bs with
    | nil => exact Nat.zero_le _
    | cons b bs =>
      rw [List.map_cons, commonAnchors, commonAnchors]
      split
      · rename_i hb
        obtain ⟨hanchor, htext⟩ := Bool.and_eq_true_iff.mp hb
        have ha := h a List.mem_cons_self b List.mem_cons_self (beq_iff_eq.mp htext).symm
        rw [if_pos (by simp [ha, hanchor])]
        exact Nat.succ_le_succ (ih fun a ha b hb =>
          h a (List.mem_cons_of_mem _ ha) b (List.mem_cons_of_mem _ hb))
      · exact Nat.zero_le _

/-- How many anchors end at a place of one side. -/
def endingAnchors (right : List Line) (i : Nat) : Nat :=
  commonAnchors ((right.take i).reverse.map Line.text) (right.take i).reverse

/-- A run has the same place on both sides, and is as long as any that ends up to a place. -/
structure Run.IsDiagonal (right : List Line) (i : Nat) (r : Run) : Prop where
  left_eq : r.left = r.right
  longest : ∀ j ≤ i, endingAnchors right j ≤ r.size

/-- Between equal sides, a run that ends at two places is no longer than those that end at either of
them on both sides. Of these, one has been found by then. -/
private theorem longerRun_isDiagonal {right : List Line} (h : Uniform right) {i : Nat}
    (hi : i < right.length) {best : Run} (hbest : best.IsDiagonal right i) :
    (longerRun best i (lengthsAt ((right.take (i + 1)).reverse.map Line.text) right)).IsDiagonal right
      (i + 1) := by
  have hrow := longerRun_induction i
    (lengthsAt ((right.take (i + 1)).reverse.map Line.text) right)
    (p := fun j best => best.IsDiagonal right i ∧
      (i < j → endingAnchors right (i + 1) ≤ best.size))
    ⟨hbest, fun hlt => absurd hlt (Nat.not_lt_zero i)⟩ fun j k best hk ⟨hdiagonal, hlast⟩ => by
      obtain ⟨-, hk⟩ := getElem?_lengthsAt hk
      have hcolumn : k ≤ endingAnchors right (j + 1) := hk ▸ commonAnchors_le_ending _ _
      have hrow : k ≤ endingAnchors right (i + 1) := by
        rw [← hk]
        exact commonAnchors_le_of_uniform fun a ha b hb =>
          h a (List.mem_of_mem_take (List.mem_reverse.mp ha)) b
            (List.mem_of_mem_take (List.mem_reverse.mp hb))
      split
      · rename_i hlonger
        obtain rfl : j = i := by
          rcases Nat.lt_trichotomy j i with hlt | heq | hlt
          · have := hdiagonal.longest (j + 1) hlt
            omega
          · exact heq
          · have := hlast hlt
            omega
        have hlongest (m : Nat) (hm : m ≤ j) : endingAnchors right m ≤ k :=
          Nat.le_trans (hdiagonal.longest m hm) (Nat.le_of_lt hlonger)
        exact ⟨⟨rfl, hlongest⟩, fun _ => Nat.le_of_eq hk⟩
      · rename_i hshorter
        refine ⟨hdiagonal, fun hlt => ?_⟩
        rcases Nat.lt_succ_iff_lt_or_eq.mp hlt with hlt | rfl
        · exact hlast hlt
        · exact Nat.le_trans (Nat.le_of_eq hk) (Nat.not_lt.mp hshorter)
  obtain ⟨hdiagonal, hlast⟩ := hrow
  refine ⟨hdiagonal.left_eq, fun m hm => ?_⟩
  rcases Nat.le_succ_iff.mp hm with hm | rfl
  · exact hdiagonal.longest m hm
  · exact hlast (by simpa [lengthsAt] using hi)

private theorem longestAnchored_isDiagonal {right : List Line} (h : Uniform right)
    (front : List Line) {rest : List Line} (hright : right = front ++ rest) {best : Run}
    (hbest : best.IsDiagonal right front.length) :
    (longestAnchored best front.length (lengthsAt (front.reverse.map Line.text) right) right
      (rest.map Line.text)).IsDiagonal right right.length := by
  induction rest generalizing front best with
  | nil =>
    rw [List.append_nil] at hright
    rwa [← hright] at hbest ⊢
  | cons line rest ih =>
    have hnext : right = (front ++ [line]) ++ rest := by rw [hright, List.append_assoc]; rfl
    have hlength : (front ++ [line]).length = front.length + 1 := List.length_append
    have hlonger := longerRun_isDiagonal h (by simp [hright]) hbest
    have htake : right.take (front.length + 1) = front ++ [line] := by
      rw [← hlength, hnext, List.take_left]
    rw [htake, ← hlength] at hlonger
    have hmore := ih (front ++ [line]) hnext hlonger
    rw [hlength, List.reverse_append, List.reverse_singleton, List.singleton_append,
      List.map_cons] at hmore
    rwa [List.map_cons, longestAnchored, runLengths_lengthsAt]

/-- Between equal sides, the longest run is all there is. -/
private theorem longestRun_self {right : List Line} (h : Uniform right) :
    longestRun (right.map Line.text) right = ⟨0, 0, right.length⟩ := by
  have hdiagonal : Run.IsDiagonal right right.length
      (longestAnchored ⟨0, 0, 0⟩ 0 (lengthsAt [] right) right (right.map Line.text)) :=
    longestAnchored_isDiagonal h [] rfl
      ⟨rfl, fun j hj => by rw [Nat.le_zero.mp hj]; exact Nat.le_refl 0⟩
  have hcommon : Run.IsCommon
      (longestAnchored ⟨0, 0, 0⟩ 0 (lengthsAt [] right) right (right.map Line.text))
      (right.map Line.text) (right.map Line.text) :=
    longestAnchored_isCommon [] ⟨Nat.zero_le _, Nat.zero_le _, rfl⟩
  rw [longestRun, ← lengthsAt_nil]
  generalize longestAnchored ⟨0, 0, 0⟩ 0 (lengthsAt [] right) right (right.map Line.text) = r
    at hdiagonal hcommon
  have hle := hcommon.left_le
  rw [List.length_map] at hle
  have hsize : r.left + r.size + (right.length - (r.left + r.size)) = right.length := by omega
  simp only [← hdiagonal.left_eq, commonLength_self, List.length_reverse, List.length_take,
    List.length_drop, List.length_map, Nat.min_eq_left (Nat.le_of_add_right_le hle), hsize,
    Nat.sub_self]

private theorem uniform_anchored (lines : List Text) : Uniform (anchored lines) := by
  intro a ha b hb hab
  obtain ⟨l, -, rfl⟩ := List.mem_map.mp ha
  obtain ⟨m, -, rfl⟩ := List.mem_map.mp hb
  obtain rfl : l = m := hab
  rfl

private theorem scriptBetween_nil : scriptBetween [] [] = [] := by
  rw [scriptBetween]
  rfl

/-- Between equal sides, all lines stay. -/
theorem script_self (lines : List Text) :
    script lines lines = if lines = [] then [] else [.same lines] := by
  have hrun := longestRun_self (uniform_anchored lines)
  have hlength : (anchored lines).length = lines.length := List.length_map _
  rw [map_text_anchored] at hrun
  rw [script, scriptBetween, hrun]
  simp only [Nat.zero_add, hlength, Nat.le_refl, and_true, List.length_pos_iff]
  split
  · rename_i hlines
    have hnone : (anchored lines).drop lines.length = [] := by rw [← hlength, List.drop_length]
    rw [List.take_zero, List.take_zero, List.drop_zero, List.take_length, List.drop_length, hnone,
      scriptBetween_nil]
    rfl
  · rename_i hlines
    obtain rfl := Classical.not_not.mp hlines
    rfl

end LocaleLift.Diff
