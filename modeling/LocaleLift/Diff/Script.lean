import LocaleLift.Text

/-! Edit scripts between two lists of lines, found by their longest common runs. -/
namespace LocaleLift.Diff

/-- A segment of an edit script: lines that stay, or lines that others replace. -/
inductive Segment where
  | same (lines : List Text)
  | change (old new : List Text)
  deriving DecidableEq, Repr

namespace Segment

def old : Segment → List Text
  | same ls => ls
  | change o _ => o

def new : Segment → List Text
  | same ls => ls
  | change _ n => n

end Segment

/-- A line and whether a common run may be found by it. -/
structure Line where
  text : Text
  isAnchor : Bool
  deriving DecidableEq, Repr

def manyLines : Nat := 200

/-- Mark lines as anchors. Among many lines, those are none that make up more than a hundredth. -/
def anchored (lines : List Text) : List Line :=
  let n := lines.length
  lines.map fun l => ⟨l, n < manyLines || lines.count l ≤ n / 100 + 1⟩

/-- A common run: where it starts on either side, and its length. -/
structure Run where
  left : Nat
  right : Nat
  size : Nat
  deriving DecidableEq, Repr

/-- How long the runs are that end with a line of the left side and each line of the right side,
given the lengths for the line before. -/
def runLengths (line : Text) (right : List Line) (before : List Nat) : List Nat :=
  List.zipWith (fun r k => if r.isAnchor && r.text == line then k + 1 else 0) right (0 :: before)

/-- The longer of a run and those that end with a line of the left side; the first of the
longest. -/
def longerRun (best : Run) (i : Nat) (lengths : List Nat) : Run :=
  lengths.zipIdx.foldl
    (fun best (k, j) => if best.size < k then ⟨i + 1 - k, j + 1 - k, k⟩ else best) best

/-- The longest run of anchors, where `before` holds the lengths for the line before. -/
def longestAnchored (best : Run) (i : Nat) (before : List Nat) (right : List Line) :
    List Text → Run
  | [] => best
  | line :: left =>
    let lengths := runLengths line right before
    longestAnchored (longerRun best i lengths) (i + 1) lengths right left

def commonLength : List Text → List Text → Nat
  | a :: as, b :: bs => if a = b then commonLength as bs + 1 else 0
  | _, _ => 0

def longestRun (left : List Text) (right : List Line) : Run :=
  let r := longestAnchored ⟨0, 0, 0⟩ 0 (right.map fun _ => 0) right left
  let texts := right.map Line.text
  let back := commonLength (left.take r.left).reverse (texts.take r.right).reverse
  let on := commonLength (left.drop (r.left + r.size)) (texts.drop (r.right + r.size))
  ⟨r.left - back, r.right - back, back + r.size + on⟩

/-- Put a segment before a script. Lines that stay are joined to such lines after them. -/
def consSegment (s : Segment) (script : List Segment) : List Segment :=
  match s, script with
  | .same ls, .same more :: script => .same (ls ++ more) :: script
  | s, script => s :: script

def changed (old new : List Text) : List Segment :=
  if old.isEmpty && new.isEmpty then [] else [.change old new]

/-- The script from one list of lines to another: the longest common run stays, and so on before
and after it. -/
def scriptBetween (left : List Text) (right : List Line) : List Segment :=
  let r := longestRun left right
  if _h : 0 < r.size ∧ r.left + r.size ≤ left.length then
    let before := scriptBetween (left.take r.left) (right.take r.right)
    let after := scriptBetween (left.drop (r.left + r.size)) (right.drop (r.right + r.size))
    before.foldr consSegment (consSegment (.same ((left.drop r.left).take r.size)) after)
  else changed left (right.map Line.text)
termination_by left.length
decreasing_by
  all_goals
    have h : 0 < (longestRun left right).size ∧
      (longestRun left right).left + (longestRun left right).size ≤ left.length := _h
    simp only [List.length_take, List.length_drop]
    omega

def script (old new : List Text) : List Segment :=
  scriptBetween old (anchored new)

end LocaleLift.Diff
