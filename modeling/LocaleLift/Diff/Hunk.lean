import LocaleLift.Diff.Script
import LocaleLift.Path
import LocaleLift.Text.Lines

/-! Unified diffs: the changes of a script in hunks, each with some lines around it. -/
namespace LocaleLift.Diff

/-- A hunk: how many lines come before it on either side, and its segments. -/
structure Hunk where
  oldStart : Nat
  newStart : Nat
  segments : List Segment
  deriving DecidableEq, Repr

def context : Nat := 3

namespace Hunk

def add (h : Hunk) (s : Segment) : Hunk :=
  { h with segments := h.segments ++ [s] }

def old (h : Hunk) : List Text :=
  h.segments.flatMap Segment.old

def new (h : Hunk) : List Text :=
  h.segments.flatMap Segment.new

/-- The hunk that starts at the end of lines that stay, so many of which come after others. -/
def afterSame (oldStart newStart : Nat) (lines : List Text) : Hunk :=
  let skipped := lines.length - context
  ⟨oldStart + skipped, newStart + skipped, [.same (lines.drop skipped)]⟩

@[simp] theorem old_add (h : Hunk) (s : Segment) : (h.add s).old = h.old ++ s.old := by
  simp [old, add]

@[simp] theorem new_add (h : Hunk) (s : Segment) : (h.add s).new = h.new ++ s.new := by
  simp [new, add]

section AfterSame

variable (o n : Nat) (lines : List Text)

@[simp] theorem oldStart_afterSame :
    (afterSame o n lines).oldStart = o + (lines.length - context) := rfl

@[simp] theorem newStart_afterSame :
    (afterSame o n lines).newStart = n + (lines.length - context) := rfl

@[simp] theorem old_afterSame :
    (afterSame o n lines).old = lines.drop (lines.length - context) :=
  List.append_nil _

@[simp] theorem new_afterSame :
    (afterSame o n lines).new = lines.drop (lines.length - context) :=
  List.append_nil _

end AfterSame

end Hunk

/-- Gather the segments of a script into hunks. `hunk` is the one being gathered, and the segments
to come start after so many lines of either side. -/
def gather (hunk : Hunk) (old new : Nat) : List Segment → List Hunk
  | [] => [hunk]
  | [.same ls] => [hunk.add (.same (ls.take context))]
  | .same ls :: rest =>
    let old' := old + ls.length
    let new' := new + ls.length
    if 2 * context < ls.length then
      hunk.add (.same (ls.take context)) :: gather (.afterSame old new ls) old' new' rest
    else gather (hunk.add (.same ls)) old' new' rest
  | .change o n :: rest => gather (hunk.add (.change o n)) (old + o.length) (new + n.length) rest

/-- The hunks of a script. A script without changes has none. -/
def hunks : List Segment → List Hunk
  | [] | [.same _] => []
  | .same ls :: rest => gather (.afterSame 0 0 ls) ls.length ls.length rest
  | rest => gather ⟨0, 0, []⟩ 0 0 rest

/-- A range of lines, given by the lines before it and its length. A range without lines is named
by the line before it. -/
def rangeText (start length : Nat) : Text :=
  if length = 1 then Text.ofNat (start + 1)
  else Text.ofNat (if length = 0 then start else start + 1) ++ "," ++ Text.ofNat length

def marked (mark : Char) (lines : List Text) : List Text :=
  lines.map fun l => .scalar mark :: l

/-- The lines of a segment, each marked as kept, removed or added. -/
def Segment.lines : Segment → List Text
  | same ls => marked ' ' ls
  | change o n => marked '-' o ++ marked '+' n

def Hunk.header (h : Hunk) : Text :=
  "@@ -" ++ rangeText h.oldStart h.old.length ++ " +" ++ rangeText h.newStart h.new.length ++ " @@\n"

def Hunk.lines (h : Hunk) : List Text :=
  h.header :: h.segments.flatMap Segment.lines

/-- The lines of the unified diff from one text to another; there are none if they are equal. Both
are named by the same path. -/
def unifiedLines (path : Path) (old new : Text) : List Text :=
  match hunks (script (Text.lines old) (Text.lines new)) with
  | [] => []
  | hs =>
    ("--- a/" ++ path.toText ++ "\n") :: ("+++ b/" ++ path.toText ++ "\n") :: hs.flatMap Hunk.lines

def unified (path : Path) (old new : Text) : Text :=
  (unifiedLines path old new).flatten

end LocaleLift.Diff
