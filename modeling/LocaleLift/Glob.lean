import LocaleLift.Path

/-! Glob patterns for paths. A star stands for any characters, slashes among them. -/
namespace LocaleLift

/-- A set of characters, or of all but some: closed ranges of their numbers. -/
structure CharSet where
  negated : Bool
  ranges : List (Nat × Nat)
  deriving DecidableEq, Repr

namespace CharSet

def all : CharSet := ⟨true, []⟩

def single (c : CodePoint) : CharSet := ⟨false, [(c.toNat, c.toNat)]⟩

def contains (s : CharSet) (c : CodePoint) : Bool :=
  (s.ranges.any fun (lo, hi) => c.inRange lo hi) != s.negated

end CharSet

namespace Glob

/-- A piece of a pattern: any number of characters, or one out of a set. -/
inductive Piece where
  | star
  | one (set : CharSet)
  deriving DecidableEq, Repr

/-- What stands in brackets: a character, or a dash that joins two into a range. -/
inductive SetItem where
  | point (c : CodePoint)
  | dash
  deriving DecidableEq, Repr

private def chunksFrom (least : Nat) (chunk : Text) : Text → List Text
  | [] => [chunk]
  | c :: t =>
    if least = 0 && c == .scalar '-' then chunk :: chunksFrom 2 [] t
    else chunksFrom (least - 1) (chunk ++ [c]) t

/-- The chunks between the dashes that make ranges. A dash makes one if it stands behind a
character that belongs to no earlier range; a dash at the end makes none. -/
def chunks (body : Text) : List Text :=
  let cs := chunksFrom (if body.head? == some (.scalar '!') then 2 else 1) [] body
  match cs.reverse with
  | [] :: c :: rest => ((c ++ [.scalar '-']) :: rest).reverse
  | _ => cs

/-- Leave out the ranges that are empty because their first character comes after the last. -/
def dropEmptyRanges : List Text → List Text
  | [] => []
  | c :: cs =>
    match dropEmptyRanges cs with
    | [] => [c]
    | d :: ds =>
      match c.getLast?, d.head? with
      | some lo, some hi =>
        if hi.toNat < lo.toNat then (c.dropLast ++ d.tail) :: ds else c :: d :: ds
      | _, _ => c :: d :: ds

def itemRanges : List SetItem → List (Nat × Nat)
  | [] => []
  | .point a :: .dash :: .point b :: items => (a.toNat, b.toNat) :: itemRanges items
  | .point a :: items => (a.toNat, a.toNat) :: itemRanges items
  | .dash :: items => (0x2D, 0x2D) :: itemRanges items

/-- The set that stands in brackets. An exclamation mark before the items means all but them. -/
def setOf (body : Text) : CharSet :=
  let items := [SetItem.dash].intercalate ((dropEmptyRanges (chunks body)).map (·.map .point))
  match items with
  | .point (.scalar '!') :: items => ⟨true, itemRanges items⟩
  | items => ⟨false, itemRanges items⟩

/-- The body of a set after its opening bracket, if there is a closing one. A closing bracket at the
very start of the body belongs to it. -/
def body? (t : Text) : Option Text :=
  let mark := if t.head? == some (.scalar '!') then t.take 1 else []
  let first := if (t.drop mark.length).head? == some (.scalar ']') then [.scalar ']'] else []
  let start := mark ++ first
  let rest := t.drop start.length
  let more := rest.takeWhile (· != .scalar ']')
  if more.length = rest.length then none else some (start ++ more)

private def piecesFrom : Nat → Text → List Piece
  | _, [] => []
  | skip + 1, _ :: t => piecesFrom skip t
  | 0, c :: t =>
    if c = .scalar '*' then .star :: piecesFrom 0 t
    else if c = .scalar '?' then .one .all :: piecesFrom 0 t
    else if c = .scalar '[' then
      match body? t with
      | some body => .one (setOf body) :: piecesFrom (body.length + 1) t
      | none => .one (.single c) :: piecesFrom 0 t
    else .one (.single c) :: piecesFrom 0 t

end Glob

/-- A glob pattern is a list of pieces. -/
abbrev Glob := List Glob.Piece

namespace Glob

/-- Read a pattern. An opening bracket without a closing one stands for itself. -/
def ofText (t : Text) : Glob :=
  piecesFrom 0 t

private theorem piecesFrom_eq (skip : Nat) (t : Text) : piecesFrom skip t = ofText (t.drop skip) := by
  induction t generalizing skip with
  | nil => rw [List.drop_nil, ofText, piecesFrom, piecesFrom]
  | cons c t ih =>
    cases skip with
    | zero => rfl
    | succ skip => exact ih skip

@[simp] theorem ofText_nil : ofText [] = [] := rfl

/-- A pattern is read character by character, and a set in brackets as a whole. -/
theorem ofText_cons (c : CodePoint) (t : Text) : ofText (c :: t) =
    if c = .scalar '*' then .star :: ofText t
    else if c = .scalar '?' then .one .all :: ofText t
    else if c = .scalar '[' then
      match body? t with
      | some body => .one (setOf body) :: ofText (t.drop (body.length + 1))
      | none => .one (.single c) :: ofText t
    else .one (.single c) :: ofText t := by
  rw [ofText, piecesFrom]
  simp only [piecesFrom_eq, List.drop_zero]

/-- Which ends of a pattern match the empty text, the whole pattern first. -/
def endRow : Glob → List Bool
  | [] => [true]
  | p :: ps =>
    let row := endRow ps
    (p == .star && row.headD false) :: row

/-- Which ends of a pattern match a text, where `row` tells which match the text without its first
character. -/
def nextRow (c : CodePoint) : Glob → List Bool → List Bool
  | [], _ => [false]
  | p :: ps, row =>
    let rest := nextRow c ps row.tail
    let first := match p with
      | .star => rest.headD false || row.headD false
      | .one set => set.contains c && row.tail.headD false
    first :: rest

def isMatch (g : Glob) (t : Text) : Bool :=
  (t.foldr (fun c row => nextRow c g row) (endRow g)).headD false

/-- Whether a pattern matches a path, given relative to some directory, with or without a slash
before it. -/
def isPathMatch (g : Glob) (path : Text) : Bool :=
  g.isMatch path || g.isMatch (.scalar '/' :: path)

end Glob

/-- A path as globs see it: relative to a base, with slashes for backslashes. There is none for a
path that is not below the base. -/
def Path.globText? (base path : Path) : Option Text :=
  (path.relativeTo? base).map fun r =>
    r.toText.map fun c => if c = .scalar '\\' then .scalar '/' else c

/-- Whether a path is left out: one that is not below the base, or that a pattern matches. -/
def Path.isIgnored (base path : Path) (globs : List Glob) : Bool :=
  match Path.globText? base path with
  | none => true
  | some t => globs.any fun g => g.isPathMatch t

end LocaleLift
