import LocaleLift.Text

/-! Paths of files: names separated by slashes. -/
namespace LocaleLift

/-- A path is a number of leading slashes, none for a relative path, and names without slashes.
Empty names and single points are left out when a path is read. -/
structure Path where
  root : Nat
  names : List Text
  deriving DecidableEq, Repr

namespace Path

/-- Read a path. Two leading slashes are kept apart from one, and three or more mean one. -/
def ofText (t : Text) : Path :=
  let slashes := (t.takeWhile (· == .scalar '/')).length
  let names := (Text.splitOn (.scalar '/') t).filter fun n => !n.isEmpty && n != Text.ofString "."
  ⟨if slashes = 2 then 2 else min slashes 1, names⟩

instance : Coe Text Path := ⟨ofText⟩

def toText (p : Path) : Text :=
  if p.root = 0 && p.names.isEmpty then "."
  else List.replicate p.root (.scalar '/') ++ Text.join "/" p.names

def name (p : Path) : Text :=
  p.names.getLast?.getD []

def parent (p : Path) : Path :=
  { p with names := p.names.dropLast }

/-- A path below this one; an absolute path replaces it. -/
def append (p q : Path) : Path :=
  if q.root = 0 then { p with names := p.names ++ q.names } else q

def child (p : Path) (name : Text) : Path :=
  { p with names := p.names ++ [name] }

/-- The end of the last name from its last point on. There is none if the point is the first or
the last character of the name. -/
def suffix (p : Path) : Text :=
  let ending := p.name.reverse.takeWhile (· != .scalar '.')
  if ending.isEmpty || p.name.length ≤ ending.length + 1 then []
  else .scalar '.' :: ending.reverse

def relativeTo? (p base : Path) : Option Path :=
  if p.root = base.root && base.names.isPrefixOf p.names then
    some ⟨0, p.names.drop base.names.length⟩
  else none

end Path
end LocaleLift
