import LocaleLift.Assoc
import LocaleLift.Path
import LocaleLift.Text.Lines
import LocaleLift.Text.Utf8

/-! File trees, and how a path is found in one. -/
namespace LocaleLift

/-- What a place in a file tree holds. -/
inductive Entry where
  | directory
  | file (bytes : List UInt8) (mode : Nat)
  | link (target : Text)
  deriving DecidableEq, Repr

/-- A location is the names on the way from the root. -/
abbrev Location := List Text

/-- A file tree is a table of what its locations hold. The root is a directory and has no entry. -/
structure FileTree where
  entries : Assoc Location Entry
  deriving DecidableEq, Repr

/-- Why something could not be done to a file. -/
inductive FileError where
  | missing
  | occupied
  | notDirectory
  | isDirectory
  | linkLoop
  | nameTooLong
  /-- A name holds a null character. -/
  | nullInName
  /-- The text to write has no encoding. -/
  | notEncodable
  deriving DecidableEq, Repr

/-- Whether the file system refused, rather than the text or a name that it is never asked for. -/
def FileError.isOfSystem : FileError → Bool
  | notEncodable | nullInName => false
  | _ => true

def Path.hasNull (p : Path) : Bool :=
  p.names.any (·.contains (.scalar '\x00'))

namespace FileTree

def empty : FileTree := ⟨[]⟩

def get? (t : FileTree) (l : Location) : Option Entry :=
  if l.isEmpty then some .directory else Assoc.get? t.entries l

def set (t : FileTree) (l : Location) (e : Entry) : FileTree :=
  ⟨Assoc.insert t.entries l e⟩

def erase (t : FileTree) (l : Location) : FileTree :=
  ⟨t.entries.filter fun (m, _) => m != l⟩

/-- Where a location is once what stood at one has been moved to another. -/
def moved (l m k : Location) : Location :=
  if l.isPrefixOf k then m ++ k.drop l.length else k

/-- Move what stands at a location, with all that stands below it. -/
def move (t : FileTree) (l m : Location) : FileTree :=
  ⟨t.entries.map fun (k, e) => (moved l m k, e)⟩

def namesIn (t : FileTree) (l : Location) : List Text :=
  t.entries.filterMap fun (m, _) =>
    if m.dropLast = l then m.getLast? else none

/-- How many links may be followed on the way to one place. -/
def maxLinks : Nat := 40

def maxName : Nat := 255

def maxPath : Nat := 4095

/-- Follow names from a location. The last one need not be there; if it is a link, it is followed
only on request. -/
def findFrom (t : FileTree) (follow : Bool) (links : Nat) (here : Location) :
    List Text → Except FileError (Location × Option Entry)
  | [] => .ok (here, t.get? here)
  | name :: rest =>
    if name = ".." then findFrom t follow links here.dropLast rest
    else if maxName < Utf8.size name then .error .nameTooLong
    else
      let next := here ++ [name]
      match t.get? next with
      | none => if rest.isEmpty then .ok (next, none) else .error .missing
      | some .directory => findFrom t follow links next rest
      | some (.file bytes mode) =>
        if rest.isEmpty then .ok (next, some (.file bytes mode)) else .error .notDirectory
      | some (.link target) =>
        if rest.isEmpty && !follow then .ok (next, some (.link target))
        else match links with
          | 0 => .error .linkLoop
          | links + 1 =>
            let p := Path.ofText target
            findFrom t follow links (if p.root = 0 then here else []) (p.names ++ rest)
termination_by names => (links, names.length)

/-- The location that an absolute path leads to, and what it holds. -/
def find (t : FileTree) (follow : Bool) (p : Path) : Except FileError (Location × Option Entry) :=
  if p.hasNull then .error .nullInName
  else if maxPath < Utf8.size p.toText then .error .nameTooLong
  else t.findFrom follow maxLinks [] p.names

def lookUp (t : FileTree) (p : Path) : Except FileError (Option Entry) :=
  match t.find true p with
  | .ok (_, e) => .ok e
  | .error .nameTooLong => .error .nameTooLong
  | .error _ => .ok none

def isDirectory (t : FileTree) (p : Path) : Bool :=
  match t.find true p with
  | .ok (_, some .directory) => true
  | _ => false

def isThere (t : FileTree) (p : Path) : Bool :=
  match t.find true p with
  | .ok (_, some _) => true
  | _ => false

def isFile (t : FileTree) (p : Path) : Bool :=
  match t.find true p with
  | .ok (_, some (.file _ _)) => true
  | _ => false

def size (t : FileTree) (l : Location) : Nat :=
  match t.get? l with
  | some (.file bytes _) => bytes.length
  | _ => 0

def readBytes (t : FileTree) (p : Path) : Except FileError (List UInt8) := do
  match ← t.find true p with
  | (_, some (.file bytes _)) => return bytes
  | (_, some .directory) => throw .isDirectory
  | (_, some (.link _)) => throw .linkLoop
  | (_, none) => throw .missing

def readNames (t : FileTree) (p : Path) : Except FileError (List Text) := do
  match ← t.find true p with
  | (l, some .directory) => return t.namesIn l
  | (_, some _) => throw .notDirectory
  | (_, none) => throw .missing

/-- Follow all links in a path, as far as it leads. What is missing stays as it is. -/
def resolveFrom (t : FileTree) (links : Nat) (here : Location) :
    List Text → Except FileError Location
  | [] => .ok here
  | name :: rest =>
    if name = ".." then resolveFrom t links here.dropLast rest
    else match t.get? (here ++ [name]) with
      | some (.link target) =>
        match links with
        | 0 => .error .linkLoop
        | links + 1 =>
          let p := Path.ofText target
          resolveFrom t links (if p.root = 0 then here else []) (p.names ++ rest)
      | _ => resolveFrom t links (here ++ [name]) rest
termination_by names => (links, names.length)

def resolve (t : FileTree) (p : Path) : Except FileError Path :=
  if p.hasNull then .error .nullInName
  else (t.resolveFrom maxLinks [] p.names).map fun l => ⟨1, l⟩

end FileTree

/-- An absolute path without steps upwards, each of which undoes the step before it. -/
def Path.withoutSteps (p : Path) : Path :=
  let step (names : List Text) (n : Text) : List Text :=
    if n = ".." then names.dropLast else names ++ [n]
  { p with names := p.names.foldl step [] }

end LocaleLift
