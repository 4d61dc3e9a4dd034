import LocaleLift.Files.Tree

/-! Writing to files. A file is written as a whole or not at all. -/
namespace LocaleLift

/-- Steps on a file tree. A step that fails keeps what was done before it. -/
abbrev FileM := ExceptT FileError (StateM FileTree)

namespace FileM

def ask {α : Type} (f : FileTree → Except FileError α) : FileM α := do
  match f (← get) with
  | .ok a => return a
  | .error e => throw e

def makeDirectory (p : Path) : FileM Unit := do
  match ← ask fun t => t.find false p with
  | (l, none) => modify fun t => t.set l .directory
  | (_, some _) => throw .occupied

def ensureDirectory (p : Path) : FileM Unit := do
  try makeDirectory p
  catch e =>
    if e = .missing || !(← get).isDirectory p then throw e

/-- Make a directory, given by its names from the last one on, and those above it. -/
def ensureFrom (root : Nat) : List Text → FileM Unit
  | [] => ensureDirectory ⟨root, []⟩
  | name :: above => do
    let p : Path := ⟨root, (name :: above).reverse⟩
    try ensureDirectory p
    catch e =>
      if e = .missing then
        ensureFrom root above
        ensureDirectory p
      else throw e

def ensureDirectories (p : Path) : FileM Unit :=
  ensureFrom p.root p.names.reverse

/-- A name that no entry of a tree has, since it is longer than all of them. -/
def freshName (t : FileTree) : Text :=
  let lengths := t.entries.map fun (l, _) => (l.getLast?.map List.length).getD 0
  List.replicate (lengths.foldl max 0 + 1) (.scalar '~')

/-- How many bytes the name of a temporary file adds to the path of its directory. -/
def temporarySize : Nat := 12

/-- Make an empty file of a fresh name that only its owner may read and write. -/
def makeTemporary (directory : Path) : FileM Location := do
  let found (t : FileTree) : Except FileError (Location × Option Entry) :=
    if FileTree.maxPath < Utf8.size directory.toText + temporarySize then .error .nameTooLong
    else t.find true directory
  match ← ask found with
  | (l, some .directory) =>
    let temporary := l ++ [freshName (← get)]
    modify fun t => t.set temporary (.file [] 0o600)
    return temporary
  | (_, some _) => throw .notDirectory
  | (_, none) => throw .missing

def fill (l : Location) (text : Text) : FileM Unit := do
  match Utf8.encode text with
  | some bytes => modify fun t => t.set l (.file bytes 0o600)
  | none => throw .notEncodable

/-- Move a file to where a path leads, in place of a file or link there. -/
def rename (l : Location) (p : Path) : FileM Location := do
  match ← ask fun t => t.find false p with
  | (_, some .directory) => throw .isDirectory
  | (target, _) =>
    match (← get).get? l with
    | some e =>
      modify fun t => (t.erase l).set target e
      return target
    | none => throw .missing

def remove (p : Path) : FileM Location := do
  match ← ask fun t => t.find false p with
  | (_, some .directory) => throw .isDirectory
  | (_, none) => throw .missing
  | (l, some _) =>
    modify fun t => t.erase l
    return l

/-- Move what stands at one path to another one, in place of a file or link there. A directory is moved
neither over anything nor into itself. -/
def move (p q : Path) : FileM (Location × Location) := do
  match ← ask fun t => t.find false p with
  | (_, none) => throw .missing
  | (l, some e) =>
    match ← ask fun t => t.find false q with
    | (_, some .directory) => throw .isDirectory
    | (m, there) =>
      if e = .directory && (there.isSome || l.isPrefixOf m) then throw .notDirectory
      modify fun t => (t.erase m).move l m
      return (l, m)

def setMode (p : Path) (mode : Nat) : FileM Unit := do
  match ← ask fun t => t.find true p with
  | (l, some (.file bytes _)) => modify fun t => t.set l (.file bytes mode)
  | (_, some _) => return
  | (_, none) => throw .missing

def mode? (t : FileTree) (p : Path) : Option Nat :=
  match t.find true p with
  | .ok (_, some (.file _ mode)) => some (mode % 0o1000)
  | _ => none

/-- Put a text into a temporary file and move it to where a path leads. The temporary file goes if
something fails. -/
def replace (temporary : Location) (p : Path) (text : Text) : FileM Location := do
  try
    fill temporary text
    rename temporary p
  catch e =>
    modify fun t => t.erase temporary
    throw e

/-- Write a text to a file, whose permissions are kept if possible. It is written to a temporary file
first, which then takes the place of the old one. -/
def writeText (p : Path) (text : Text) : FileM Location := do
  ensureDirectories p.parent
  let mode? := mode? (← get) p
  let temporary ← makeTemporary p.parent
  let target ← replace temporary p text
  match mode? with
  | some mode => try setMode p mode catch _ => pure ()
  | none => pure ()
  return target

/-- Open a file for appending, which makes it if nothing is there. -/
def openForAppending (p : Path) : FileM Location := do
  match ← ask fun t => t.find true p with
  | (_, some .directory) => throw .isDirectory
  | (l, some _) => return l
  | (l, none) =>
    modify fun t => t.set l (.file [] 0o644)
    return l

end FileM

def FileTree.append (t : FileTree) (l : Location) (bytes : List UInt8) : FileTree :=
  match t.get? l with
  | some (.file old mode) => t.set l (.file (old ++ bytes) mode)
  | _ => t

end LocaleLift
