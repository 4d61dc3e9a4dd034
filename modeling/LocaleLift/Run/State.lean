import LocaleLift.Files.Read
import LocaleLift.Json.Write
import LocaleLift.Log.Session
import LocaleLift.SourceUnit

/-! The state of a run, and the ways it can end early. -/
namespace LocaleLift.Run

/-- How many units were handed over, and what became of them. -/
structure Stats where
  scanned : Nat
  changed : Nat
  failed : Nat
  skipped : Nat
  extracted : Nat
  deriving DecidableEq, Repr

namespace Stats

def zero : Stats := ⟨0, 0, 0, 0, 0⟩

def text (s : Stats) : Text :=
  let count (name : Text) (n : Nat) : Text × JsonValue := (name, .int n)
  JsonValue.write .compact (.object
    [count "scanned" s.scanned, count "changed" s.changed, count "failed" s.failed,
      count "skipped" s.skipped, count "extracted" s.extracted])

end Stats

/-- Why a run breaks off. -/
inductive Fault where
  /-- A source could not be localized. -/
  | source (f : Failure)
  /-- A file could not be written, or the log file not be opened. -/
  | file (e : FileError)
  /-- A directory of sources could not be read. -/
  | directory (p : Path) (e : FileError)
  /-- A setting has a value that cannot be used. -/
  | wrongKind
  deriving DecidableEq, Repr

/-- What a run is told by the machine: the directory it works in, the time, and how errors of the
file system are worded. -/
structure Host where
  directory : Path
  time : Text
  errorWords : FileError → Text
  readWords : ReadError → Text

/-- The state of a run: files, logger and console, the texts found, the counts, the diffs, and what
has been printed. -/
structure State where
  session : Log.Session
  registry : Registry
  stats : Stats
  diffs : List Text
  output : Text
  deriving Repr

def State.start (tree : FileTree) : State :=
  ⟨.start tree, .empty (.ofList [] []), .zero, [], []⟩

/-- Steps of a run. A step that breaks off keeps what was done before it. -/
abbrev StepM := ExceptT Fault (StateM State)

def onSession {α : Type} (step : Log.Session.StepM α) : StepM α := do
  let s ← get
  let (result, session) := (step.run.run s.session : Except FileError α × Log.Session)
  set { s with session }
  match result with
  | .ok a => return a
  | .error e => throw (.file e)

def tree : StepM FileTree := do
  return (← get).session.tree

def logAll (host : Host) (rs : List Log.Record) : StepM Unit :=
  modify fun s => { s with session := rs.foldl (fun s r => s.log host.time r) s.session }

def log (host : Host) (level : Log.Level) (message : Text) : StepM Unit :=
  logAll host [⟨.command, level, message⟩]

def count (f : Stats → Stats) : StepM Unit :=
  modify fun s => { s with stats := f s.stats }

end LocaleLift.Run
