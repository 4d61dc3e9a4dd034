import LocaleLift.Files.Write
import LocaleLift.Log.Record

/-! The logger: which records it lets through, and where they go. -/
namespace LocaleLift.Log

/-- A file that is open. It stays open wherever it is moved. Once it has been removed, or another file
has taken its place, its size alone matters. -/
inductive OpenFile where
  | visible (place : Location)
  | hidden (size : Nat)
  deriving DecidableEq, Repr

namespace OpenFile

/-- A file of some size at a place has gone from it. -/
def displace (place : Location) (size : Nat) : OpenFile → OpenFile
  | visible l => if l = place then hidden size else visible l
  | hidden n => hidden n

def move (l m : Location) : OpenFile → OpenFile
  | visible k => visible (FileTree.moved l m k)
  | hidden n => hidden n

def place? : OpenFile → Option Location
  | visible l => some l
  | hidden _ => none

end OpenFile

/-- When a log file is rolled over: before a line that would make it as large as the limit, unless
this is 0. So many older files are kept. -/
structure Rollover where
  limit : Nat
  backups : Nat
  deriving DecidableEq, Repr

/-- A log file may have up to a mebibyte, and five older ones are kept. -/
def Rollover.standard : Rollover := ⟨1024 * 1024, 5⟩

/-- A file that records go to: its path, and where this led when the file was asked for. There is no
stream if the file could not be opened again after it was rolled over. -/
structure LogFile where
  path : Path
  location : Location
  rollover : Rollover
  stream : Option OpenFile
  deriving DecidableEq, Repr

/-- The path of an older log file; number 0 is the file itself. -/
def backup (p : Path) : Nat → Path
  | 0 => p
  | n + 1 => p.parent.child (p.name ++ "." ++ Text.ofNat (n + 1))

/-- Where records go: to the console, or to a file. -/
inductive Handler where
  | console
  | file (file : LogFile)
  deriving DecidableEq, Repr

namespace Handler

def file? : Handler → Option LogFile
  | console => none
  | file f => some f

def mapFile (g : LogFile → LogFile) : Handler → Handler
  | console => console
  | file f => file (g f)

end Handler

/-- A logger has a level, and once it has been set up, handlers for its records. -/
structure Logger where
  level : Level
  handlers : List Handler
  deriving DecidableEq, Repr

namespace Logger

def initial : Logger := ⟨0, []⟩

def files (l : Logger) : List LogFile :=
  l.handlers.filterMap Handler.file?

@[simp] theorem files_initial : initial.files = [] := rfl

/-- The least severe level that is let through. A logger without a level lets warnings through. -/
def threshold (l : Logger) : Level :=
  if l.level = 0 then .warning else l.level

/-- Whether records of a level are let through. Only positive levels can be. -/
def admits (l : Logger) (level : Level) : Bool :=
  0 < level && l.threshold ≤ level

/-- The logger with a handler for the console, unless it has one. -/
def withConsole (l : Logger) : Logger :=
  if l.handlers.contains .console then l else { l with handlers := l.handlers ++ [.console] }

@[simp] theorem files_withConsole (l : Logger) : l.withConsole.files = l.files := by
  rw [withConsole]
  split
  · rfl
  · simp [files, Handler.file?]

def withFile (l : Logger) (file : LogFile) : Logger :=
  { l with handlers := l.handlers ++ [.file file] }

@[simp] theorem files_withFile (l : Logger) (file : LogFile) :
    (l.withFile file).files = l.files ++ [file] := by
  simp [files, withFile, Handler.file?]

def mapStreams (l : Logger) (g : OpenFile → OpenFile) : Logger :=
  { l with handlers := l.handlers.map (Handler.mapFile fun f => { f with stream := f.stream.map g }) }

@[simp] theorem files_mapStreams (l : Logger) (g : OpenFile → OpenFile) :
    (l.mapStreams g).files = l.files.map fun f => { f with stream := f.stream.map g } := by
  rw [files, mapStreams, List.filterMap_map, files, List.map_filterMap]
  refine congrArg (fun f => List.filterMap f l.handlers) (funext fun h => ?_)
  cases h <;> rfl

/-- Another file has been opened for a handler, or the one it had has been closed. -/
def setStream (l : Logger) (i : Nat) (stream : Option OpenFile) : Logger :=
  { l with handlers := l.handlers.modify i (Handler.mapFile fun f => { f with stream }) }

end Logger
end LocaleLift.Log
