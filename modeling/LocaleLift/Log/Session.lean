import LocaleLift.Log.Logger

/-! Log sessions: records on their way to the console and to files, which are rolled over when they
have become large. -/
namespace LocaleLift.Log

/-- A log session: the files there are, the logger, what the console shows, and how often a log file
has been rolled over or opened again. -/
structure Session where
  tree : FileTree
  logger : Logger
  console : Text
  renewals : Nat
  deriving DecidableEq, Repr

namespace Session

def start (tree : FileTree) : Session :=
  ⟨tree, .initial, [], 0⟩

/-- Steps on a session that may fail for a file. -/
abbrev StepM := ExceptT FileError (StateM Session)

def onFiles {α : Type} (step : FileM α) : StepM α := do
  let s ← get
  let (result, tree) := (step.run.run s.tree : Except FileError α × FileTree)
  set { s with tree }
  match result with
  | .ok a => return a
  | .error e => throw e

/-- A step on the files that takes the file at a location away, or puts another one there. -/
def displacing (step : FileM Location) : StepM Unit := do
  let before := (← get).tree
  let place ← onFiles step
  modify fun s =>
    { s with logger := s.logger.mapStreams (.displace place (before.size place)) }

/-- Write a text to a file, in place of the one that is there. -/
def write (p : Path) (text : Text) : StepM Unit :=
  displacing (FileM.writeText p text)

def clear (p : Path) : StepM Unit := do
  if (← get).tree.isThere p then displacing (FileM.remove p)

def move (p q : Path) : StepM Unit := do
  let before := (← get).tree
  let (l, m) ← onFiles (FileM.move p q)
  modify fun s =>
    { s with logger := s.logger.mapStreams fun o => (o.displace m (before.size m)).move l m }

def setStream (i : Nat) (stream : Option OpenFile) : StepM Unit :=
  modify fun s => { s with logger := s.logger.setStream i stream }

def reopen (i : Nat) (f : LogFile) : StepM OpenFile := do
  modify fun s => { s with renewals := s.renewals + 1 }
  let place ← onFiles (FileM.openForAppending f.path)
  setStream i (some (.visible place))
  return .visible place

def shift (p : Path) (n : Nat) : StepM Unit := do
  if (← get).tree.isThere (backup p n) then
    clear (backup p (n + 1))
    move (backup p n) (backup p (n + 1))

/-- Roll a log file over: the older ones move on by one, and the file becomes the first of them. -/
def rollOver (i : Nat) (f : LogFile) : StepM OpenFile := do
  modify fun s => { s with renewals := s.renewals + 1 }
  setStream i none
  if 0 < f.rollover.backups then
    (List.range (f.rollover.backups - 1)).reverse.forM fun n => shift f.path (n + 1)
    clear (backup f.path 1)
    shift f.path 0
  reopen i f

def size (s : Session) : OpenFile → Nat
  | .visible place => s.tree.size place
  | .hidden n => n

/-- Whether a log file is rolled over before a line. Nothing but a file is. -/
def isDue (s : Session) (f : LogFile) (o : OpenFile) (line : Text) : Bool :=
  f.rollover.limit != 0 && (!s.tree.isThere f.path || s.tree.isFile f.path) &&
    f.rollover.limit ≤ s.size o + line.length

def append (i : Nat) (bytes : List UInt8) : OpenFile → StepM Unit
  | .visible place => modify fun s => { s with tree := s.tree.append place bytes }
  | .hidden n => setStream i (some (.hidden (n + bytes.length)))

/-- The file that is open for a handler, which is opened again if there is none. -/
def opened (i : Nat) (f : LogFile) : StepM OpenFile :=
  match f.stream with
  | some o => return o
  | none => reopen i f

/-- What a line is appended to: the file that is open, unless it is rolled over before. -/
def streamFor (line : Text) (i : Nat) (f : LogFile) (o : OpenFile) : StepM OpenFile := do
  if (← get).isDue f o line then rollOver i f else return o

def writeLine (line : Text) (i : Nat) (f : LogFile) : StepM Unit := do
  let o ← streamFor line i f (← opened i f)
  match Utf8.encode line with
  | some bytes => append i bytes o
  | none => throw .notEncodable

/-- Hand a record over to a handler. If it cannot be written to a file, the others still get it. -/
def handle (time : Text) (r : Record) (s : Session) (i : Nat) : Session :=
  match s.logger.handlers[i]? with
  | some .console => { s with console := s.console ++ r.consoleLine }
  | some (.file f) =>
    ((writeLine (r.fileLine time) i f).run.run s : Except FileError Unit × Session).2
  | none => s

/-- Log a record at a time. Before the logger is set up, warnings and worse are shown on the console
as they are. -/
def log (time : Text) (r : Record) (s : Session) : Session :=
  if !s.logger.admits r.level then s
  else if s.logger.handlers.isEmpty then
    if Level.warning ≤ r.level then { s with console := s.console ++ r.message ++ "\n" } else s
  else (List.range s.logger.handlers.length).foldl (handle time r) s

def addFile (rollover : Rollover) (file : Path) : StepM Unit := do
  let resolved ← match (← get).tree.resolve file with
    | .ok p => pure p
    | .error e => throw e
  if (← get).logger.files.any fun f => f.path == resolved then return
  onFiles (FileM.ensureDirectories file.parent)
  let path := file.withoutSteps
  let place ← onFiles (FileM.openForAppending path)
  modify fun s =>
    { s with logger := s.logger.withFile ⟨path, place, rollover, some (.visible place)⟩ }

def addConsole : StepM Unit :=
  modify fun s => { s with logger := s.logger.withConsole }

def setLevel (level : Level) : StepM Unit :=
  modify fun s => { s with logger := { s.logger with level } }

/-- Set the logger up: records go to the console, and to a file if one is named. Doing so again
changes the level and adds files. -/
def setUp (rollover : Rollover) (level : Level) (file : Option Path) : StepM Unit := do
  addConsole
  match file with
  | some f => addFile rollover f
  | none => pure ()
  setLevel level

end Session
end LocaleLift.Log
