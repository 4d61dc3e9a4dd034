import LocaleLift.Arguments
import LocaleLift.Dictionary
import LocaleLift.Run.Walk

/-! The command: from a command line to converted sources, dictionaries and an exit code. -/
namespace LocaleLift.Run

def overrides (a : Arguments) : List (Text × JsonValue) :=
  let text (t : Option Text) : JsonValue := (t.map JsonValue.string).getD .null
  [("namespace", text a.module), ("common_file", text a.common), ("log_level", text a.logLevel),
    ("log_file", text a.logFile), ("max_file_size", (a.maxFileSize.map JsonValue.int).getD .null)]

/-- Break off where a setting has no value that can be used. -/
def orWrongKind {α : Type} (x : Option α) : StepM α :=
  match x with
  | some a => return a
  | none => throw .wrongKind

def filledText (v : JsonValue) : StepM (Option Text) :=
  if v.isFilled then some <$> orWrongKind v.text? else return none

def loadConfig (host : Host) (a : Arguments) : StepM Config := do
  let file := (a.config.filter fun c => !c.isEmpty).map Path.ofText
  let (records, loaded) := Config.load (← tree) host.directory file
  logAll host records
  let config ← match loaded with
    | .ok c => pure c
    | .error .wrongKind => throw .wrongKind
    | .error (.file e) => throw (.file e)
  orWrongKind (config.override (overrides a)).toOption

def setUpLogger (host : Host) (c : Config) : StepM Unit := do
  onSession Log.Session.addConsole
  match ← filledText c.logFile with
  | some name => onSession (Log.Session.addFile .standard (host.directory.append (.ofText name)))
  | none => pure ()
  onSession (Log.Session.setLevel (← orWrongKind (Log.Level.ofValue? c.logLevel)))

/-- Follow the links of a path that is given on the command line. -/
def resolve (host : Host) (name : Text) : StepM Path := do
  match (← tree).resolve (host.directory.append (.ofText name)) with
  | .ok p => return p
  | .error e => throw (.file e)

def outputPatterns (src out : Path) : List Text :=
  match out.relativeTo? src with
  | some r => [r.toText, r.toText ++ "/*"]
  | none => []

def loadTerms (host : Host) (c : Config) : StepM CommonTerms := do
  match ← filledText c.commonFile with
  | none => return .ofList [] c.commonNs.plain
  | some name =>
    let (records, terms) := Dictionary.loadTerms host.readWords (← tree) host.directory name
    logAll host records
    return .ofList terms c.commonNs.plain

def isOrdered (a b : JsonValue) : Bool :=
  a.text?.isSome == b.text?.isSome

/-- What is said of a run that breaks off in an orderly way; there is nothing to say of other ways,
which go on. -/
def abortion? (host : Host) : Fault → Option Text
  | .source (.unparsable d) => some (Failure.report (.unparsable d))
  | .file e => if e.isOfSystem then some (host.errorWords e) else none
  | .directory p e => some ("Failed to list " ++ p.toText ++ ": " ++ host.errorWords e)
  | _ => none

variable [Script.Parser]

/-- Walk through the sources. If the walk breaks off in an orderly way, the answer is false. -/
def convert (host : Host) (plan : Plan) (out : Path) : StepM Bool := do
  try
    walk host plan FileTree.maxPath plan.base out
    pure true
  catch e =>
    match abortion? host e with
    | some message =>
      log host .error ("Aborting run, no dictionary written: " ++ message)
      pure false
    | none => throw e

/-- Write the dictionaries. If they cannot be written, the answer is false. -/
def writeDictionaries (host : Host) (plan : Plan) (directory : Path) : StepM Bool := do
  try
    let r := (← get).registry
    if 2 ≤ r.entries.length && !isOrdered plan.ns plan.commonNs then
      onSession (Log.Session.onFiles (FileM.ensureDirectories directory))
      throw .wrongKind
    let _ ← onSession (Dictionary.writeAll host.time host.directory directory r)
    pure true
  catch e =>
    match e with
    | .file f =>
      if f.isOfSystem then
        log host .error ("Failed to write dictionaries to " ++ directory.toText ++ ": " ++
          host.errorWords f)
        pure false
      else throw e
    | _ => throw e

def announceDictionaries (host : Host) (plan : Plan) (directory : Path) : StepM Unit := do
  let r := (← get).registry
  if 2 ≤ r.entries.length && !isOrdered plan.ns plan.commonNs then throw .wrongKind
  let files := Text.join ", " (r.namespaces.map Dictionary.fileName)
  log host .info ("Dry run: would write " ++
    (if files.isEmpty then Text.ofString "nothing" else files) ++
    " to " ++ directory.toText)

/-- Get ready to walk: load the settings, set the logger up, and find the roots. The answer is the
plan and the root of the output tree, or none if the roots cannot be used. -/
def prepare (host : Host) (a : Arguments) : StepM (Option (Plan × Path)) := do
  let config ← loadConfig host a
  setUpLogger host config
  let src ← resolve host a.src
  let out ← resolve host a.out
  if !(← tree).isDirectory src then
    log host .error ("Input root not found or not a directory: " ++ src.toText)
    return none
  if out = src then
    log host .error ("Output root must differ from the input root: " ++ out.toText)
    return none
  let terms ← loadTerms host config
  modify fun s => { s with registry := .empty terms }
  let patterns := (a.ignore ++ outputPatterns src out).map fun t => some (Glob.ofText t)
  let plan : Plan := {
    base := src
    ns := config.ns
    commonNs := config.commonNs
    function := config.function
    ignore := config.ignore.map (fun v => v.text?.map Glob.ofText) ++ patterns
    dryRun := a.dryRun
    diff := a.diff
    failFast := a.failFast
    maxFileSize := config.maxFileSize }
  return some (plan, out)

/-- The directory of the dictionaries: the one that is named, or the root of the output tree. -/
def dictionaryDirectory (host : Host) (a : Arguments) (out : Path) : StepM Path :=
  match a.localeDir.filter fun d => !d.isEmpty with
  | some d => resolve host d
  | none => return out

/-- How a run ends, unless it breaks off with a fault. -/
inductive Outcome where
  /-- The roots cannot be used, or the walk or the writing of the dictionaries broke off. -/
  | broken
  /-- Everything was done. -/
  | finished (plan : Plan) (out directory : Path) (stats : Stats)
  deriving Repr

/-- The exit code of a run. It is 0 if all went well, 1 if a unit failed, and 2 if the run broke
off. -/
def Outcome.code : Outcome → Nat
  | broken => 2
  | finished _ _ _ stats => if 0 < stats.failed then 1 else 0

/-- Write the dictionaries, or in a dry run say which would be written. If they cannot be written, the
answer is false. -/
def finishDictionaries (host : Host) (plan : Plan) (directory : Path) : StepM Bool := do
  if plan.dryRun then
    announceDictionaries host plan directory
    return true
  else writeDictionaries host plan directory

def complete (host : Host) (a : Arguments) (plan : Plan) (out : Path) : StepM Outcome := do
  if !(← convert host plan out) then return .broken
  modify fun s => { s with output := if a.diff then Text.join "\n" s.diffs else s.output }
  let directory ← dictionaryDirectory host a out
  if !(← finishDictionaries host plan directory) then return .broken
  let stats := (← get).stats
  log host .info ("Done. " ++ stats.text)
  return .finished plan out directory stats

def perform (host : Host) (a : Arguments) : StepM Outcome := do
  match ← prepare host a with
  | some (plan, out) => complete host a plan out
  | none => return .broken

/-- Run with the arguments of a command line. The result is the exit code. -/
def run (host : Host) (a : Arguments) : StepM Nat := do
  return (← perform host a).code

end LocaleLift.Run
