import LocaleLift.Config
import LocaleLift.Diff.Hunk
import LocaleLift.Glob
import LocaleLift.Run.State

/-! The walk through a source tree, which localizes each unit into the output tree. -/
namespace LocaleLift.Run

/-- What a walk is asked to do. -/
structure Plan where
  /-- The root of the source tree. -/
  base : Path
  ns : JsonValue
  commonNs : JsonValue
  function : JsonValue
  /-- The patterns of paths to leave out; none for a value that is no pattern. -/
  ignore : List (Option Glob)
  dryRun : Bool
  diff : Bool
  failFast : Bool
  maxFileSize : JsonValue
  deriving Repr

/-- Whether a file has more bytes than a setting allows. A setting that is not filled allows any
number. -/
def isTooLarge (limit : JsonValue) (size : Nat) : Except Fault Bool :=
  if !limit.isFilled then .ok false
  else match limit with
    | .int n => .ok (n < size)
    | .real spelling => .ok ((Binary.ofText spelling).isBelow size)
    | .bool _ => .ok (1 < size)
    | _ => .error .wrongKind

def limitText : JsonValue → Text
  | .real spelling => Text.ofInt ((Binary.ofText spelling).truncate?.getD 0)
  | .bool _ => "1"
  | v => v.shown

/-- Whether a path is left out. Patterns are tried until one matches. -/
def isIgnored (base path : Path) (patterns : List (Option Glob)) : Except Fault Bool :=
  match Path.globText? base path with
  | none => .ok true
  | some t => go t patterns
where
  go (t : Text) : List (Option Glob) → Except Fault Bool
    | [] => .ok false
    | none :: _ => .error .wrongKind
    | some g :: gs => if g.isPathMatch t then .ok true else go t gs

def isName : JsonValue → Bool
  | .array _ | .object _ => false
  | _ => true

/-- Whether the name of the look-up function can be searched for in a source. -/
def suits (function : JsonValue) (path : Path) (text : Text) : Bool :=
  function.text?.isSome || UnitKind.ofPath? path != some .component ||
    !(Component.layout text).template.any Component.isLocalizable

def isFiled (ns : JsonValue) (r : Registry) : Bool :=
  isName ns || (r.texts ns.plain).isEmpty

variable [Script.Parser]

/-- Localize the text of a unit. Its texts are filed, and its warnings logged. -/
def localizeUnit (host : Host) (plan : Plan) (path : Path) (text : Text) :
    StepM (Except Failure Text) := do
  let s ← get
  let o := SourceUnit.process s.registry plan.ns.plain plan.function.plain path.toText text
  logAll host (o.warnings.map .ofWarning)
  if !suits plan.function path text then throw .wrongKind
  if !isFiled plan.ns o.registry || !isFiled plan.commonNs o.registry then throw .wrongKind
  modify fun s => { s with registry := o.registry }
  count fun c => { c with extracted := c.extracted + (o.registry.size - s.registry.size) }
  return o.result

/-- The new text of a unit. One that does not parse keeps its text, unless the run is to break off at
the first failure. -/
def renew (host : Host) (plan : Plan) (source : Path) (text : Text) : StepM Text := do
  match ← localizeUnit host plan source text with
  | .ok new => return new
  | .error (.unparsable d) =>
    count fun c => { c with failed := c.failed + 1 }
    log host .error ("Failed to transform " ++ source.toText ++ ": " ++
      Failure.report (.unparsable d))
    if plan.failFast then throw (.source (.unparsable d))
    return text
  | .error f => throw (.source f)

def noteChange (plan : Plan) (source : Path) (text new : Text) : StepM Unit := do
  if new ≠ text then
    count fun c => { c with changed := c.changed + 1 }
    if plan.diff then
      modify fun s => { s with diffs := s.diffs ++ [Diff.unified source text new] }

def visitUnit (host : Host) (plan : Plan) (source target : Path) : StepM Unit := do
  count fun c => { c with scanned := c.scanned + 1 }
  let size := ((← tree).readBytes source).toOption.getD [] |>.length
  if ← liftM (isTooLarge plan.maxFileSize size) then
    log host .warning ("Skipping large file (> " ++ limitText plan.maxFileSize ++ " bytes): " ++
      source.toText)
    count fun c => { c with skipped := c.skipped + 1 }
    return
  match (← tree).readText source with
  | .error e =>
    log host .error ("Failed to read " ++ source.toText ++ ": " ++ host.readWords e)
    count fun c => { c with failed := c.failed + 1 }
  | .ok text =>
    let new ← renew host plan source text
    noteChange plan source text new
    if plan.dryRun then return
    onSession (Log.Session.write target new)
    log host .info ("Converted " ++ source.toText ++ " => " ++ target.toText)

/-- Deal with an entry of a directory, unless it is left out. Links are passed over with a warning,
and `descend` walks through directories. -/
def enter (host : Host) (plan : Plan) (descend : Path → Path → StepM Unit) (source target : Path) :
    StepM Unit := do
  if ← liftM (isIgnored plan.base source plan.ignore) then return
  match (← tree).find false source with
  | .ok (_, some (.link _)) => log host .warning ("Skipping symlink: " ++ source.toText)
  | .ok (_, some .directory) => descend source target
  | .ok (_, some (.file _ _)) =>
    if (UnitKind.ofPath? source).isSome then visitUnit host plan source target
  | .error .nameTooLong => throw (.file .nameTooLong)
  | .error .nullInName => throw (.file .nullInName)
  | _ => return

/-- Walk through a directory, its entries in the order of their names. No path is longer than a file
system admits, which bounds the depth. -/
def walk (host : Host) (plan : Plan) : Nat → Path → Path → StepM Unit
  | 0, source, _ => throw (.directory source .nameTooLong)
  | depth + 1, source, target => do
    match (← tree).readNames source with
    | .error e => throw (.directory source e)
    | .ok names =>
      (Text.sort names).forM fun name =>
        enter host plan (walk host plan depth) (source.child name) (target.child name)

end LocaleLift.Run
