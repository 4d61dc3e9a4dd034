import LocaleLift.Text.Number

/-! The command line: options with and without values. -/
namespace LocaleLift

/-- The options of the command line. -/
inductive Opt where
  | help
  | src
  | out
  | module
  | common
  | localeDir
  | config
  | ignore
  | dryRun
  | diff
  | failFast
  | maxFileSize
  | logLevel
  | logFile
  deriving DecidableEq, Repr

namespace Opt

def all : List Opt :=
  [help, src, out, module, common, localeDir, config, ignore, dryRun, diff, failFast, maxFileSize,
    logLevel, logFile]

def name : Opt → Text
  | help => "--help"
  | src => "--src"
  | out => "--out"
  | module => "--module"
  | common => "--common"
  | localeDir => "--locale-dir"
  | config => "--config"
  | ignore => "--ignore"
  | dryRun => "--dry-run"
  | diff => "--diff"
  | failFast => "--fail-fast"
  | maxFileSize => "--max-file-size"
  | logLevel => "--log-level"
  | logFile => "--log-file"

def letters : List (CodePoint × Opt) :=
  [(.scalar 'h', help), (.scalar 'm', module)]

def takesValue : Opt → Bool
  | help | dryRun | diff | failFast => false
  | _ => true

def ofName? (t : Text) : Option Opt :=
  match t with
  | [.scalar '-', c] => letters.lookup c
  | t => all.find? (·.name == t)

end Opt

/-- What is asked for on the command line. -/
structure Arguments where
  src : Text
  out : Text
  module : Option Text
  common : Option Text
  localeDir : Option Text
  config : Option Text
  ignore : List Text
  dryRun : Bool
  diff : Bool
  failFast : Bool
  maxFileSize : Option Int
  logLevel : Option Text
  logFile : Option Text
  deriving DecidableEq, Repr

namespace Arguments

/-- Why there are no arguments to run with: help is asked for, or they make no sense. -/
inductive Refusal where
  | help
  | misuse
  deriving DecidableEq, Repr

/-- A word of the command line, told apart by its look. -/
inductive Word where
  /-- An option by its full name, with a value if one is attached. -/
  | option (o : Opt) (attached : Option Text)
  /-- A letter, with what is attached to it. -/
  | letter (o : Opt) (attached : Text)
  /-- Something that looks like an option but is none. -/
  | unknown
  /-- The mark after which nothing is an option. -/
  | mark
  | value (t : Text)
  deriving DecidableEq, Repr

/-- Whether a text is a negative number, which does not look like an option. -/
def isNegativeNumber (t : Text) : Bool :=
  match t with
  | .scalar '-' :: t =>
    let t := if t.getLast? == some (.scalar '\n') then t.dropLast else t
    let fraction := t.drop (t.takeWhile (·.isDigit)).length
    match fraction with
    | [] => !t.isEmpty
    | .scalar '.' :: more => !more.isEmpty && more.all (·.isDigit)
    | _ => false
  | _ => false

private def splitAtEquals (t : Text) : Text × Option Text :=
  let name := t.takeWhile (· != .scalar '=')
  (name, if name.length = t.length then none else some (t.drop (name.length + 1)))

private def abbreviated (t : Text) : Except Refusal (Option Word) :=
  let (name, attached) := splitAtEquals t
  match Opt.all.filter fun o => Text.startsWith name o.name with
  | [] => .ok none
  | [o] => .ok (some (.option o attached))
  | _ => .error .misuse

private def attachedToLetter (t : Text) : Option Word :=
  match t with
  | .scalar '-' :: c :: more => (Opt.letters.lookup c).map fun o => .letter o more
  | _ => none

/-- The word that a text is. Long names may be cut short as long as they are clear. -/
def Word.ofText (t : Text) : Except Refusal Word := do
  if t.head? != some (.scalar '-') || t.length = 1 then return .value t
  if let some o := Opt.ofName? t then return .option o none
  let (name, attached) := splitAtEquals t
  if let (some o, some v) := (Opt.ofName? name, attached) then
    return if name.length = 2 then .letter o v else .option o (some v)
  let clear ← if Text.startsWith "--" t then abbreviated t else pure (attachedToLetter t)
  match clear with
  | some w => return w
  | none =>
    if isNegativeNumber t || t.contains (.scalar ' ') then return .value t else return .unknown

def words : List Text → Except Refusal (List Word)
  | [] => return []
  | t :: ts => do
    if t = "--" then return .mark :: ts.map .value
    let w ← Word.ofText t
    return w :: (← words ts)

/-- What has been asked for so far, and whether anything was out of place. -/
structure Gathered where
  values : List (Opt × Text)
  flags : List Opt
  misplaced : Bool
  deriving DecidableEq, Repr

namespace Gathered

def empty : Gathered := ⟨[], [], false⟩

def take (g : Gathered) (o : Opt) (v : Text) : Except Refusal Gathered :=
  if o = .maxFileSize && (Text.toInt? v).isNone then .error .misuse
  else .ok { g with values := g.values ++ [(o, v)] }

/-- Take an option without a value. Help is given at once. -/
def flag (g : Gathered) (o : Opt) : Except Refusal Gathered :=
  if o = .help then .error .help else .ok { g with flags := g.flags ++ [o] }

def last? (g : Gathered) (o : Opt) : Option Text :=
  ((g.values.filter fun (p, _) => p == o).getLast?).map (·.2)

def all (g : Gathered) (o : Opt) : List Text :=
  (g.values.filter fun (p, _) => p == o).map (·.2)

end Gathered

/-- What the letters after one for help lead to: other letters without a value, and at last
perhaps one with a value, which follows or is attached. -/
def lettersAfterHelp (next : Option Word) : Text → Refusal
  | [] => .help
  | c :: more =>
    match Opt.letters.lookup c with
    | none => .misuse
    | some o =>
      if o.takesValue then
        if !more.isEmpty then .help
        else match next with
          | some (.value _) => .help
          | _ => .misuse
      else lettersAfterHelp next more

def gather (g : Gathered) : List Word → Except Refusal Gathered
  | [] => .ok g
  | .value _ :: ws | .unknown :: ws | .mark :: ws => gather { g with misplaced := true } ws
  | .option o (some v) :: ws =>
    if o.takesValue then do gather (← g.take o v) ws else .error .misuse
  | .letter o v :: ws =>
    if o.takesValue then do gather (← g.take o v) ws
    else if v.isEmpty then .error .misuse
    else .error (lettersAfterHelp ws.head? v)
  | [.option o none] => if o.takesValue then .error .misuse else g.flag o
  | .option o none :: .value v :: ws =>
    if o.takesValue then do gather (← g.take o v) ws
    else do gather (← g.flag o) (.value v :: ws)
  | .option o none :: w :: ws =>
    if o.takesValue then .error .misuse else do gather (← g.flag o) (w :: ws)

/-- Read a command line. The source and the output directory must be given; of an option given
several times the last value counts, but every pattern to ignore does. -/
def read (line : List Text) : Except Refusal Arguments := do
  let g ← gather .empty (← words line)
  let some src := g.last? .src | throw .misuse
  let some out := g.last? .out | throw .misuse
  if g.misplaced then throw .misuse
  return {
    src, out
    module := g.last? .module
    common := g.last? .common
    localeDir := g.last? .localeDir
    config := g.last? .config
    ignore := g.all .ignore
    dryRun := g.flags.contains .dryRun
    diff := g.flags.contains .diff
    failFast := g.flags.contains .failFast
    maxFileSize := (g.last? .maxFileSize).bind Text.toInt?
    logLevel := g.last? .logLevel
    logFile := g.last? .logFile }

end Arguments
end LocaleLift
