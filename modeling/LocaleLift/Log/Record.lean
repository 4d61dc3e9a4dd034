import LocaleLift.Json.Value
import LocaleLift.Warning

/-! Log records, and how severe they are. -/
namespace LocaleLift.Log

/-- The severity of a record: the higher the number, the more severe. -/
abbrev Level := Int

namespace Level

def debug : Level := 10

def info : Level := 20

def warning : Level := 30

def error : Level := 40

def critical : Level := 50

/-- The names of levels; where two names mean one level, the first is shown. -/
def names : List (Text × Level) :=
  [("CRITICAL", critical), ("FATAL", critical), ("ERROR", error), ("WARNING", warning),
    ("WARN", warning), ("INFO", info), ("DEBUG", debug), ("NOTSET", 0)]

/-- The name of a level, or its number if it has none. -/
def name (l : Level) : Text :=
  match names.find? fun (_, m) => m == l with
  | some (n, _) => n
  | none => "Level " ++ Text.ofInt l

private def capital (c : CodePoint) : CodePoint :=
  if c.inRange 0x61 0x7A then (CodePoint.ofNat? (c.toNat - 0x20)).getD c
  else if c.toNat = 0x131 then .scalar 'I'
  else if c.toNat = 0x17F then .scalar 'S'
  else c

/-- The level of a name in letters of either case; of any other text, the level of what a run has
done. -/
def ofName (t : Text) : Level :=
  (names.lookup (t.map capital)).getD info

/-- The level that a setting names, by its name or its number. Null is no name. -/
def ofValue? : JsonValue → Option Level
  | .string t => some (ofName t)
  | .null => some info
  | .int n => some n
  | .bool b => some (if b then 1 else 0)
  | _ => none

end Level

/-- The part of the program that a record comes from. -/
inductive Origin where
  | program
  | config
  | dictionary
  | component
  | script
  | command
  deriving DecidableEq, Repr

def Origin.name : Origin → Text
  | program => "vue_zh_i18n"
  | config => "vue_zh_i18n.utils.config"
  | dictionary => "vue_zh_i18n.locale_files"
  | component => "vue_zh_i18n.sfc"
  | script => "vue_zh_i18n.script_rewriter"
  | command => "vue_zh_i18n.scripts.zh_i18n_extract"

/-- A log record. -/
structure Record where
  origin : Origin
  level : Level
  message : Text
  deriving DecidableEq, Repr

def Record.ofWarning (w : Warning) : Record :=
  let origin := match w with
    | .unparsedBinding _ => Origin.script
    | _ => Origin.component
  ⟨origin, Level.warning, w.message⟩

def Record.consoleLine (r : Record) : Text :=
  Level.name r.level ++ ": " ++ r.message ++ "\n"

/-- The line of a record in a log file, with the time. -/
def Record.fileLine (time : Text) (r : Record) : Text :=
  time ++ " " ++ r.origin.name ++ " " ++ r.consoleLine

end LocaleLift.Log
