import LocaleLift.Files.Read
import LocaleLift.Log.Record

/-! The configuration of a run. The values of its settings may be any JSON; what they are used for
tells whether they fit. -/
namespace LocaleLift

/-- The settings of a run. -/
structure Config where
  ns : JsonValue
  commonNs : JsonValue
  commonFile : JsonValue
  function : JsonValue
  logLevel : JsonValue
  logFile : JsonValue
  ignore : List JsonValue
  maxFileSize : JsonValue
  deriving Repr

/-- A value is not of the kind that is needed. -/
structure WrongKind where
  deriving DecidableEq, Repr

/-- The parts of a value: the items of an array, the characters of a string, the keys of an
object. -/
def JsonValue.parts? : JsonValue → Option (List JsonValue)
  | array items => some items
  | string t => some (t.map fun c => .string [c])
  | object members => some (members.map fun (k, _) => .string k)
  | _ => none

namespace Config

def default : Config where
  ns := .string "test"
  commonNs := .string "common"
  commonFile := .string "common.json"
  function := .string "$t"
  logLevel := .string "INFO"
  logFile := .null
  ignore := [.string "**/node_modules/**", .string "**/dist/**", .string "**/.git/**"]
  maxFileSize := .int 2097152

def toPairs (c : Config) : List (Text × JsonValue) :=
  [("namespace", c.ns), ("common_namespace", c.commonNs), ("common_file", c.commonFile),
    ("translate_fn", c.function), ("log_level", c.logLevel), ("log_file", c.logFile),
    ("ignore", .array c.ignore), ("max_file_size", c.maxFileSize)]

def names : List Text :=
  default.toPairs.map (·.1)

def set (c : Config) (name : Text) (v : JsonValue) : Except WrongKind Config :=
  if name = "namespace" then .ok { c with ns := v }
  else if name = "common_namespace" then .ok { c with commonNs := v }
  else if name = "common_file" then .ok { c with commonFile := v }
  else if name = "translate_fn" then .ok { c with function := v }
  else if name = "log_level" then .ok { c with logLevel := v }
  else if name = "log_file" then .ok { c with logFile := v }
  else if name = "max_file_size" then .ok { c with maxFileSize := v }
  else if name = "ignore" then
    match v.parts? with
    | some parts => .ok { c with ignore := parts }
    | none => .error ⟨⟩
  else .error ⟨⟩

/-- Change several settings. A null leaves its setting as it is. -/
def override (c : Config) (changes : List (Text × JsonValue)) : Except WrongKind Config :=
  (changes.filter fun (_, v) => !v.isNull).foldlM (fun c (name, v) => c.set name v) c

/-- The name of the file that is read if no other is named. -/
def fileName : Text := "i18n_config.json"

private def record (level : Log.Level) (message : Text) : Log.Record :=
  ⟨.config, level, message⟩

/-- The settings in an object, as they change the default ones. Names that are none are passed over
with a warning. -/
def ofMembers (file : Text) (members : List (Text × JsonValue)) :
    List Log.Record × Except WrongKind Config :=
  let unknown := (members.filter fun (name, _) => !names.contains name).map (·.1)
  let warnings :=
    if unknown.isEmpty then []
    else [record .warning
      ("Ignoring unknown config keys in " ++ file ++ ": " ++ Text.join ", " (Text.sort unknown))]
  match default.override (members.filter fun (name, _) => names.contains name) with
  | .error e => (warnings, .error e)
  | .ok c => (warnings ++ [record .debug ("Loaded config from " ++ file)], .ok c)

/-- The value in the file of a configuration. An empty file is read as an empty object. -/
def valueIn? (t : FileTree) (p : Path) : Option JsonValue :=
  match t.readText p with
  | .error _ => none
  | .ok text => JsonValue.read? (if text.isEmpty then "\x7b\x7d" else text)

/-- Read the settings from a file that is there. What cannot be read leaves the default settings. -/
def read (t : FileTree) (p : Path) (shown : Text) : List Log.Record × Except WrongKind Config :=
  match valueIn? t p with
  | none => ([record .error ("Failed to read/parse " ++ shown ++ " (using defaults)")], .ok default)
  | some (.object members) => ofMembers shown members
  | some _ =>
    ([record .error ("Config " ++ shown ++ " must be a JSON object (using defaults)")], .ok default)

/-- Why settings could not be loaded. -/
inductive LoadError where
  | wrongKind
  | file (e : FileError)
  deriving DecidableEq, Repr

/-- Load the settings from a file, if one is named, or else from the file of the usual name in a
directory, if it is there. What is logged on the way comes first. -/
def load (t : FileTree) (directory : Path) (file : Option Path) :
    List Log.Record × Except LoadError Config :=
  let shown := (file.getD (directory.child fileName)).toText
  let p := match file with
    | some f => directory.append f
    | none => directory.child fileName
  match t.lookUp p with
  | .error e => ([], .error (.file e))
  | .ok none =>
    if file.isSome then
      ([record .error ("Config file not found: " ++ shown ++ " (using defaults)")], .ok default)
    else ([], .ok default)
  | .ok (some _) =>
    match read t p shown with
    | (records, .ok c) => (records, .ok c)
    | (records, .error _) => (records, .error .wrongKind)

end Config
end LocaleLift
