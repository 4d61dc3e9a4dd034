import LocaleLift.Files.Read
import LocaleLift.Json.Write
import LocaleLift.Log.Session
import LocaleLift.Registry

/-! Dictionaries: the texts of each namespace as a JSON document, and the terms that all namespaces
share, which are the keys of one. -/
namespace LocaleLift.Dictionary

/-- The document of a namespace and its table: an object with the namespace as its only member. -/
def document (ns : Text) (table : Assoc Text Text) : Text :=
  let members := table.map fun (k, v) => (k, JsonValue.string v)
  JsonValue.write .indented (.object [(ns, .object members)]) ++ "\n"

def table (texts : List Text) : Assoc Text Text :=
  texts.map fun t => (t, t)

def documents (r : Registry) : List (Text × Text) :=
  r.serialize.map fun (ns, texts) => (ns, document ns (table texts))

def fileName (ns : Text) : Text :=
  ns ++ ".json"

private def record (level : Log.Level) (message : Text) : Log.Record :=
  ⟨.dictionary, level, message⟩

def termsOf (keys : List Text) : List Text :=
  ((keys.map Text.trim).filter fun k => !k.isEmpty).eraseDups

/-- Load the shared terms from the file of a given name. There are none if the file is not there or
no object is in it. `words` is what is said of a failure to read. What is logged comes first. -/
def loadTerms (words : ReadError → Text) (t : FileTree) (directory : Path) (name : Text) :
    List Log.Record × List Text :=
  if name.isEmpty then ([], [])
  else
    let p := Path.ofText name
    let shown := p.toText
    match t.readJson (directory.append p) with
    | .error (.file .missing) =>
      ([record .warning ("Common terms file not found: " ++ shown)], [])
    | .error e =>
      ([record .warning ("Failed to read common terms from " ++ shown ++ ": " ++ words e)], [])
    | .ok (.object members) =>
      let terms := termsOf (members.map (·.1))
      ([record .info ("Loaded " ++ Text.ofNat terms.length ++ " common terms from " ++ shown)],
        terms)
    | .ok _ =>
      ([record .warning
        ("Common terms file " ++ shown ++ " is not a JSON object; ignoring it")], [])

/-- A dictionary that has been written: its path and how many keys it has. -/
structure Written where
  path : Path
  keys : Nat
  deriving DecidableEq, Repr

def Written.record (w : Written) : Log.Record :=
  ⟨.dictionary, .info, "Wrote " ++ Text.ofNat w.keys ++ " keys to " ++ w.path.toText⟩

def path (directory : Path) (ns : Text) : Path :=
  directory.append (.ofText (fileName ns))

/-- Write the dictionary of one namespace. Paths are relative to `base`. -/
def writeOne (base directory : Path) (ns : Text) (texts : List Text) :
    Log.Session.StepM Written := do
  let p := path directory ns
  Log.Session.write (base.append p) (document ns (table texts))
  return ⟨p, texts.length⟩

/-- Write the dictionaries of all namespaces into a directory, and log each. -/
def writeAll (time : Text) (base directory : Path) (r : Registry) :
    Log.Session.StepM (List Written) := do
  Log.Session.onFiles (FileM.ensureDirectories (base.append directory))
  r.serialize.mapM fun (ns, texts) => do
    let w ← writeOne base directory ns texts
    modify (Log.Session.log time w.record)
    return w

end LocaleLift.Dictionary
