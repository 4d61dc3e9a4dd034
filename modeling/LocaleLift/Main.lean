import LocaleLift.Log.Time
import LocaleLift.Run.Command

/-! The program: it reads the files a run may look at, runs, and carries out what the run has
changed. -/
namespace LocaleLift.Main

/-- The string of a text. What has no encoding is shown as a replacement character. -/
def toString (t : Text) : String :=
  String.ofList (t.map fun
    | .scalar c => c
    | .surrogate _ => '\ufffd')

def usage : String :=
  "usage: locale-lift --src SRC --out OUT [--module MODULE] [--common COMMON]\n" ++
  "                   [--locale-dir LOCALE_DIR] [--config CONFIG] [--ignore IGNORE]\n" ++
  "                   [--dry-run] [--diff] [--fail-fast] [--max-file-size MAX_FILE_SIZE]\n" ++
  "                   [--log-level LOG_LEVEL] [--log-file LOG_FILE]\n\n" ++
  "Extract Chinese text from components and scripts into calls and dictionaries\n\n" ++
  "  -h, --help            show this message\n" ++
  "  --src SRC             input root directory\n" ++
  "  --out OUT             output root directory, which mirrors the input\n" ++
  "  --module, -m MODULE   namespace of every extracted text\n" ++
  "  --common COMMON       JSON file whose keys are common terms\n" ++
  "  --locale-dir DIR      where dictionaries are written (the output root)\n" ++
  "  --config CONFIG       configuration file (i18n_config.json, if it is there)\n" ++
  "  --ignore IGNORE       glob pattern of paths to leave out, repeatable\n" ++
  "  --dry-run             report only, write nothing\n" ++
  "  --diff                print the changes as unified diffs\n" ++
  "  --fail-fast           break off at the first file that does not parse\n" ++
  "  --max-file-size N     skip larger files (0 for no limit)\n" ++
  "  --log-level LEVEL     DEBUG, INFO, WARNING or ERROR\n" ++
  "  --log-file FILE       also log to this file\n"

def errorWords : FileError → Text
  | .missing => "no such file or directory"
  | .occupied => "file exists"
  | .notDirectory => "not a directory"
  | .isDirectory => "is a directory"
  | .linkLoop => "too many levels of symbolic links"
  | .nameTooLong => "file name too long"
  | .nullInName => "embedded null byte"
  | .notEncodable => "the text has no encoding"

def readWords : ReadError → Text
  | .file e => errorWords e
  | .notText => "not valid UTF-8"
  | .notJson => "not valid JSON"

def now : IO Text := do
  let (_, file) ← IO.FS.createTempFile
  let time := (← file.metadata).modified
  IO.FS.removeFile file
  return Log.timeText time.sec (time.nsec.toNat / 1000000)

private def pathOf (p : Path) : String :=
  toString p.toText

/-- Read what is at a path, and below it on request, into a file tree. -/
partial def look (deep : Bool) (p : Path) (t : FileTree) : IO FileTree := do
  let file ← try IO.FS.realPath (pathOf p) catch _ => return t
  let real := Path.ofText file.toString
  if real ≠ p then look deep real (t.set p.names (.link real.toText))
  else if ← file.isDir then
    let mut t := t.set p.names .directory
    if deep then
      for e in ← file.readDir do
        let child := p.child e.fileName
        let link := (← e.path.symlinkMetadata).type == .symlink
        t ← if link then pure (t.set child.names (.link [])) else look deep child t
    return t
  else
    let bytes ← IO.FS.readBinFile file
    return t.set p.names (.file bytes.toList 0o644)

def lookFromRoot (deep : Bool) (t : FileTree) (p : Path) : IO FileTree := do
  let p := p.withoutSteps
  let mut t := t
  for n in List.range p.names.length do
    t ← look false ⟨1, p.names.take n⟩ t
  look deep p t

private def access (mode : Nat) : IO.AccessRight :=
  ⟨mode / 4 % 2 = 1, mode / 2 % 2 = 1, mode % 2 = 1⟩

def carryOut (before after : FileTree) : IO Unit := do
  for (l, e) in after.entries do
    let old := before.get? l
    if old ≠ some e then
      let name := pathOf ⟨1, l⟩
      match e with
      | .directory => IO.FS.createDirAll name
      | .file bytes mode =>
        IO.FS.writeBinFile name ⟨bytes.toArray⟩
        if old.isNone then
          IO.setAccessRights name ⟨access (mode / 64), access (mode / 8), access mode⟩
      | .link _ => pure ()

def gather (host : Run.Host) (a : Arguments) : IO FileTree := do
  let place (name : Text) : Path := host.directory.append (.ofText name)
  let t ← lookFromRoot false .empty host.directory
  let config := (a.config.filter fun c => !c.isEmpty).getD Config.fileName
  let t ← lookFromRoot false t (place config)
  let (result, _) := ((Run.loadConfig host a).run.run (.start t) :
    Except Run.Fault Config × Run.State)
  let named := match result with
    | .ok c => [c.commonFile, c.logFile].filterMap JsonValue.text?
    | .error _ => []
  let t ← named.foldlM (fun t n => lookFromRoot false t (place n)) t
  ([a.src, a.out] ++ a.localeDir.toList).foldlM (fun t n => lookFromRoot true t (place n)) t

def start (a : Arguments) : IO UInt32 := do
  let directory ← IO.currentDir
  let host : Run.Host := ⟨Path.ofText directory.toString, ← now, errorWords, readWords⟩
  let before ← gather host a
  let (result, s) := ((Run.run host a).run.run (.start before) : Except Run.Fault Nat × Run.State)
  carryOut before s.session.tree
  IO.eprint (toString s.session.console)
  IO.print (toString s.output)
  match result with
  | .ok code => return code.toUInt32
  | .error f =>
    let message : Text := match f with
      | .source f => f.report
      | .file e => errorWords e
      | .directory p e => p.toText ++ ": " ++ errorWords e
      | .wrongKind => "a setting has a value that cannot be used"
    IO.eprintln (toString message)
    return 1

end LocaleLift.Main

open LocaleLift in
def main (args : List String) : IO UInt32 := do
  match Arguments.read (args.map Text.ofString) with
  | .ok a => Main.start a
  | .error .help =>
    IO.print Main.usage
    return 0
  | .error .misuse =>
    IO.eprint Main.usage
    return 2
