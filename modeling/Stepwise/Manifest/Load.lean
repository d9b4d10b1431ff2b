import Stepwise.File.Disk
import Stepwise.Manifest.Decode

/-! Finding manifests and the programs they name. -/

namespace Stepwise

/-- Why there is nothing to run. -/
inductive LoadError where
  | emptyPath
  | cannotOpen (path : Path) (error : FileError)
  | noDocument (path : Path)
  | malformed (path : Path) (reason : Bytes)
  | invalid (issues : List Bytes)
  | notFound (origin : Path)
  | cannotLook (error : FileError)
  | noManifest
  | noSource
  | cannotRead (what : Bytes) (path : Path) (error : FileError)
  | cannotFetch (repository : Bytes)
  | noProgramGiven (why : LoadError)
  | unexpectedArguments (args : List Bytes)

def manifestName : Bytes := utf8 "c4c.yml"

namespace LoadError

def issueList (issues : List Bytes) : Bytes :=
  Bytes.join (utf8 "\n- ") (utf8 "manifest validation failed:" :: issues)

def text : LoadError → Bytes
  | .emptyPath => utf8 "manifest: empty path"
  | .cannotOpen path error => utf8 "manifest: open " ++ path ++ utf8 ": " ++ error.text
  | .noDocument path => utf8 "manifest: " ++ path ++ utf8 " is empty"
  | .malformed path reason => utf8 "manifest: parse " ++ path ++ utf8 ": " ++ reason
  | .invalid issues => issueList issues
  | .notFound origin =>
    utf8 "no " ++ manifestName ++ utf8 " found from " ++ origin
      ++ utf8 " upwards: manifest not found"
  | .cannotLook error => error.text
  | .noManifest => utf8 "driver: nil manifest"
  | .noSource => utf8 "git source: nil spec"
  | .cannotRead what path error =>
    utf8 "read " ++ what ++ [32] ++ path ++ utf8 ": " ++ error.text
  | .cannotFetch repository => utf8 "git clone " ++ repository ++ utf8 ": repository not reachable"
  | .noProgramGiven why => utf8 "no program given: " ++ why.text
  | .unexpectedArguments args => utf8 "unexpected arguments: " ++ Bytes.join [32] args

end LoadError

/-- A program text with the name that diagnostics give it. -/
structure SourceFile where
  name : Bytes
  text : Bytes
  /-- The commit it was taken from, if it comes from a repository. -/
  commit : Bytes

namespace Manifest

/-- Reads the text of a manifest that lies at an absolute path. -/
def parseAt (path : Path) (text : Bytes) : Except LoadError Manifest :=
  match RawManifest.read text with
  | .error .noDocument => .error (.noDocument path)
  | .error (.malformed reason) => .error (.malformed path reason)
  | .ok raw =>
    match raw.judge path with
    | .ok m => .ok m
    | .error issues => .error (.invalid (issues.map ManifestIssue.text))

def parse (workDir path : Path) (text : Bytes) : Except LoadError Manifest :=
  parseAt (Path.absolute workDir path) text

variable {m : Type → Type} [Monad m]

def load (disk : Disk m) (path : Path) : m (Except LoadError Manifest) := do
  if path.isEmpty then return .error .emptyPath
  let full := Path.absolute disk.workDir path
  match ← disk.read full with
  | .ok text => return parseAt full text
  | .error error =>
    if error.problem = .isDirectory then
      return .error (.malformed full (utf8 "yaml: input error: " ++ error.text))
    else return .error (.cannotOpen full error)

/-- Looks for a manifest in a directory and then in those above it; there are no more of them than
the path has bytes. -/
def findFrom (disk : Disk m) (origin : Path) : (left : Nat) → Path → m (Except LoadError Path)
  | 0, _ => return .error (.notFound origin)
  | left + 1, dir => do
    let candidate := Path.join [dir, manifestName]
    match ← disk.stat candidate with
    | .ok .file => return .ok candidate
    | .ok .directory => up left dir
    | .error error =>
      if error.problem = .noSuchFile then up left dir else return .error (.cannotLook error)
where
  up (left : Nat) (dir : Path) : m (Except LoadError Path) :=
    if Path.parent dir = dir then return .error (.notFound origin)
    else findFrom disk origin left (Path.parent dir)

/-- The nearest manifest from a file or directory upwards. -/
def find (disk : Disk m) (start : Path) : m (Except LoadError Path) := do
  let place := Path.absolute disk.workDir start
  let dir := match ← disk.stat place with
    | .ok .file => Path.parent place
    | _ => place
  findFrom disk dir (dir.length + 1) dir

/-- The program a manifest names. A repository cannot be reached from here; its specification is
still judged first. -/
def loadProgram (manifest : Manifest) (disk : Disk m) : m (Except LoadError SourceFile) := do
  match manifest.source with
  | some spec => return .error (fetchError spec)
  | none =>
    let path := manifest.programPath
    match ← disk.read path with
    | .ok text => return .ok ⟨path, text, []⟩
    | .error error => return .error (.cannotRead (utf8 "program") path error)
where
  fetchError (spec : SourceSpec) : LoadError :=
    match spec.issues with
    | [] => .cannotFetch spec.git
    | issues => .invalid (issues.map SourceIssue.text)

end Manifest

/-- Reads a file as a program; the text is given also when it is none. -/
def Program.ofFile {m : Type → Type} [Monad m] (disk : Disk m) (path : Path) :
    m (Except LoadError (Bytes × Except Diagnostic Program)) := do
  match ← disk.read path with
  | .ok text => return .ok (text, Program.read text)
  | .error error => return .error (.cannotRead (utf8 "source") path error)

end Stepwise
