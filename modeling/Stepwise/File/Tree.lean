import Stepwise.File.Disk

/-! Files kept in memory, as a tree of directories. -/

namespace Stepwise

/-- The components from the root to a file or directory. -/
abbrev Route := List Bytes

structure FileTree where
  workDir : Route
  files : List (Route × Bytes)
  /-- Directories that may be empty. -/
  directories : List Route

namespace FileTree

/-- A directory is there when it was made, or when something lies in it. -/
def isDirectory (t : FileTree) (r : Route) : Bool :=
  r.isEmpty || r.isPrefixOf t.workDir || t.files.any (fun (f, _) => f != r && r.isPrefixOf f)
    || t.directories.any (fun d => r.isPrefixOf d)

def file? (t : FileTree) (r : Route) : Option Bytes := t.files.lookup r

/-- A path is shorter than this. -/
def maxPath : Nat := 4096

/-- A component is at most this long. -/
def maxComponent : Nat := 255

/-- Follows one component from a place that has to be a directory. -/
def follow (t : FileTree) (place : Route) (component : Bytes) : Except FileProblem Route :=
  if !t.isDirectory place then
    .error (if (t.file? place).isSome then .notDirectory else .noSuchFile)
  else if component.isEmpty || component = Path.here then .ok place
  else if component = Path.up then .ok place.dropLast
  else if maxComponent < component.length then .error .nameTooLong
  else .ok (place ++ [component])

/-- Where a path leads; each component is followed in turn. -/
def resolve (t : FileTree) (p : Path) : Except FileProblem Route :=
  if p.contains 0 then .error .invalidPath
  else if p.isEmpty then .error .noSuchFile
  else if maxPath ≤ p.length then .error .nameTooLong
  else p.components.foldlM t.follow (if Path.isAbsolute p then [] else t.workDir)

def kind (t : FileTree) (p : Path) : Except FileProblem FileKind := do
  let r ← t.resolve p
  if t.isDirectory r then .ok .directory
  else if (t.file? r).isSome then .ok .file
  else .error .noSuchFile

def content (t : FileTree) (p : Path) : Except FileProblem Bytes := do
  let r ← t.resolve p
  if t.isDirectory r then .error .isDirectory
  else
    match t.file? r with
    | some bytes => .ok bytes
    | none => .error .noSuchFile

def disk {m : Type → Type} [Monad m] (t : FileTree) : Disk m :=
  ⟨47 :: Bytes.join [47] t.workDir, fun p => return t.kind p, fun p => return t.content p⟩

/-- Adds a file, or a directory when the path ends in a slash, below the working directory. -/
def add (t : FileTree) (p : Path) (bytes : Bytes) : FileTree :=
  let r := t.workDir ++ p.components.filter fun c => !c.isEmpty
  if Bytes.endsWith [47] p then { t with directories := r :: t.directories }
  else { t with files := (r, bytes) :: t.files }

end FileTree

end Stepwise
