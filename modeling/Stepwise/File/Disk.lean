import Stepwise.File.Path

/-! Access to files, whatever they are kept in, and what can go wrong with it. -/

namespace Stepwise

inductive FileProblem where
  | noSuchFile
  | notDirectory
  | isDirectory
  | nameTooLong
  | invalidPath
  | other (reason : Bytes)
  deriving DecidableEq, Repr

def FileProblem.reason : FileProblem → Bytes
  | .noSuchFile => utf8 "no such file or directory"
  | .notDirectory => utf8 "not a directory"
  | .isDirectory => utf8 "is a directory"
  | .nameTooLong => utf8 "file name too long"
  | .invalidPath => utf8 "invalid argument"
  | .other reason => reason

/-- What was being done to which file when a problem arose. -/
structure FileError where
  action : Bytes
  path : Path
  problem : FileProblem
  deriving DecidableEq, Repr

def FileError.text (e : FileError) : Bytes :=
  e.action ++ [32] ++ e.path ++ utf8 ": " ++ e.problem.reason

inductive FileKind where
  | file
  | directory
  deriving DecidableEq, Repr

/-- The files that a program can reach. A relative path starts from the working directory. -/
structure Disk (m : Type → Type) where
  workDir : Path
  kind : Path → m (Except FileProblem FileKind)
  content : Path → m (Except FileProblem Bytes)

namespace Disk

variable {m : Type → Type} [Monad m]

/-- Reads a file. A directory can be opened, but not read. -/
def read (disk : Disk m) (p : Path) : m (Except FileError Bytes) := do
  match ← disk.content p with
  | .ok bytes => return .ok bytes
  | .error .isDirectory => return .error ⟨utf8 "read", p, .isDirectory⟩
  | .error problem => return .error ⟨utf8 "open", p, problem⟩

def stat (disk : Disk m) (p : Path) : m (Except FileError FileKind) := do
  match ← disk.kind p with
  | .ok kind => return .ok kind
  | .error problem => return .error ⟨utf8 "stat", p, problem⟩

end Disk

end Stepwise
