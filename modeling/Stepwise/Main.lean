import Stepwise.Command

/-! The command line: a console on the files, the standard streams and the clock of the machine. -/

namespace Stepwise

namespace Machine

def problemOf : IO.Error → FileProblem
  | .noFileOrDirectory _ _ _ => .noSuchFile
  | .inappropriateType none _ _ => .isDirectory
  | .inappropriateType (some _) _ _ => .notDirectory
  | error => .other (utf8 (toString error))

def content (p : Path) : IO (Except FileProblem Bytes) := do
  try
    return .ok (← IO.FS.readBinFile p.toText).data.toList
  catch error => return .error (problemOf error)

def kind (p : Path) : IO (Except FileProblem FileKind) := do
  match ← content p with
  | .ok _ => return .ok .file
  | .error .isDirectory => return .ok .directory
  | .error problem => return .error problem

def disk : IO (Disk IO) := do
  return ⟨utf8 (← IO.currentDir).toString, kind, content⟩

def put (stream : IO.FS.Stream) (text : Bytes) : IO Unit := do
  stream.write ⟨text.toArray⟩
  stream.flush

/-- Reads on until there is a line to take, or as much as a line may take, or no more. -/
partial def await (stream : IO.FS.Stream) (pending : Bytes) : IO Bytes := do
  if pending.contains 10 || TypedLine.window ≤ pending.length then return pending
  let more ← stream.read 4096
  if more.isEmpty then return pending
  await stream (pending ++ more.data.toList)

def line (stream : IO.FS.Stream) (pending : IO.Ref Bytes) : IO (Option Bytes) := do
  match TypedLine.next? (← await stream (← pending.get)) with
  | none => return none
  | some (line, rest) =>
    pending.set rest
    return some line.text

def historyPath : IO Path := do
  return Path.join [utf8 ((← IO.getEnv "HOME").getD ""), utf8 ".c4c_history"]

def saveHistory (text : Bytes) : IO Unit := do
  try
    IO.FS.writeBinFile (← historyPath).toText ⟨text.toArray⟩
  catch _ => return ()

/-- Waits at least as long as asked for. -/
def pause (nanoseconds : Int) : IO Unit :=
  IO.sleep ((nanoseconds + 999999) / 1000000).toNat.toUInt32

def console : IO (Console IO) := do
  let input ← IO.getStdin
  let pending ← IO.mkRef []
  return {
    disk := ← disk
    out := put (← IO.getStdout)
    err := put (← IO.getStderr)
    line := line input pending
    history := return (← content (← historyPath)).toOption
    saveHistory
    pause }

end Machine

end Stepwise

def main (args : List String) : IO UInt32 := do
  let console ← Stepwise.Machine.console
  return (← Stepwise.Command.obey console (args.map Stepwise.utf8)).toUInt32
