import Stepwise.File.Tree
import Stepwise.History

/-! What a command works with: files, two outputs, the lines typed, the history file and the time.
A transcript is a console kept in memory. -/

namespace Stepwise

structure Console (m : Type → Type) where
  disk : Disk m
  out : Bytes → m Unit
  err : Bytes → m Unit
  /-- The next line typed, until there is none. -/
  line : m (Option Bytes)
  /-- What the history file holds, if there is one. -/
  history : m (Option Bytes)
  saveHistory : Bytes → m Unit
  pause : (nanoseconds : Int) → m Unit

namespace Console

variable {m : Type → Type} [Monad m]

def outLine (c : Console m) (text : Bytes) : m Unit := c.out (text ++ [10])

def errLine (c : Console m) (text : Bytes) : m Unit := c.err (text ++ [10])

end Console

/-- Input that is left, and what has been put out. -/
structure Transcript where
  input : Bytes
  out : Array Bytes
  err : Array Bytes
  history : Option Bytes

namespace Transcript

def start (input : Bytes) (history : Option Bytes) : Transcript := ⟨input, #[], #[], history⟩

def takeLine : StateM Transcript (Option Bytes) := fun t =>
  match TypedLine.next? t.input with
  | none => (none, t)
  | some (line, rest) => (some line.text, { t with input := rest })

/-- A console on files in memory, where no time passes. -/
def console (files : FileTree) : Console (StateM Transcript) where
  disk := files.disk
  out text := modify fun ⟨input, out, err, history⟩ => ⟨input, out.push text, err, history⟩
  err text := modify fun ⟨input, out, err, history⟩ => ⟨input, out, err.push text, history⟩
  line := takeLine
  history := return (← get).history
  saveHistory content := modify fun t => { t with history := some content }
  pause _ := return ()

end Transcript

end Stepwise
