import Stepwise.Text.Blank

/-! Lines as they are typed, and the history that is kept of them. -/

namespace Stepwise

/-- A line, or the first part of one that is too long to be taken at once. -/
structure TypedLine where
  text : Bytes
  complete : Bool
  deriving DecidableEq, Repr

namespace TypedLine

/-- The bytes that are looked at for the end of a line. -/
def window : Nat := 4096

/-- The text without a carriage return that it ends in. -/
def dropReturn (text : Bytes) : Bytes := if Bytes.endsWith [13] text then text.dropLast else text

/-- Takes a line off the input. It ends before a line feed, with a carriage return before that left
out, or where the input ends. Of a longer line as much as fits the window is taken; a carriage
return at the end of that is left for the next line, as it may belong to a line feed. -/
def next? (input : Bytes) : Option (TypedLine × Bytes) :=
  let seen := input.take window
  let text := seen.takeWhile (· != 10)
  if input.isEmpty then none
  else if text.length < seen.length then
    some (⟨dropReturn text, true⟩, input.drop (text.length + 1))
  else if seen.length < window then some (⟨text, true⟩, [])
  else
    let part := dropReturn text
    some (⟨part, false⟩, input.drop part.length)

/-- All lines of an input; there are no more of them than bytes. -/
def allWithin : (bound : Nat) → Bytes → List TypedLine
  | 0, _ => []
  | bound + 1, input =>
    match next? input with
    | none => []
    | some (line, rest) => line :: allWithin bound rest

def all (input : Bytes) : List TypedLine := allWithin input.length input

end TypedLine

/-- Past lines, the oldest first. -/
structure History where
  lines : List Bytes
  deriving DecidableEq, Repr

namespace History

def empty : History := ⟨[]⟩

/-- The number of lines that are kept. -/
def limit : Nat := 1000

/-- Adds a line; the oldest one goes when there is no room. -/
def push (h : History) (line : Bytes) : History :=
  let lines := h.lines ++ [line]
  ⟨lines.drop (lines.length - limit)⟩

/-- Keeps a line unless it is blank or repeats the last one. -/
def note (h : History) (line : Bytes) : History :=
  if line.trim.isEmpty || h.lines.getLast? == some line then h else h.push line

/-- The lines of a history file up to the first that is too long or no text. -/
def ofFile (content : Bytes) : History :=
  ((TypedLine.all content).takeWhile fun line => line.complete && line.text.isUtf8).foldl
    (fun h line => h.push line.text) empty

def toFile (h : History) : Bytes := h.lines.flatMap (· ++ [10])

end History

end Stepwise
