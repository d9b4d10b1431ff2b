import Stepwise.Config.Yaml.Input
import Stepwise.Config.Yaml.Token

/-! A place in a document and the steps from it. -/

namespace Stepwise

namespace Yaml

/-- Stands for the end of the text; no text holds it. -/
def endOfText : Char := '\x00'

def isBlank (c : Char) : Bool := c = ' ' || c = '\t'

def isBreak (c : Char) : Bool :=
  c = '\n' || c = '\r' || c = '\u0085' || c = '\u2028' || c = '\u2029'

def endsLine (c : Char) : Bool := isBreak c || c = endOfText

/-- A mark stands alone when one of these comes after it. -/
def endsWord (c : Char) : Bool := isBlank c || endsLine c

def isWordChar (c : Char) : Bool := c.isAlphanum || c = '_' || c = '-'

def hexDigit? (c : Char) : Option Nat :=
  if c.isDigit then some (c.toNat - 48)
  else if 'a' ≤ c ∧ c ≤ 'f' then some (c.toNat - 87)
  else if 'A' ≤ c ∧ c ≤ 'F' then some (c.toNat - 55)
  else none

def encode (text : List Char) : Bytes := text.flatMap String.utf8EncodeChar

structure Cursor where
  rest : List Char
  mark : Mark
  /-- Line breaks since the last character that is no blank. -/
  breaks : Nat
  refusal : Option (Nat × Bytes)
  /-- No loop over what is left takes more rounds. -/
  bound : Nat

namespace Cursor

def ofInput (input : Input) : Cursor :=
  ⟨input.chars, .start, 0, input.refusal, input.chars.length + 4⟩

def here (c : Cursor) : Char := c.rest.headD endOfText

def ahead (c : Cursor) (n : Nat) : Char := (c.rest.drop n).headD endOfText

def skip (c : Cursor) : Cursor :=
  { c with
    rest := c.rest.tail
    mark := c.mark.next
    breaks := if isBlank c.here then c.breaks else 0 }

/-- Past a line break; a carriage return and a line feed are one. -/
def skipLine (c : Cursor) : Cursor :=
  match c.rest with
  | '\r' :: '\n' :: rest =>
    { c with rest, mark := c.mark.nextLine 2, breaks := c.breaks + 1 }
  | b :: rest =>
    if isBreak b then { c with rest, mark := c.mark.nextLine 1, breaks := c.breaks + 1 } else c
  | [] => c

/-- Whether a line starts here that begins or ends a document. -/
def atDocumentMark (c : Cursor) : Bool :=
  c.mark.column = 0 &&
    match c.rest with
    | '-' :: '-' :: '-' :: rest => endsWord (rest.headD endOfText)
    | '.' :: '.' :: '.' :: rest => endsWord (rest.headD endOfText)
    | _ => false

end Cursor

abbrev Reading := EStateM Fault Cursor

namespace Reading

/-- Makes sure of so many characters; it fails when they reach into a refused block. -/
def ensure (count : Nat) : Reading Unit := do
  let c ← get
  match c.refusal with
  | some (first, reason) =>
    if first < c.mark.index + count then throw (.characters reason) else pure ()
  | none => pure ()

def here : Reading Char := return (← get).here

def skip : Reading Unit := modify Cursor.skip

def skipLine : Reading Unit := modify Cursor.skipLine

/-- Fails at a token that starts at a mark. -/
def refuse {α : Type} (start : Mark) (message : String) : Reading α := do
  throw (.token start (← get).mark (utf8 message))

/-- The characters from here on that are as wanted. -/
def takeWhile (wanted : Char → Bool) : Reading (List Char) := do
  go (← get).bound []
where
  go : (left : Nat) → List Char → Reading (List Char)
    | 0, taken => return taken.reverse
    | left + 1, taken => do
      let c ← here
      if c ≠ endOfText && wanted c then
        skip
        ensure 1
        go left (c :: taken)
      else return taken.reverse

def skipWhile (unwanted : Char → Bool) : Reading Unit := do
  let _ ← takeWhile unwanted

def toLineEnd : Reading Unit := skipWhile fun c => !endsLine c

/-- Past a line break, which is given as it counts in a text: most kinds of it are a line feed. -/
def readLine : Reading (Option Char) := do
  let c ← here
  skipLine
  return if c = '\u2028' || c = '\u2029' then some c else if isBreak c then some '\n' else none

end Reading

end Yaml

end Stepwise
