import Stepwise.Number.Decimal

/-! The tokens of a document, and what can be wrong with one. -/

namespace Stepwise

namespace Yaml

/-- A place: the characters before it, the lines before it, and the characters before it on its
line. -/
structure Mark where
  index : Nat
  line : Nat
  column : Nat
  deriving DecidableEq, Repr

namespace Mark

def start : Mark := ⟨0, 0, 0⟩

def next (m : Mark) : Mark := ⟨m.index + 1, m.line, m.column + 1⟩

/-- The place after a line break of so many characters. -/
def nextLine (m : Mark) (width : Nat) : Mark := ⟨m.index + width, m.line + 1, 0⟩

end Mark

/-- Why a text is no document: its characters, its tokens, their order, or what they say. The two
marks are where the thing at fault starts and where the fault was noticed. -/
inductive Fault where
  | characters (message : Bytes)
  | token (context problem : Mark) (message : Bytes)
  | order (context problem : Mark) (message : Bytes)
  | meaning (message : Bytes)

namespace Fault

/-- The first of two lines that is not the first line of the text. -/
def lineOf (context problem : Mark) : Option Nat :=
  if context.line ≠ 0 then some context.line
  else if problem.line ≠ 0 then some problem.line
  else none

def placed (line : Option Nat) (message : Bytes) : Bytes :=
  match line with
  | some n => utf8 "yaml: line " ++ Decimal.ofNat n ++ utf8 ": " ++ message
  | none => utf8 "yaml: " ++ message

/-- The line of a token counts from one, the line of a fault in the order from zero, and the first
line is never named. -/
def text : Fault → Bytes
  | .characters message => placed none message
  | .token context problem message => placed ((lineOf context problem).map (· + 1)) message
  | .order context problem message => placed (lineOf context problem) message
  | .meaning message => placed none message

end Fault

inductive Token.Kind where
  | streamStart
  | streamEnd
  | version (major minor : Nat)
  | tagHandle (handle expansion : Bytes)
  | documentStart
  | documentEnd
  | blockSequenceStart
  | blockMappingStart
  | blockEnd
  | flowSequenceStart
  | flowSequenceEnd
  | flowMappingStart
  | flowMappingEnd
  | blockEntry
  | flowEntry
  | key
  | value
  | alias (name : Bytes)
  | anchor (name : Bytes)
  | tag (handle suffix : Bytes)
  | scalar (plain : Bool) (text : Bytes)
  deriving DecidableEq, Repr

structure Token where
  kind : Token.Kind
  start : Mark
  deriving DecidableEq, Repr

end Yaml

end Stepwise
