import Stepwise.Number.Decimal
import Stepwise.Text.Quoted

/-! JSON values and the two ways to write them: on one line, or indented. -/

namespace Stepwise

inductive JsonValue where
  | null
  | boolean (b : Bool)
  | integer (n : Int)
  | text (s : Bytes)
  | list (items : List JsonValue)
  /-- Members in the order in which they are written. -/
  | record (members : List (Bytes × JsonValue))

/-- What stands at the start of a line with the given nesting, and between a key and its value. -/
structure JsonLayout where
  line : Nat → Bytes
  colon : Bytes

namespace JsonLayout

def compact : JsonLayout := ⟨fun _ => [], [58]⟩

def indented : JsonLayout := ⟨fun depth => 10 :: spaces (2 * depth), [58, 32]⟩

end JsonLayout

namespace JsonValue

/-- The letter that stands after a backslash for a control character. -/
def letter? (code : Nat) : Option UInt8 :=
  match code with
  | 8 => some 98
  | 9 => some 116
  | 10 => some 110
  | 12 => some 102
  | 13 => some 114
  | _ => none

/-- Characters that are safe in JSON, but not in a page or a script that it is put into. -/
def isSensitive (code : Nat) : Bool :=
  code = 38 || code = 60 || code = 62 || code = 0x2028 || code = 0x2029

def escape : Glyph → Bytes
  | .stray _ => utf8 "\\ufffd"
  | .char c =>
    let code := c.toNat
    if code = 34 || code = 92 then [92, UInt8.ofNat code]
    else
      match letter? code with
      | some l => [92, l]
      | none =>
        if code < 32 || isSensitive code then utf8 "\\u" ++ Quoted.hex 4 code
        else String.utf8EncodeChar c

def quoted (s : Bytes) : Bytes := 34 :: (Glyph.read s).flatMap escape ++ [34]

/-- Two brackets around what `inside` puts before the closing one. -/
def bracketed (layout : JsonLayout) (depth : Nat) (opening closing : UInt8)
    (inside : Bytes → Bytes) (tail : Bytes) : Bytes :=
  opening :: layout.line (depth + 1) ++ inside (layout.line depth ++ closing :: tail)

/-- What stands between two items. -/
def separator (layout : JsonLayout) (depth : Nat) : Bytes := 44 :: layout.line depth

mutual

/-- The text of a value, followed by a tail. -/
def write (layout : JsonLayout) (depth : Nat) : JsonValue → (tail : Bytes) → Bytes
  | .null, tail => utf8 "null" ++ tail
  | .boolean b, tail => utf8 (if b then "true" else "false") ++ tail
  | .integer n, tail => Decimal.ofInt n ++ tail
  | .text s, tail => quoted s ++ tail
  | .list [], tail => 91 :: 93 :: tail
  | .list (v :: rest), tail =>
    bracketed layout depth 91 93
      (fun tail => write layout (depth + 1) v (writeItems layout (depth + 1) rest tail)) tail
  | .record [], tail => 123 :: 125 :: tail
  | .record ((key, v) :: rest), tail =>
    bracketed layout depth 123 125
      (fun tail => quoted key ++ layout.colon
        ++ write layout (depth + 1) v (writeMembers layout (depth + 1) rest tail)) tail

/-- The items after the first one. -/
def writeItems (layout : JsonLayout) (depth : Nat) : List JsonValue → (tail : Bytes) → Bytes
  | [], tail => tail
  | v :: rest, tail =>
    separator layout depth ++ write layout depth v (writeItems layout depth rest tail)

/-- The members after the first one. -/
def writeMembers (layout : JsonLayout) (depth : Nat) :
    List (Bytes × JsonValue) → (tail : Bytes) → Bytes
  | [], tail => tail
  | (key, v) :: rest, tail =>
    separator layout depth ++ quoted key ++ layout.colon
      ++ write layout depth v (writeMembers layout depth rest tail)

end

mutual

/-- How many lists and records lie around the innermost part. -/
def depth : JsonValue → Nat
  | .list items => itemsDepth items + 1
  | .record members => membersDepth members + 1
  | _ => 0

def itemsDepth : List JsonValue → Nat
  | [] => 0
  | v :: rest => max (depth v) (itemsDepth rest)

def membersDepth : List (Bytes × JsonValue) → Nat
  | [] => 0
  | (_, v) :: rest => max (depth v) (membersDepth rest)

end

def toLine (v : JsonValue) : Bytes := write .compact 0 v []

/-- The nesting that can be shown by indentation. -/
def maxDepth : Nat := 10000

/-- The value over several lines, unless it is nested too deep for that. -/
def toLines? (v : JsonValue) : Option Bytes :=
  if v.depth ≤ maxDepth then some (write .indented 0 v []) else none

end JsonValue

end Stepwise
