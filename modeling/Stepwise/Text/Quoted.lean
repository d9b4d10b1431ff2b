import Stepwise.Text.Printable
import Stepwise.Text.Utf8

/-! Quoted text, as it stands in messages: one line of printable characters between two quote
marks. -/

namespace Stepwise

namespace Quoted

def hexDigit (n : Nat) : UInt8 := if n < 10 then UInt8.ofNat (48 + n) else UInt8.ofNat (87 + n)

/-- The last `width` hexadecimal digits of a number. -/
def hex : (width : Nat) → Nat → Bytes
  | 0, _ => []
  | width + 1, n => hex width (n / 16) ++ [hexDigit (n % 16)]

/-- The letter that stands after a backslash for a control character. -/
def letter? (code : Nat) : Option UInt8 :=
  match code with
  | 7 => some 97
  | 8 => some 98
  | 9 => some 116
  | 10 => some 110
  | 11 => some 118
  | 12 => some 102
  | 13 => some 114
  | _ => none

def escape (mark : UInt8) (c : Char) : Bytes :=
  let code := c.toNat
  if code = mark.toNat || code = 92 then [92, UInt8.ofNat code]
  else if isPrintable c then String.utf8EncodeChar c
  else
    match letter? code with
    | some l => [92, l]
    | none =>
      if code < 32 || code = 127 then utf8 "\\x" ++ hex 2 code
      else if code < 0x10000 then utf8 "\\u" ++ hex 4 code
      else utf8 "\\U" ++ hex 8 code

def glyph (mark : UInt8) : Glyph → Bytes
  | .char c => escape mark c
  | .stray b => utf8 "\\x" ++ hex 2 b.toNat

end Quoted

/-- A text between double quotes. -/
def quote (text : Bytes) : Bytes :=
  34 :: (Glyph.read text).flatMap (Quoted.glyph 34) ++ [34]

/-- The character with a byte's code, between single quotes. -/
def quoteByte (b : UInt8) : Bytes :=
  39 :: Quoted.escape 39 (Char.ofNat b.toNat) ++ [39]

end Stepwise
