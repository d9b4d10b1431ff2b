import Stepwise.Text.Bytes

/-! Reading bytes as UTF-8 characters. A byte that starts no well-formed sequence stands for itself,
so every text has exactly one reading. -/

namespace Stepwise

/-- One step of a reading: a character, or a byte that belongs to none. -/
inductive Glyph where
  | char (c : Char)
  | stray (b : UInt8)
  deriving DecidableEq, Repr

namespace Glyph

def isTail (b : UInt8) : Bool := 0x80 ≤ b && b ≤ 0xBF

def tailBits (b : UInt8) : Nat := b.toNat - 0x80

/-- The character a byte sequence starts with, and how many bytes it takes. Overlong forms,
surrogates and code points past the last one start none. -/
def first? : Bytes → Option (Char × Nat)
  | [] => none
  | a :: rest =>
    if a < 0x80 then some (Char.ofNat a.toNat, 1)
    else if 0xC2 ≤ a && a ≤ 0xDF then
      match rest with
      | b :: _ =>
        if isTail b then some (Char.ofNat ((a.toNat - 0xC0) * 64 + tailBits b), 2) else none
      | [] => none
    else if 0xE0 ≤ a && a ≤ 0xEF then
      match rest with
      | b :: c :: _ =>
        let lo : UInt8 := if a = 0xE0 then 0xA0 else 0x80
        let hi : UInt8 := if a = 0xED then 0x9F else 0xBF
        if lo ≤ b && b ≤ hi && isTail c then
          some (Char.ofNat ((a.toNat - 0xE0) * 4096 + tailBits b * 64 + tailBits c), 3)
        else none
      | _ => none
    else if 0xF0 ≤ a && a ≤ 0xF4 then
      match rest with
      | b :: c :: d :: _ =>
        let lo : UInt8 := if a = 0xF0 then 0x90 else 0x80
        let hi : UInt8 := if a = 0xF4 then 0x8F else 0xBF
        if lo ≤ b && b ≤ hi && isTail c && isTail d then
          some (Char.ofNat ((a.toNat - 0xF0) * 262144 + tailBits b * 4096 + tailBits c * 64
            + tailBits d), 4)
        else none
      | _ => none
    else none

/-- Reads on after the bytes that still belong to the glyph just read. -/
def readAfter : Nat → Bytes → List Glyph
  | _, [] => []
  | skip + 1, _ :: rest => readAfter skip rest
  | 0, b :: rest =>
    match first? (b :: rest) with
    | some (c, n) => .char c :: readAfter (n - 1) rest
    | none => .stray b :: readAfter 0 rest

/-- The one reading of a text. -/
def read (text : Bytes) : List Glyph := readAfter 0 text

def bytes : Glyph → Bytes
  | .char c => String.utf8EncodeChar c
  | .stray b => [b]

end Glyph

namespace Bytes

/-- The text with U+FFFD in the place of every stray byte. -/
def toText (text : Bytes) : String :=
  match String.fromUTF8? ⟨text.toArray⟩ with
  | some s => s
  | none =>
    String.ofList ((Glyph.read text).map fun
      | .char c => c
      | .stray _ => Char.ofNat 0xFFFD)

/-- Whether every byte belongs to a character. -/
def isUtf8 (text : Bytes) : Bool :=
  (Glyph.read text).all fun
    | .char _ => true
    | .stray _ => false

end Bytes

end Stepwise
