/-! Texts are sequences of bytes. Nothing is assumed about their encoding, so offsets, columns and
lengths all count bytes. -/

namespace Stepwise

abbrev Bytes := List UInt8

/-- The bytes of a written-out text. -/
def utf8 (s : String) : Bytes := s.toByteArray.data.toList

namespace Bytes

/-- Byte order, a shorter text before its extensions. -/
def le (a b : Bytes) : Bool := !decide (b < a)

def startsWith (start text : Bytes) : Bool := start.isPrefixOf text

def endsWith (stop text : Bytes) : Bool := stop.isSuffixOf text

def contains (needle : UInt8) (text : Bytes) : Bool := text.any (· == needle)

/-- The pieces between the occurrences of a byte: one more than there are occurrences. -/
def splitAt (mark : UInt8) : Bytes → List Bytes
  | [] => [[]]
  | b :: rest =>
    if b = mark then [] :: splitAt mark rest
    else
      match splitAt mark rest with
      | [] => [[b]]
      | piece :: pieces => (b :: piece) :: pieces

theorem splitAt_ne_nil (mark : UInt8) (text : Bytes) : splitAt mark text ≠ [] := by
  cases text with
  | nil => simp [splitAt]
  | cons b rest =>
    simp only [splitAt]
    split
    · simp
    · split <;> simp

def join (mark : Bytes) : List Bytes → Bytes
  | [] => []
  | [piece] => piece
  | piece :: pieces => piece ++ mark ++ join mark pieces

/-- The text without the marks it ends in. -/
def trimEnd (mark : UInt8) (text : Bytes) : Bytes :=
  (text.reverse.dropWhile (· == mark)).reverse

def lowerByte (b : UInt8) : UInt8 := if 65 ≤ b ∧ b ≤ 90 then b + 32 else b

end Bytes

def spaces (n : Nat) : Bytes := List.replicate n 32

end Stepwise
