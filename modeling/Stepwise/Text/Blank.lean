import Stepwise.Text.Utf8

/-! Blank characters: the code points of the property White_Space. -/

namespace Stepwise

def isBlank (c : Char) : Bool :=
  let n := c.toNat
  (9 ≤ n && n ≤ 13) || n = 0x20 || n = 0x85 || n = 0xA0 || n = 0x1680
    || (0x2000 ≤ n && n ≤ 0x200A) || n = 0x2028 || n = 0x2029 || n = 0x202F || n = 0x205F
    || n = 0x3000

namespace Glyph

/-- A stray byte is never blank. -/
def isBlank : Glyph → Bool
  | .char c => Stepwise.isBlank c
  | .stray _ => false

end Glyph

namespace Bytes

/-- The text without the blanks at its ends. -/
def trim (text : Bytes) : Bytes :=
  let opened := (Glyph.read text).dropWhile Glyph.isBlank
  (opened.reverse.dropWhile Glyph.isBlank).reverse.flatMap Glyph.bytes

/-- The maximal runs of glyphs that do not separate. -/
def fieldsBy (separates : Glyph → Bool) : List Glyph → List Bytes
  | [] => []
  | g :: rest =>
    if separates g then fieldsBy separates rest
    else
      match rest with
      | [] => [g.bytes]
      | next :: _ =>
        if separates next then g.bytes :: fieldsBy separates rest
        else
          match fieldsBy separates rest with
          | [] => [g.bytes]
          | field :: fields => (g.bytes ++ field) :: fields

/-- The words of a text: what its blanks leave. -/
def fields (text : Bytes) : List Bytes := fieldsBy Glyph.isBlank (Glyph.read text)

end Bytes

end Stepwise
