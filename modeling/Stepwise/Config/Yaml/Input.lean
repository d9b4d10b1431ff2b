import Stepwise.Text.Bytes

/-! The characters of a document. They are taken from the text in blocks; a block with a byte
sequence or a character that has no place in a document is refused as a whole when it is
reached. -/

namespace Stepwise

namespace Yaml

structure Input where
  chars : List Char
  /-- The first character of a refused block, and why it is refused. -/
  refusal : Option (Nat × Bytes)

namespace Input

def blockSize : Nat := 512

/-- How many bytes a character takes that starts with a byte. -/
def width? (lead : UInt8) : Option Nat :=
  if lead < 0x80 then some 1
  else if lead < 0xC0 then none
  else if lead < 0xE0 then some 2
  else if lead < 0xF0 then some 3
  else if lead < 0xF8 then some 4
  else none

/-- The bits of a leading byte that belong to the character. -/
def leadBits (lead : UInt8) (width : Nat) : Nat :=
  match width with
  | 1 => lead.toNat
  | 2 => lead.toNat - 0xC0
  | 3 => lead.toNat - 0xE0
  | _ => lead.toNat - 0xF0

def isTail (b : UInt8) : Bool := 0x80 ≤ b && b ≤ 0xBF

/-- The least character that needs so many bytes. -/
def leastCode (width : Nat) : Nat :=
  match width with
  | 1 => 0
  | 2 => 0x80
  | 3 => 0x800
  | _ => 0x10000

/-- Control characters have no place in a document, apart from tabs and line breaks. -/
def isAllowed (code : Nat) : Bool :=
  code = 0x09 || code = 0x0A || code = 0x0D || (0x20 ≤ code && code ≤ 0x7E) || code = 0x85
    || (0xA0 ≤ code && code ≤ 0xD7FF) || (0xE000 ≤ code && code ≤ 0xFFFD)
    || (0x10000 ≤ code && code ≤ 0x10FFFF)

/-- The character that a leading byte and the bytes after it stand for. -/
def decode (lead : UInt8) (tail : Bytes) : Except Bytes Char :=
  let width := tail.length + 1
  let code := tail.foldl (fun n b => n * 64 + (b.toNat - 0x80)) (leadBits lead width)
  if !tail.all isTail then .error (utf8 "invalid trailing UTF-8 octet")
  else if code < leastCode width then .error (utf8 "invalid length of a UTF-8 sequence")
  else if (0xD800 ≤ code && code ≤ 0xDFFF) || 0x10FFFF < code then
    .error (utf8 "invalid Unicode character")
  else if isAllowed code then .ok (Char.ofNat code)
  else .error (utf8 "control characters are not allowed")

/-- The characters that end within a block, last one first, and the bytes after them; `room` is what
is left of the block. -/
def block : (left room : Nat) → List Char → Bytes → Except Bytes (List Char × Bytes)
  | 0, _, chars, text => .ok (chars, text)
  | _, _, chars, [] => .ok (chars, [])
  | left + 1, room, chars, lead :: rest =>
    match width? lead with
    | none => .error (utf8 "invalid leading UTF-8 octet")
    | some width =>
      let tail := rest.take (width - 1)
      if room < width || tail.length + 1 < width then
        if chars.isEmpty then .error (utf8 "incomplete UTF-8 octet sequence")
        else .ok (chars, lead :: rest)
      else
        match decode lead tail with
        | .error reason => .error reason
        | .ok c => block left (room - width) (c :: chars) (rest.drop (width - 1))

/-- Takes block after block; `chars` are those before, last one first. -/
def blocks : (left room : Nat) → List Char → Bytes → Input
  | 0, _, chars, _ => ⟨chars.reverse, none⟩
  | _, _, chars, [] => ⟨chars.reverse, none⟩
  | left + 1, room, chars, text =>
    match block room room [] text with
    | .error reason => ⟨chars.reverse, some (chars.length, reason)⟩
    | .ok (more, rest) => blocks left blockSize (more ++ chars) rest

/-- A byte order mark before the text is no part of it. -/
def ofBytes (text : Bytes) : Input :=
  match text with
  | 0xEF :: 0xBB :: 0xBF :: rest => blocks (text.length + 1) (blockSize - 3) [] rest
  | _ => blocks (text.length + 1) blockSize [] text

end Input

end Yaml

end Stepwise
