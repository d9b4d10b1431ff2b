import Stepwise.Number.Decimal

/-! Bytes written with 64 characters, six bits each, in groups of four. -/

namespace Stepwise

namespace Base64

def value? (b : UInt8) : Option Nat :=
  if 65 ≤ b && b ≤ 90 then some (b.toNat - 65)
  else if 97 ≤ b && b ≤ 122 then some (b.toNat - 71)
  else if isDigit b then some (b.toNat + 4)
  else if b = 43 then some 62
  else if b = 47 then some 63
  else none

/-- The first bytes of a group of six-bit values, missing ones being 0. -/
def bytes (count : Nat) (values : List Nat) : Bytes :=
  let bits := values.foldl (fun n v => n * 64 + v) 0
  ([bits / 65536, bits / 256, bits].map UInt8.ofNat).take count

/-- Reads groups; only the last one may be filled up with equals signs. -/
def groups? : Bytes → Option Bytes
  | [] => some []
  | [a, b, 61, 61] => do return bytes 1 [← value? a, ← value? b, 0, 0]
  | [a, b, c, 61] => do return bytes 2 [← value? a, ← value? b, ← value? c, 0]
  | a :: b :: c :: d :: rest => do
    return bytes 3 [← value? a, ← value? b, ← value? c, ← value? d] ++ (← groups? rest)
  | _ => none

/-- Line breaks in the text do not count. -/
def decode? (text : Bytes) : Option Bytes := groups? (text.filter fun b => b != 10 && b != 13)

end Base64

end Stepwise
