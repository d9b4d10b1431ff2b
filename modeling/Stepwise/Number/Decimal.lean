import Stepwise.Text.Bytes

/-! Decimal integers: writing them, and reading them with an optional sign. -/

namespace Stepwise

def isDigit (b : UInt8) : Bool := 48 ≤ b && b ≤ 57

namespace Decimal

def digit (n : Nat) : UInt8 := UInt8.ofNat (48 + n % 10)

def ofNat (n : Nat) : Bytes :=
  if n < 10 then [digit n] else ofNat (n / 10) ++ [digit n]

def ofInt : Int → Bytes
  | .ofNat n => ofNat n
  | .negSucc n => 45 :: ofNat (n + 1)

def tenTo (n : Nat) : Nat := Nat.pow 10 n

/-- The value of a digit sequence, most significant first. -/
def value (digits : Bytes) : Nat :=
  digits.foldl (fun n b => n * 10 + (b.toNat - 48)) 0

/-- One or more digits and nothing else. -/
def readNat? (text : Bytes) : Option Nat :=
  if text ≠ [] ∧ text.all isDigit then some (value text) else none

/-- Digits after at most one sign. -/
def readInt? : Bytes → Option Int
  | 45 :: rest => (readNat? rest).map fun n => -(n : Int)
  | 43 :: rest => (readNat? rest).map fun n => (n : Int)
  | text => (readNat? text).map fun n => (n : Int)

/-- The least integer that a machine word can hold. -/
def leastWord : Int := -9223372036854775808

/-- The first integer past those that a machine word can hold. -/
def wordLimit : Int := 9223372036854775808

def fitsInt64 (n : Int) : Bool := leastWord ≤ n && n < wordLimit

/-- An integer that a machine word can hold. -/
def readWord? (text : Bytes) : Option Int64 :=
  match readInt? text with
  | some n => if fitsInt64 n then some (Int64.ofInt n) else none
  | none => none

def ofWord (n : Int64) : Bytes := ofInt n.toInt

end Decimal

end Stepwise
