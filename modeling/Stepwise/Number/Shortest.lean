import Stepwise.Number.Binary64

/-! The shortest decimal that reads back as a given binary number, and of those the nearest to
it. -/

namespace Stepwise

/-- A decimal number: some digits times a power of ten. -/
structure Scientific where
  digits : Nat
  exponent : Int
  deriving DecidableEq, Repr

namespace Binary64

/-- The reals that round to a positive number, in quarters of the unit of its mantissa. The gap
below a power of two is half as wide; the ends belong to it when the mantissa is even. -/
structure Rounding where
  low : Nat
  high : Nat
  closed : Bool

def rounding (mantissa : Nat) (exponent : Int) : Rounding :=
  let narrow := mantissa = leastNormal && exponent != leastExponent
  ⟨4 * mantissa - (if narrow then 1 else 2), 4 * mantissa + 2, mantissa % 2 = 0⟩

/-- A number of quarters, against a decimal. -/
def quarters (exponent : Int) (s : Scientific) : Nat × Nat :=
  let (n, d) := descale s.digits 1 (exponent - 2)
  if 0 ≤ s.exponent then (n * Decimal.tenTo s.exponent.toNat, d)
  else (n, d * Decimal.tenTo (-s.exponent).toNat)

def Rounding.contains (r : Rounding) (exponent : Int) (s : Scientific) : Bool :=
  let (n, d) := quarters exponent s
  if r.closed then r.low * d ≤ n && n ≤ r.high * d else r.low * d < n && n < r.high * d

/-- How many places a quotient below 1 is to be moved to reach 1. -/
def placesBelow : (fuel : Nat) → (num den : Nat) → Nat
  | 0, _, _ => 0
  | fuel + 1, num, den => if den ≤ num then 0 else placesBelow fuel (num * 10) den + 1

/-- The power of ten of the first digit of a positive number. -/
def leadingPower (mantissa : Nat) (exponent : Int) : Int :=
  let (n, d) := descale mantissa 1 (-exponent)
  if d ≤ n then (Decimal.ofNat (n / d)).length - 1 else -(placesBelow 400 n d : Int)

/-- The number in units of a power of ten, rounded down. -/
def floorAt (mantissa : Nat) (exponent power : Int) : Nat :=
  let (n, d) := descale mantissa 1 (-exponent)
  if 0 ≤ power then n / (d * Decimal.tenTo power.toNat)
  else n * Decimal.tenTo (-power).toNat / d

/-- Whether the upper of two neighbours is the nearer one, or as near and even. -/
def upperNearer (mantissa : Nat) (exponent power : Int) (lower : Nat) : Bool :=
  let (n, d) := quarters exponent ⟨2 * lower + 1, power⟩
  let twice := 8 * mantissa * d
  n < twice || (n = twice && lower % 2 = 1)

/-- The decimal with so many digits that reads back, if there is one. -/
def withDigits? (mantissa : Nat) (exponent : Int) (count : Nat) : Option Scientific :=
  let power := leadingPower mantissa exponent - (count - 1 : Nat)
  let lower : Scientific := ⟨floorAt mantissa exponent power, power⟩
  let upper : Scientific := ⟨lower.digits + 1, power⟩
  let r := rounding mantissa exponent
  match r.contains exponent lower, r.contains exponent upper with
  | true, true => some (if upperNearer mantissa exponent power lower.digits then upper else lower)
  | true, false => some lower
  | false, true => some upper
  | false, false => none

def shortestFrom (mantissa : Nat) (exponent : Int) : (left count : Nat) → Scientific
  | 0, count => ⟨floorAt mantissa exponent (leadingPower mantissa exponent - (count - 1 : Nat)),
      leadingPower mantissa exponent - (count - 1 : Nat)⟩
  | left + 1, count =>
    match withDigits? mantissa exponent count with
    | some s => s
    | none => shortestFrom mantissa exponent left (count + 1)

/-- Seventeen digits tell any two numbers apart. -/
def shortest (mantissa : Nat) (exponent : Int) : Scientific := shortestFrom mantissa exponent 17 1

end Binary64

/-- How numbers are written: with a power of ten outside of a range of leading powers. -/
structure NumberStyle where
  leastPlain : Int
  firstScientific : Int
  exponentDigits : Nat

namespace NumberStyle

def zeros (n : Nat) : Bytes := List.replicate n 48

def padded (width n : Nat) : Bytes :=
  let digits := Decimal.ofNat n
  zeros (width - digits.length) ++ digits

/-- The part after a point, with the point, unless it is empty. -/
def fraction (digits : Bytes) : Bytes := if digits.isEmpty then [] else 46 :: digits

/-- Digits of which the first stands for a power of ten. -/
def write (style : NumberStyle) (digits : Bytes) (power : Int) : Bytes :=
  if power < style.leastPlain || style.firstScientific ≤ power then
    let sign : UInt8 := if power < 0 then 45 else 43
    digits.take 1 ++ fraction (digits.drop 1) ++ 101 :: sign
      :: padded style.exponentDigits power.natAbs
  else if power < 0 then utf8 "0." ++ zeros ((-power).toNat - 1) ++ digits
  else
    let whole := power.toNat + 1
    digits.take whole ++ zeros (whole - digits.length) ++ fraction (digits.drop whole)

def text (style : NumberStyle) : Binary64 → Bytes
  | .nan => utf8 "NaN"
  | .infinite negative => utf8 (if negative then "-Inf" else "+Inf")
  | .finite negative m e =>
    let sign : Bytes := if negative then [45] else []
    if m = 0 then sign ++ [48]
    else
      let s := Binary64.shortest m e
      let digits := Decimal.ofNat s.digits
      let significant := Bytes.trimEnd 48 digits
      sign ++ style.write significant (s.exponent + digits.length - 1)

end NumberStyle

end Stepwise
