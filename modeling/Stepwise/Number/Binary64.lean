import Stepwise.Number.Decimal

/-! Binary floating-point numbers of 64 bits, taken as the exact numbers they stand for. -/

namespace Stepwise

/-- A finite number is its mantissa, below 2^53, times a power of two, not below 2^(-1074). -/
inductive Binary64 where
  | nan
  | infinite (negative : Bool)
  | finite (negative : Bool) (mantissa : Nat) (exponent : Int)
  deriving DecidableEq, Repr

namespace Binary64

/-- The nearest integer to a quotient, the even one of two. -/
def roundDiv (num den : Nat) : Nat :=
  let q := num / den
  let twice := 2 * (num % den)
  if twice < den then q
  else if den < twice then q + 1
  else if q % 2 = 0 then q else q + 1

def twoTo (n : Nat) : Nat := Nat.pow 2 n

/-- A mantissa of 53 bits is not below this. -/
def leastNormal : Nat := twoTo 52

/-- A quotient divided by a power of two. -/
def descale (num den : Nat) (exponent : Int) : Nat × Nat :=
  if 0 ≤ exponent then (num, den * twoTo exponent.toNat) else (num * twoTo (-exponent).toNat, den)

def leastExponent : Int := -1074

def greatestExponent : Int := 971

/-- The exponent at which a positive quotient has a mantissa of 53 bits, or the least one. -/
def exponentFor (num den : Nat) : Int :=
  let guess : Int := (Nat.log2 num : Int) - Nat.log2 den - 52
  let (n, d) := descale num den guess
  max leastExponent (if n / d < leastNormal then guess - 1 else guess)

def zero (negative : Bool) : Binary64 := .finite negative 0 leastExponent

/-- The number nearest to a quotient of integers; past the greatest ones lies infinity. -/
def ofRatio (negative : Bool) (num den : Nat) : Binary64 :=
  if num = 0 then zero negative
  else
    let e := exponentFor num den
    let (n, d) := descale num den e
    let m := roundDiv n d
    let (m, e) := if m = 2 * leastNormal then (leastNormal, e + 1) else (m, e)
    if greatestExponent < e then .infinite negative else .finite negative m e

/-- The number nearest to a product. -/
def mul : Binary64 → Binary64 → Binary64
  | .finite n m e, .finite n' m' e' =>
    let (num, den) := descale (m * m') 1 (-(e + e'))
    ofRatio (n != n') num den
  | .finite n m _, .infinite n' | .infinite n', .finite n m _ =>
    if m = 0 then .nan else .infinite (n != n')
  | .infinite n, .infinite n' => .infinite (n != n')
  | .nan, _ | _, .nan => .nan

/-- The number nearest to a quotient of numbers. -/
def div : Binary64 → Binary64 → Binary64
  | .finite n m e, .finite n' m' e' =>
    if m' = 0 then (if m = 0 then .nan else .infinite (n != n'))
    else
      let (num, den) := descale m m' (e' - e)
      ofRatio (n != n') num den
  | .finite n _ _, .infinite n' => zero (n != n')
  | .infinite n, .finite n' _ _ => .infinite (n != n')
  | .infinite _, .infinite _ => .nan
  | .nan, _ | _, .nan => .nan

def ofNat (n : Nat) : Binary64 := ofRatio false n 1

/-- The number nearest to `digits` times a power of ten. -/
def ofScientific (negative : Bool) (digits : Nat) (exponent : Int) : Binary64 :=
  let magnitude := (Decimal.ofNat digits).length + exponent
  if digits = 0 || magnitude < -330 then zero negative
  else if 330 < magnitude then .infinite negative
  else if 0 ≤ exponent then ofRatio negative (digits * Decimal.tenTo exponent.toNat) 1
  else ofRatio negative digits (Decimal.tenTo (-exponent).toNat)

/-- A sign and what it stands before. -/
def splitSign : Bytes → Bool × Bytes
  | 45 :: rest => (true, rest)
  | 43 :: rest => (false, rest)
  | text => (false, text)

/-- The exponent part of a number, 0 when there is none. -/
def readExponent? : Bytes → Option Int
  | [] => some 0
  | mark :: rest => if mark = 101 ∨ mark = 69 then Decimal.readInt? rest else none

/-- Reads digits with at most one point among them and perhaps an exponent. -/
def read? (text : Bytes) : Option Binary64 :=
  let (negative, text) := splitSign text
  let whole := text.takeWhile isDigit
  let rest := text.drop whole.length
  let (fraction, rest) := match rest with
    | 46 :: rest => (rest.takeWhile isDigit, rest.dropWhile isDigit)
    | _ => ([], rest)
  if whole.isEmpty && fraction.isEmpty then none
  else
    (readExponent? rest).map fun e =>
      ofScientific negative (Decimal.value (whole ++ fraction)) (e - fraction.length)

/-- The integer a number is, if it is one. -/
def toInt? : Binary64 → Option Int
  | .finite negative m e =>
    let magnitude? : Option Nat :=
      if 0 ≤ e then some (m * twoTo e.toNat)
      else if m % twoTo (-e).toNat = 0 then some (m / twoTo (-e).toNat)
      else none
    magnitude?.map fun n => if negative then -(n : Int) else n
  | .nan | .infinite _ => none

/-- The integer part; there is none past all integers. -/
def truncate? : Binary64 → Option Int
  | .finite negative m e =>
    let n := if 0 ≤ e then m * twoTo e.toNat else m / twoTo (-e).toNat
    some (if negative then -(n : Int) else n)
  | .nan | .infinite _ => none

end Binary64

end Stepwise
