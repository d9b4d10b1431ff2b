import Stepwise.Number.Binary64

/-! Durations, in nanoseconds: a sign and then numbers with a unit each, such as `1h2.5s`. -/

namespace Stepwise

namespace Duration

def unit? (name : Bytes) : Option Nat :=
  if name = utf8 "ns" then some 1
  else if name = utf8 "us" || name = utf8 "µs" || name = utf8 "μs" then some 1000
  else if name = utf8 "ms" then some 1000000
  else if name = utf8 "s" then some 1000000000
  else if name = utf8 "m" then some 60000000000
  else if name = utf8 "h" then some 3600000000000
  else none

def limit : Nat := 9223372036854775808

/-- The digits of a fraction that still count, and the power of ten they are divided by, which is
rounded digit by digit. -/
def fractionDigits : Bytes → Nat → Binary64 → Nat × Binary64
  | [], n, scale => (n, scale)
  | b :: rest, n, scale =>
    let next := n * 10 + (b.toNat - 48)
    if (limit - 1) / 10 < n || limit < next then (n, scale)
    else fractionDigits rest next (scale.mul (.ofNat 10))

/-- A fraction of a unit, computed in binary floating point and rounded down. -/
def fractionOf (digits : Bytes) (unit : Nat) : Nat :=
  let (n, scale) := fractionDigits digits 0 (.ofNat 1)
  let part := (Binary64.ofNat n).mul ((Binary64.ofNat unit).div scale)
  if n = 0 then 0 else (part.truncate?.getD 0).toNat

/-- Adds up numbers with their units, in words of 64 bits; `parts` bounds how many there can be. -/
def sum : (parts : Nat) → Bytes → Nat → Option Nat
  | _, [], total => some total
  | 0, _ :: _, _ => none
  | parts + 1, text, total =>
    let whole := text.takeWhile isDigit
    let rest := text.drop whole.length
    let (fraction, rest) := match rest with
      | 46 :: rest => (rest.takeWhile isDigit, rest.dropWhile isDigit)
      | _ => ([], rest)
    let name := rest.takeWhile fun b => !isDigit b && b != 46
    let n := Decimal.value whole
    if whole.isEmpty && fraction.isEmpty then none
    else if limit < n then none
    else
      match unit? name with
      | none => none
      | some unit =>
        if limit / unit < n then none
        else
          let amount := n * unit + fractionOf fraction unit
          let total := (total + amount) % (2 * limit)
          if limit < amount || limit < total then none
          else sum parts (rest.drop name.length) total

/-- The nanoseconds a text stands for, if it is a duration that a machine word can hold. -/
def read? (text : Bytes) : Option Int :=
  let (negative, text) := Binary64.splitSign text
  if text = [48] then some 0
  else if text.isEmpty then none
  else
    match sum text.length text 0 with
    | none => none
    | some n =>
      if negative then some (-(n : Int)) else if n < limit then some (n : Int) else none

end Duration

end Stepwise
