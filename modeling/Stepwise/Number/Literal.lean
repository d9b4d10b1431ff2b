import Stepwise.Number.Decimal

/-! Integers as they are written in several bases: `0x`, `0o` and `0b` before the digits name one, a
leading zero alone means base eight, and underscores may stand between digits. -/

namespace Stepwise

namespace IntegerLiteral

inductive Fault where
  | malformed
  | outOfRange
  deriving DecidableEq, Repr

def digitValue? (b : UInt8) : Option Nat :=
  let c := Bytes.lowerByte b
  if isDigit c then some (c.toNat - 48)
  else if 97 ≤ c ∧ c ≤ 122 then some (c.toNat - 87)
  else none

/-- The base a text of digits is in, and the digits; `none` is a plain base ten. -/
def splitBase (text : Bytes) : Nat × Bytes :=
  match text with
  | 48 :: mark :: digit :: rest =>
    let mark' := Bytes.lowerByte mark
    if mark' = 98 then (2, digit :: rest)
    else if mark' = 111 then (8, digit :: rest)
    else if mark' = 120 then (16, digit :: rest)
    else (8, mark :: digit :: rest)
  | 48 :: rest => (8, rest)
  | _ => (10, text)

/-- The first number that 64 bits cannot hold. -/
def limit : Nat := 18446744073709551616

/-- Adds up digits; a number past 64 bits is refused at the digit that leads there. -/
def sum (base : Nat) : Bytes → Nat → Except Fault Nat
  | [], n => .ok n
  | 95 :: rest, n => sum base rest n
  | b :: rest, n =>
    match digitValue? b with
    | none => .error .malformed
    | some d =>
      if base ≤ d then .error .malformed
      else if limit ≤ n * base + d then .error .outOfRange
      else sum base rest (n * base + d)

/-- What stands before a place in a number. -/
inductive Before where
  | start
  | digit
  | underscore
  | other
  deriving DecidableEq, Repr

/-- Whether every underscore stands between two digits. -/
def separated (hex : Bool) : Before → Bytes → Bool
  | seen, [] => seen != .underscore
  | seen, b :: rest =>
    let c := Bytes.lowerByte b
    if isDigit b || (hex && 97 ≤ c && c ≤ 102) then separated hex .digit rest
    else if b = 95 then seen = .digit && separated hex .underscore rest
    else seen != .underscore && separated hex .other rest

/-- A base mark counts as a digit before an underscore. -/
def underscoresFit (text : Bytes) : Bool :=
  match text with
  | 48 :: mark :: rest =>
    let mark' := Bytes.lowerByte mark
    if mark' = 98 || mark' = 111 || mark' = 120 then separated (mark' = 120) .digit rest
    else separated false .start text
  | _ => separated false .start text

/-- Reads a number without a sign that 64 bits can hold. -/
def readNat (text : Bytes) : Except Fault Nat := do
  if text.isEmpty then .error .malformed
  else
    let (base, digits) := splitBase text
    let n ← sum base digits 0
    if text.contains 95 && !underscoresFit text then .error .malformed else .ok n

/-- Reads a number with an optional sign that a machine word can hold. -/
def readWord (text : Bytes) : Except Fault Int := do
  let (negative, magnitude) := match text with
    | 45 :: rest => (true, rest)
    | 43 :: rest => (false, rest)
    | _ => (false, text)
  let n ← readNat magnitude
  let value : Int := if negative then -(n : Int) else n
  if Decimal.fitsInt64 value then .ok value else .error .outOfRange

end IntegerLiteral

end Stepwise
