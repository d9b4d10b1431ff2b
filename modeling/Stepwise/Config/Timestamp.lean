import Stepwise.Number.Decimal

/-! Points in time: a date of the form `2024-1-2`, and perhaps a time of day, after a space, or
after a `T` and then with a time zone. -/

namespace Stepwise

/-- The zone of a time: none or `Z`, an offset of nothing, or an offset. -/
inductive TimeZone where
  | utc
  | atZero
  | shifted
  deriving DecidableEq, Repr

structure Timestamp where
  year : Nat
  month : Nat
  day : Nat
  hour : Nat
  minute : Nat
  second : Nat
  nanosecond : Nat
  zone : TimeZone
  deriving DecidableEq, Repr

namespace Timestamp

/-- One or two digits, and what comes after them. -/
def number? : Bytes → Option (Nat × Bytes)
  | a :: b :: rest =>
    if isDigit a && isDigit b then some (Decimal.value [a, b], rest)
    else if isDigit a then some (Decimal.value [a], b :: rest)
    else none
  | [a] => if isDigit a then some (Decimal.value [a], []) else none
  | [] => none

/-- What comes after a byte. -/
def after? (mark : UInt8) : Bytes → Option Bytes
  | b :: rest => if b = mark then some rest else none
  | [] => none

def isLeap (year : Nat) : Bool := year % 4 = 0 && (year % 100 ≠ 0 || year % 400 = 0)

def daysIn (year month : Nat) : Nat :=
  if month = 2 then (if isLeap year then 29 else 28)
  else if [4, 6, 9, 11].contains month then 30
  else 31

/-- Four digits of a year, a month and a day. -/
def date? (text : Bytes) : Option (Timestamp × Bytes) := do
  let digits := text.takeWhile isDigit
  if digits.length ≠ 4 then none
  else
    let year := Decimal.value digits
    let (month, rest) ← number? (← after? 45 (text.drop 4))
    let (day, rest) ← number? (← after? 45 rest)
    if 1 ≤ month && month ≤ 12 && 1 ≤ day && day ≤ daysIn year month then
      some (⟨year, month, day, 0, 0, 0, 0, .utc⟩, rest)
    else none

/-- A fraction of a second, if there is one, in nanoseconds. -/
def fraction (text : Bytes) : Nat × Bytes :=
  match text with
  | mark :: digit :: rest =>
    if (mark = 46 || mark = 44) && isDigit digit then
      let digits := (digit :: rest).takeWhile isDigit
      (Decimal.value ((digits ++ List.replicate 9 48).take 9), (digit :: rest).drop digits.length)
    else (0, text)
  | _ => (0, text)

/-- A time of day, put into a date. -/
def time? (date : Timestamp) (text : Bytes) : Option (Timestamp × Bytes) := do
  let (hour, rest) ← number? text
  let (minute, rest) ← number? (← after? 58 rest)
  let (second, rest) ← number? (← after? 58 rest)
  let (nanosecond, rest) := fraction rest
  if hour < 24 && minute < 60 && second < 60 then
    some ({ date with hour, minute, second, nanosecond }, rest)
  else none

/-- A time zone and nothing more. An offset goes up to 24 hours and 60 minutes. -/
def zone? : Bytes → Option TimeZone
  | [90] => some .utc
  | [sign, a, b, 58, c, d] =>
    let hours := Decimal.value [a, b]
    let minutes := Decimal.value [c, d]
    if (sign = 43 || sign = 45) && [a, b, c, d].all isDigit && hours ≤ 24 && minutes ≤ 60 then
      some (if hours = 0 && minutes = 0 then .atZero else .shifted)
    else none
  | _ => none

/-- The point in time that a text names, if it names one. -/
def read? (text : Bytes) : Option Timestamp := do
  let (date, rest) ← date? text
  match rest with
  | [] => some date
  | mark :: rest =>
    if mark = 84 || mark = 116 then
      let (t, rest) ← time? date rest
      return { t with zone := ← zone? rest }
    else if mark = 32 then
      match ← time? date (rest.dropWhile (· == 32)) with
      | (t, []) => some t
      | _ => none
    else none

def monthNames : List String :=
  ["January", "February", "March", "April", "May", "June", "July", "August", "September",
    "October", "November", "December"]

def TimeZone.text : TimeZone → Bytes
  | .utc => utf8 "time.UTC"
  | .atZero => utf8 "time.Local"
  | .shifted => utf8 "time.Location(\"\")"

/-- A time as messages show it. -/
def text (t : Timestamp) : Bytes :=
  let month := utf8 "time." ++ utf8 (monthNames.getD (t.month - 1) "")
  let rest := [t.day, t.hour, t.minute, t.second, t.nanosecond].map Decimal.ofNat
  let parts := Decimal.ofNat t.year :: month :: rest ++ [TimeZone.text t.zone]
  utf8 "time.Date(" ++ Bytes.join (utf8 ", ") parts ++ utf8 ")"

end Timestamp

end Stepwise
