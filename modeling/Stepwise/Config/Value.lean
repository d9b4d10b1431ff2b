import Stepwise.Config.Timestamp
import Stepwise.Number.Literal
import Stepwise.Number.Shortest
import Stepwise.Text.Base64
import Stepwise.Text.Quoted
import Stepwise.Value

/-! Values as configuration files give them, and the values of the language that they stand for. -/

namespace Stepwise

/-- A decoded value. A map is known by whether all its keys are text, and its entries are in the
order of their keys. Of values that come from elsewhere only the name of the type is known. -/
inductive ConfigValue where
  | null
  | boolean (b : Bool)
  | integer (n : Int)
  | number (x : Binary64)
  | text (s : Bytes)
  | time (t : Timestamp)
  | list (items : List ConfigValue)
  | map (textual : Bool) (entries : List (ConfigValue × ConfigValue))
  | other (typeName : Bytes)

namespace ConfigValue

/-- A number is written in full when its first digit stands for 10^(-4) to 10^5. -/
def numberStyle : NumberStyle := ⟨-4, 6, 2⟩

def anyType : Bytes := utf8 "interface \x7b\x7d"

def listType : Bytes := utf8 "[]" ++ anyType

def mapType : Bytes := utf8 "map[string]" ++ anyType

/-- The type of a mapping with keys that are not all text. -/
def mixedMapType : Bytes := utf8 "map[" ++ anyType ++ utf8 "]" ++ anyType

def mapTypeOf (textual : Bool) : Bytes := if textual then mapType else mixedMapType

def refuseNumber (x : Binary64) : Bytes :=
  utf8 "number " ++ numberStyle.text x ++ utf8 " is not an integer"

def refuseType (typeName : Bytes) : Bytes := utf8 "unsupported value of type " ++ typeName

/-- Integers and whole numbers that a machine word holds become integers. What becomes of the one number
past them that the bound lets through, 2^63, is up to the machine; here it wraps around. -/
def toValue : ConfigValue → Except Bytes Value
  | .null => .ok .null
  | .boolean b => .ok (.boolean b)
  | .text s => .ok (.string s)
  | .integer n =>
    if Decimal.fitsInt64 n then .ok (.integer (Int64.ofInt n))
    else .error (utf8 "integer " ++ Decimal.ofInt n ++ utf8 " out of range")
  | .number x =>
    match x.toInt? with
    | some n =>
      if Decimal.leastWord ≤ n ∧ n ≤ Decimal.wordLimit then .ok (.integer (Int64.ofInt n))
      else .error (refuseNumber x)
    | none => .error (refuseNumber x)
  | .time _ => .error (refuseType (utf8 "time.Time"))
  | .list _ => .error (refuseType listType)
  | .map textual _ => .error (refuseType (mapTypeOf textual))
  | .other typeName => .error (refuseType typeName)

/-- The tag of a value. -/
def tag : ConfigValue → Bytes
  | .null => utf8 "!!null"
  | .boolean _ => utf8 "!!bool"
  | .integer _ => utf8 "!!int"
  | .number _ => utf8 "!!float"
  | .text _ => utf8 "!!str"
  | .time _ => utf8 "!!timestamp"
  | .list _ => utf8 "!!seq"
  | .map _ _ | .other _ => utf8 "!!map"

def braced (parts : List Bytes) : Bytes :=
  utf8 "\x7b" ++ Bytes.join (utf8 ", ") parts ++ utf8 "\x7d"

mutual

/-- A value as messages show it. An integer that only fits without a sign is in base sixteen. -/
def written : ConfigValue → Bytes
  | .null => anyType ++ utf8 "(nil)"
  | .boolean b => utf8 (if b then "true" else "false")
  | .integer n =>
    if Decimal.fitsInt64 n then Decimal.ofInt n else utf8 "0x" ++ Quoted.hex 16 n.toNat
  | .number x => numberStyle.text x
  | .text s => quote s
  | .time t => t.text
  | .list items => listType ++ braced (writtenItems items)
  | .map textual entries => mapTypeOf textual ++ braced (writtenEntries entries)
  | .other typeName => typeName

def writtenItems : List ConfigValue → List Bytes
  | [] => []
  | v :: vs => written v :: writtenItems vs

def writtenEntries : List (ConfigValue × ConfigValue) → List Bytes
  | [] => []
  | (k, v) :: rest => (written k ++ 58 :: written v) :: writtenEntries rest

end

/-- Where the kind of a key stands among the kinds. -/
def rank : ConfigValue → Nat
  | .null => 0
  | .boolean _ => 1
  | .number _ => 2
  | .integer n => if Decimal.fitsInt64 n then 3 else 6
  | .text _ => 4
  | .time _ => 5
  | .list _ | .map _ _ | .other _ => 7

/-- Whether two values are the same key. A number that is none is not even the same as itself, and
collections are no keys. -/
def sameKey : ConfigValue → ConfigValue → Bool
  | .null, .null => true
  | .boolean a, .boolean b => a == b
  | .integer a, .integer b => a == b
  | .number (.finite s m e), .number (.finite s' m' e') =>
    (m == 0 && m' == 0) || (s == s' && m == m' && e == e')
  | .number (.infinite s), .number (.infinite s') => s == s'
  | .text a, .text b => a == b
  | .time a, .time b => a == b
  | _, _ => false

def keyBefore : ConfigValue → ConfigValue → Bool
  | .integer a, .integer b => a < b
  | .text a, .text b => decide (a < b)
  | a, b => a.rank < b.rank || (a.rank = b.rank && decide (a.written < b.written))

/-- Sets an entry, in the place of an earlier one with the same key. -/
def setEntry (key v : ConfigValue) :
    List (ConfigValue × ConfigValue) → List (ConfigValue × ConfigValue)
  | [] => [(key, v)]
  | (k, w) :: rest =>
    if sameKey key k then (key, v) :: rest
    else if keyBefore key k then (key, v) :: (k, w) :: rest
    else (k, w) :: setEntry key v rest

/-- Plain scalars with a meaning of their own. -/
def words : List (String × ConfigValue) := [
  ("", .null), ("~", .null), ("null", .null), ("Null", .null), ("NULL", .null),
  ("true", .boolean true), ("True", .boolean true), ("TRUE", .boolean true),
  ("false", .boolean false), ("False", .boolean false), ("FALSE", .boolean false),
  (".nan", .number .nan), (".NaN", .number .nan), (".NAN", .number .nan),
  (".inf", .number (.infinite false)), (".Inf", .number (.infinite false)),
  (".INF", .number (.infinite false)), ("+.inf", .number (.infinite false)),
  ("+.Inf", .number (.infinite false)), ("+.INF", .number (.infinite false)),
  ("-.inf", .number (.infinite true)), ("-.Inf", .number (.infinite true)),
  ("-.INF", .number (.infinite true))]

/-- A decimal number that is not too great to be one. -/
def number? (s : Bytes) : Option ConfigValue :=
  match Binary64.read? s with
  | some (.finite negative m e) => some (.number (.finite negative m e))
  | _ => none

/-- A number that starts with its point; underscores stand between digits only. -/
def fraction? (s : Bytes) : Option ConfigValue :=
  if s.contains 95 && !IntegerLiteral.underscoresFit s then none
  else number? (s.filter (· != 95))

/-- Digits in a base that is named before their sign. -/
def signedDigits? (s : Bytes) : Option ConfigValue :=
  match s with
  | 48 :: mark :: sign :: digits =>
    let base? : Option Nat := if mark = 98 then some 2 else if mark = 111 then some 8 else none
    match base? with
    | none => none
    | some base =>
      if (sign ≠ 43 && sign ≠ 45) || digits.isEmpty then none
      else
        match IntegerLiteral.sum base digits 0 with
        | .error _ => none
        | .ok n =>
          let value : Int := if sign = 45 then -(n : Int) else n
          if Decimal.fitsInt64 value then some (.integer value) else none
  | _ => none

/-- An integer, with a sign up to a machine word and without one up to 64 bits, or else a number.
Underscores do not count. -/
def numeral? (s : Bytes) : Option ConfigValue :=
  let digits := s.filter (· != 95)
  match IntegerLiteral.readWord digits, IntegerLiteral.readNat digits with
  | .ok n, _ => some (.integer n)
  | .error _, .ok n => some (.integer n)
  | .error _, .error _ => (number? digits).or (signedDigits? digits)

/-- What a plain scalar means; not everywhere can it be a point in time. -/
def ofPlain (dated : Bool) (s : Bytes) : ConfigValue :=
  match words.find? fun (word, _) => utf8 word == s with
  | some (_, v) => v
  | none =>
    match s with
    | 46 :: _ => (fraction? s).getD (.text s)
    | b :: _ =>
      if isDigit b || b = 43 || b = 45 then
        let time? := if dated then (Timestamp.read? s).map .time else none
        (time?.or (numeral? s)).getD (.text s)
      else .text s
    | [] => .null

def strTag : Bytes := utf8 "!!str"

def nullTag : Bytes := utf8 "!!null"

def timeTag : Bytes := utf8 "!!timestamp"

def floatTag : Bytes := utf8 "!!float"

def binaryTag : Bytes := utf8 "!!binary"

/-- Tags that a scalar has to live up to. -/
def strictTags : List Bytes :=
  [utf8 "!!bool", utf8 "!!int", floatTag, nullTag, timeTag]

/-- What a scalar with a tag means, or why it means nothing. A tag that says nothing about scalars
makes it text. -/
def ofTagged (tag s : Bytes) : Except Bytes ConfigValue :=
  if tag = binaryTag then
    match Base64.decode? s with
    | some data => .ok (.text data)
    | none => .error (utf8 "!!binary value contains invalid base64 data")
  else if !strictTags.contains tag then .ok (.text s)
  else
    let v := ofPlain (tag = timeTag) s
    let refused := utf8 "cannot decode " ++ v.tag ++ utf8 " `" ++ s ++ utf8 "` as a " ++ tag
    match v with
    | .integer n =>
      if tag = v.tag then .ok v
      else if tag = floatTag && Decimal.fitsInt64 n then
        .ok (.number (.ofRatio (n < 0) n.natAbs 1))
      else .error refused
    | v => if tag = v.tag then .ok v else .error refused

end ConfigValue

end Stepwise
