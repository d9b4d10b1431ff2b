import Stepwise.Number.Decimal

/-! The shapes of values, as messages name them. -/

namespace Stepwise

/-- `absent` is the shape of no value, `unknown` that of a value only a run can tell. -/
inductive Shape where
  | absent
  | unknown
  | null
  | boolean
  | integer
  | string
  | function
  | native
  | loopStack
  deriving DecidableEq, Repr

namespace Shape

def name : Shape → Bytes
  | .absent => utf8 "absent"
  | .unknown => utf8 "unknown"
  | .null => utf8 "null"
  | .boolean => utf8 "boolean"
  | .integer => utf8 "integer"
  | .string => utf8 "string"
  | .function => utf8 "function"
  | .native => utf8 "native_function"
  | .loopStack => utf8 "loop_stack"

/-- The shapes that values have, by number. -/
def ofCode? : Int → Option Shape
  | 0 => some .null
  | 1 => some .boolean
  | 2 => some .integer
  | 3 => some .string
  | 4 => some .function
  | 5 => some .native
  | 6 => some .loopStack
  | _ => none

/-- The name of a shape number, whether it has a shape or not. -/
def codeName (code : Int) : Bytes :=
  match ofCode? code with
  | some shape => shape.name
  | none => utf8 "unknown_kind_" ++ Decimal.ofInt code

end Shape

end Stepwise
