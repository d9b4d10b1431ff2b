import Stepwise.Shape
import Stepwise.Tree

/-! Values of the language. -/

namespace Stepwise

/-- Scopes are known by number, in the order they were made. -/
abbrev ScopeId := Nat

/-- A built-in function as programs see it. Without an arity it takes any number of arguments; a
pure one has no effect beyond its answer. -/
structure Native where
  name : Name
  arity : Option Nat
  isPure : Bool
  deriving DecidableEq, Repr

/-- A function of the program with the scope it was made in. Two closures are the same when they
come from the same evaluation of a function literal, which the number tells. -/
structure Closure where
  id : Nat
  literal : Literal
  scope : ScopeId

/-- `absent` is what an empty block leaves. A loop stack is shared: the value is only its number. -/
inductive Value where
  | absent
  | null
  | boolean (b : Bool)
  | integer (n : Int64)
  | string (s : Bytes)
  | function (c : Closure)
  | native (n : Native)
  | loops (ref : Nat)

namespace Value

instance : Inhabited Value := ⟨.absent⟩

def shape : Value → Shape
  | .absent => .absent
  | .null => .null
  | .boolean _ => .boolean
  | .integer _ => .integer
  | .string _ => .string
  | .function _ => .function
  | .native _ => .native
  | .loops _ => .loopStack

/-- Only absent, null and false are not. -/
def isTruthy : Value → Bool
  | .absent | .null => false
  | .boolean b => b
  | _ => true

/-- Null in the place of no value. -/
def orNull : Value → Value
  | .absent => .null
  | v => v

def isCallable : Value → Bool
  | .function _ | .native _ => true
  | _ => false

/-- Scalars are equal by content, closures by identity, natives by name; a loop stack equals
nothing. -/
def equal : Value → Value → Bool
  | .absent, .absent => true
  | .null, .null => true
  | .boolean a, .boolean b => a == b
  | .integer a, .integer b => a == b
  | .string a, .string b => a == b
  | .function a, .function b => a.id == b.id
  | .native a, .native b => a.name == b.name
  | _, _ => false

end Value

/-- The state of a loop that is under way. -/
structure LoopFrame where
  iteration : Int64
  bound : Int64
  forever : Bool
  deriving DecidableEq, Repr

namespace LoopFrame

def counted (bound : Int64) : LoopFrame := ⟨0, bound, false⟩

def endless : LoopFrame := ⟨0, 0, true⟩

def done (f : LoopFrame) : Bool := !f.forever && f.bound ≤ f.iteration

def next (f : LoopFrame) : LoopFrame := { f with iteration := f.iteration + 1 }

end LoopFrame

end Stepwise
