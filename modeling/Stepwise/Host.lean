import Stepwise.Failure
import Stepwise.Store

/-! What the natives do. A native sees the store, the scope it is called from and what has been written
so far, and answers with texts to print and with a value or a failure; it writes no scope. What has been
written is all that a native remembers of earlier calls: a host is a function, and natives with a state of
their own are none. -/

namespace Stepwise

/-- A write that fails: the part of the text that was taken nevertheless, and why no more of it was. -/
structure Refusal where
  taken : Bytes
  reason : Failure

/-- Where printed texts go. What becomes of a text may depend on what has been written before; a write
that fails leaves the part that was taken, which may be empty, so all writes that were tried are told
apart. -/
abbrev Writer := (written : Array Bytes) → Bytes → Option Refusal

/-- A writer that takes everything. -/
def Writer.unfailing : Writer := fun _ _ => none

structure Reply where
  writes : List Bytes
  result : Except Failure Value

namespace Reply

def value (v : Value) : Reply := ⟨[], .ok v⟩

def failure (f : Failure) : Reply := ⟨[], .error f⟩

/-- A failure that the place of the call is added to. -/
def cause (c : Cause) : Reply := failure (.diagnostic ⟨c, .nowhere⟩)

end Reply

abbrev Host := Native → Store → ScopeId → List Value → (written : Array Bytes) → Reply

/-- An answer that does not depend on what has been written. -/
instance : Coe Reply (Array Bytes → Reply) := ⟨fun reply _ => reply⟩

/-- The natives that every top level has. -/
inductive Primitive where
  | add
  | subtract
  | multiply
  | divide
  | not
  | print
  deriving DecidableEq, Repr

namespace Primitive

def all : List Primitive := [.add, .subtract, .multiply, .divide, .not, .print]

def name : Primitive → Name
  | .add => utf8 "add"
  | .subtract => utf8 "subtract"
  | .multiply => utf8 "multiply"
  | .divide => utf8 "divide"
  | .not => utf8 "not"
  | .print => utf8 "print"

def arity : Primitive → Nat
  | .add | .subtract | .multiply | .divide => 2
  | .not | .print => 1

/-- Printing is the one effect a primitive has. -/
def isPure : Primitive → Bool
  | .print => false
  | _ => true

def native (p : Primitive) : Native := ⟨p.name, some p.arity, p.isPure⟩

/-- The primitive that a native is, if it is one. -/
def ofNative? (n : Native) : Option Primitive := all.find? fun p => p.native == n

/-- Arithmetic wraps around; a quotient is cut off towards zero. -/
def arithmetic : Primitive → Int64 → Int64 → Except Cause Int64
  | .add, x, y => .ok (x + y)
  | .subtract, x, y => .ok (x - y)
  | .multiply, x, y => .ok (x * y)
  | .divide, x, y => if y = 0 then .error .divisionByZero else .ok (x / y)
  | p, _, _ => .error (.operands p.name .integer .integer)

def binary (p : Primitive) : Value → Value → Except Cause Value
  | .integer x, .integer y => (p.arithmetic x y).map .integer
  | .string a, .string b =>
    if p = .add then .ok (.string (a ++ b)) else .error (.operands p.name .string .string)
  | a, b => .error (.operands p.name a.shape b.shape)

/-- Prints a line. A write that fails is a failure of the program without a diagnostic of its own. -/
def write (writer : Writer) (line : Bytes) (written : Array Bytes) : Reply :=
  match writer written line with
  | none => ⟨[line], .ok .null⟩
  | some refusal => ⟨[refusal.taken], .error (.wrapped Primitive.print.name refusal.reason)⟩

/-- What a primitive answers; the number of arguments has been checked before. -/
def call (p : Primitive) (writer : Writer) (s : Store) (args : List Value) (written : Array Bytes) :
    Reply :=
  match p, args with
  | .not, [v] => .value (.boolean !v.isTruthy)
  | .print, [v] => write writer (s.text v ++ [10]) written
  | p, [a, b] =>
    match p.binary a b with
    | .ok v => .value v
    | .error c => .cause c
  | p, args => .cause (.nativeArity p.name p.arity args.length)

end Primitive

/-- The host that knows the primitives alone, and prints to a writer. -/
def primitivesOn (writer : Writer) : Host := fun n s _ args written =>
  match Primitive.ofNative? n with
  | some p => p.call writer s args written
  | none => .failure (.plain (utf8 "unknown native " ++ n.name))

/-- The primitives with a writer that does not fail. -/
def primitives : Host := primitivesOn .unfailing

/-- A scope with the primitives and nothing around it. -/
def Store.addTopLevel (s : Store) : Store :=
  s.addRoot (.ofList (Primitive.all.map fun p => (p.name, .native p.native)))

end Stepwise
