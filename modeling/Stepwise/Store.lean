import Stepwise.Bindings
import Stepwise.Number.Decimal
import Stepwise.Value

/-! The store: all scopes and loop stacks there are, each known by its number. Scopes are made and
written, never removed; a lookup goes outwards, a write stays in its scope. -/

namespace Stepwise

structure Scope where
  bindings : Bindings Value
  /-- The scopes around this one, innermost first. -/
  outer : List ScopeId
  deriving Inhabited

/-- Frames from the top of the stack down. -/
abbrev LoopStack := List LoopFrame

structure Store where
  scopes : Array Scope
  loopStacks : Array LoopStack
  /-- How many closures have been made. -/
  closures : Nat
  deriving Inhabited

namespace Store

def empty : Store := ⟨#[], #[], 0⟩

/-- A scope with its own number before those around it. -/
def chain (s : Store) (id : ScopeId) : List ScopeId :=
  match s.scopes[id]? with
  | some scope => id :: scope.outer
  | none => []

def bindings (s : Store) (id : ScopeId) : Bindings Value :=
  match s.scopes[id]? with
  | some scope => scope.bindings
  | none => .empty

/-- The binding a scope holds itself. -/
def lookup? (s : Store) (id : ScopeId) (name : Name) : Option Value := (s.bindings id).get? name

/-- The nearest binding from a scope outwards. -/
def get? (s : Store) (id : ScopeId) (name : Name) : Option Value :=
  (s.chain id).findSome? fun i => s.lookup? i name

def parent? (s : Store) (id : ScopeId) : Option ScopeId :=
  (s.scopes[id]?).bind fun scope => scope.outer.head?

def set (s : Store) (id : ScopeId) (name : Name) (v : Value) : Store :=
  { s with scopes := s.scopes.modify id fun scope =>
      { scope with bindings := scope.bindings.insert name v } }

def delete (s : Store) (id : ScopeId) (name : Name) : Store :=
  { s with scopes := s.scopes.modify id fun scope =>
      { scope with bindings := scope.bindings.erase name } }

/-- The number of the scope, or the loop stack, made next. -/
def nextScope (s : Store) : ScopeId := s.scopes.size

def nextStack (s : Store) : Nat := s.loopStacks.size

/-- Makes a scope inside another one; it is number `nextScope`. -/
def extend (s : Store) (parent : ScopeId) (bindings : Bindings Value) : Store :=
  { s with scopes := s.scopes.push ⟨bindings, s.chain parent⟩ }

/-- Makes a scope that nothing surrounds. -/
def addRoot (s : Store) (bindings : Bindings Value) : Store :=
  { s with scopes := s.scopes.push ⟨bindings, []⟩ }

def stack (s : Store) (ref : Nat) : LoopStack := (s.loopStacks[ref]?).getD []

def setStack (s : Store) (ref : Nat) (frames : LoopStack) : Store :=
  { s with loopStacks := s.loopStacks.setIfInBounds ref frames }

/-- Makes a loop stack; it is number `nextStack`. -/
def addStack (s : Store) (frames : LoopStack) : Store :=
  { s with loopStacks := s.loopStacks.push frames }

/-- The closure of a literal in a scope, which no other closure equals. -/
def closure (s : Store) (literal : Literal) (scope : ScopeId) : Closure :=
  ⟨s.closures, literal, scope⟩

def countClosure (s : Store) : Store := { s with closures := s.closures + 1 }

/-- A value the way programs print it. -/
def text (s : Store) : Value → Bytes
  | .absent | .null => utf8 "null"
  | .boolean true => utf8 "true"
  | .boolean false => utf8 "false"
  | .integer n => Decimal.ofWord n
  | .string s => s
  | .function c => utf8 "<function (" ++ Bytes.join [32] c.literal.paramNames ++ utf8 ")>"
  | .native n => utf8 "<native " ++ n.name ++ utf8 ">"
  | .loops ref => utf8 "<loops " ++ Decimal.ofNat (s.stack ref).length ++ utf8 ">"

end Store

/-- The name under which a scope keeps its loop stack. No symbol is spelled like it. -/
def loopBinding : Name := utf8 "@loops"

namespace Store

/-- The stack that a scope keeps its loops on, if it has one. -/
def loops? (s : Store) (id : ScopeId) : Option Nat :=
  match s.lookup? id loopBinding with
  | some (.loops ref) => some ref
  | _ => none

/-- The frames of the loops under way in a scope, the outermost on top. -/
def frames (s : Store) (id : ScopeId) : LoopStack :=
  match s.loops? id with
  | some ref => s.stack ref
  | none => []

/-- Forgets the loops under way in a scope. -/
def clearLoops (s : Store) (id : ScopeId) : Store := s.delete id loopBinding

end Store

end Stepwise
