import Stepwise.Span

/-! Program trees. A tree may be read from a source or put together by hand; in the second case any
part of it can be missing. -/

namespace Stepwise

abbrev Name := Bytes

structure Symbol where
  span : Span
  name : Name
  deriving DecidableEq, Repr

structure Params where
  span : Span
  symbols : List Symbol
  deriving DecidableEq, Repr

mutual

inductive Expr where
  | missing
  | symbol (s : Symbol)
  | number (span : Span) (value : Int64)
  | boolean (span : Span) (value : Bool)
  | null (span : Span)
  | string (span : Span) (value : Bytes)
  | forever (span : Span)
  | call (span : Span) (callee : Expr) (args : List Expr)
  | function (span : Span) (params : Option Params) (body : Block)

inductive Block where
  | missing
  | of (span : Span) (body : List Stmt)

inductive Stmt where
  | missing
  | set (span : Span) (target : Option Symbol) (value : Expr)
  | branch (span : Span) (condition : Expr) (thenBlock elseBlock : Block)
  | times (span : Span) (count : Expr) (body : Block)
  | call (span : Span) (callee : Expr) (args : List Expr)

end

instance : Inhabited Expr := ⟨.missing⟩
instance : Inhabited Block := ⟨.missing⟩
instance : Inhabited Stmt := ⟨.missing⟩

structure Program where
  span : Span
  body : List Stmt
  deriving Inhabited

/-- A function as written. -/
structure Literal where
  span : Span
  params : Option Params
  body : Block
  deriving Inhabited

namespace Params

def names : Option Params → List Name
  | none => []
  | some ps => ps.symbols.map Symbol.name

end Params

namespace Literal

def paramNames (l : Literal) : List Name := Params.names l.params

def arity (l : Literal) : Nat := l.paramNames.length

end Literal

namespace Expr

def isMissing : Expr → Bool
  | .missing => true
  | _ => false

def span : Expr → Span
  | .missing => .nowhere
  | .symbol s => s.span
  | .number sp _ | .boolean sp _ | .null sp | .string sp _ | .forever sp => sp
  | .call sp _ _ | .function sp _ _ => sp

end Expr

namespace Block

def isMissing : Block → Bool
  | .missing => true
  | .of _ _ => false

def span : Block → Span
  | .missing => .nowhere
  | .of sp _ => sp

def body : Block → List Stmt
  | .missing => []
  | .of _ body => body

end Block

namespace Stmt

def isMissing : Stmt → Bool
  | .missing => true
  | _ => false

def span : Stmt → Span
  | .missing => .nowhere
  | .set sp _ _ | .branch sp _ _ _ | .times sp _ _ | .call sp _ _ => sp

end Stmt

end Stepwise
