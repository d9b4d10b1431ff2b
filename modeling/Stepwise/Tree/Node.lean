import Stepwise.Tree

/-! Any part of a tree as a node: its type, its place, its children in order, and the walk over all
of its parts. -/

namespace Stepwise

inductive NodeType where
  | program
  | block
  | ifStatement
  | timesStatement
  | setStatement
  | callStatement
  | callExpression
  | function
  | symbol
  | number
  | boolean
  | null
  | string
  | forever
  | symbolList
  deriving DecidableEq, Repr

def NodeType.name : NodeType → Bytes
  | .program => utf8 "Program"
  | .block => utf8 "Block"
  | .ifStatement => utf8 "IfStatement"
  | .timesStatement => utf8 "TimesStatement"
  | .setStatement => utf8 "SetStatement"
  | .callStatement => utf8 "CallStatement"
  | .callExpression => utf8 "CallExpression"
  | .function => utf8 "Function"
  | .symbol => utf8 "Symbol"
  | .number => utf8 "Number"
  | .boolean => utf8 "Boolean"
  | .null => utf8 "Null"
  | .string => utf8 "String"
  | .forever => utf8 "Forever"
  | .symbolList => utf8 "SymbolList"

inductive Node where
  | program (p : Program)
  | block (b : Block)
  | stmt (s : Stmt)
  | expr (e : Expr)
  | params (ps : Params)

def Expr.type? : Expr → Option NodeType
  | .missing => none
  | .symbol _ => some .symbol
  | .number _ _ => some .number
  | .boolean _ _ => some .boolean
  | .null _ => some .null
  | .string _ _ => some .string
  | .forever _ => some .forever
  | .call _ _ _ => some .callExpression
  | .function _ _ _ => some .function

def Stmt.type? : Stmt → Option NodeType
  | .missing => none
  | .set _ _ _ => some .setStatement
  | .branch _ _ _ _ => some .ifStatement
  | .times _ _ _ => some .timesStatement
  | .call _ _ _ => some .callStatement

namespace Node

/-- The type of a node that is there. -/
def type? : Node → Option NodeType
  | .program _ => some .program
  | .block b => if b.isMissing then none else some .block
  | .stmt s => s.type?
  | .expr e => e.type?
  | .params _ => some .symbolList

def span : Node → Span
  | .program p => p.span
  | .block b => b.span
  | .stmt s => s.span
  | .expr e => e.span
  | .params ps => ps.span

def isMissing (n : Node) : Bool := n.type?.isNone

/-- The children that are there, in order. -/
def children : Node → List Node
  | .program p => present (p.body.map .stmt)
  | .block b => present (b.body.map .stmt)
  | .stmt (.set _ target value) => targets target ++ present [.expr value]
  | .stmt (.branch _ c t e) => present [.expr c, .block t, .block e]
  | .stmt (.times _ count body) => present [.expr count, .block body]
  | .stmt (.call _ callee args) => present (.expr callee :: args.map .expr)
  | .stmt .missing => []
  | .expr (.call _ callee args) => present (.expr callee :: args.map .expr)
  | .expr (.function _ ps body) => lists ps ++ present [.block body]
  | .expr _ => []
  | .params ps => ps.symbols.map fun s => .expr (.symbol s)
where
  present (ns : List Node) : List Node := ns.filter fun n => !n.isMissing
  targets : Option Symbol → List Node
    | none => []
    | some s => [.expr (.symbol s)]
  lists : Option Params → List Node
    | none => []
    | some ps => [.params ps]

/-- The child with a number, when there is one. -/
def childAt? (n : Node) (index : Int) : Option Node :=
  if index < 0 then none else n.children[index.toNat]?

end Node

/-- A node met on a walk, with the number of nodes above it. -/
structure Visit where
  depth : Nat
  node : Node

namespace Visit

/-- A node before what stands below it, unless the walk does not descend there. -/
def enter (descend : Node → Bool) (depth : Nat) (n : Node) (below : List Visit) : List Visit :=
  ⟨depth, n⟩ :: if descend n then below else []

def symbols (descend : Node → Bool) (depth : Nat) (syms : List Symbol) : List Visit :=
  syms.flatMap fun s => enter descend depth (.expr (.symbol s)) []

def params (descend : Node → Bool) (depth : Nat) (ps : Params) : List Visit :=
  enter descend depth (.params ps) (symbols descend (depth + 1) ps.symbols)

def params? (descend : Node → Bool) (depth : Nat) : Option Params → List Visit
  | none => []
  | some ps => params descend depth ps

mutual

def expr (descend : Node → Bool) (depth : Nat) : Expr → List Visit
  | .missing => []
  | .call sp callee args =>
    enter descend depth (.expr (.call sp callee args))
      (expr descend (depth + 1) callee ++ exprs descend (depth + 1) args)
  | .function sp ps body =>
    enter descend depth (.expr (.function sp ps body))
      (params? descend (depth + 1) ps ++ block descend (depth + 1) body)
  | .symbol s => enter descend depth (.expr (.symbol s)) []
  | .number sp v => enter descend depth (.expr (.number sp v)) []
  | .boolean sp v => enter descend depth (.expr (.boolean sp v)) []
  | .null sp => enter descend depth (.expr (.null sp)) []
  | .string sp v => enter descend depth (.expr (.string sp v)) []
  | .forever sp => enter descend depth (.expr (.forever sp)) []

def exprs (descend : Node → Bool) (depth : Nat) : List Expr → List Visit
  | [] => []
  | e :: es => expr descend depth e ++ exprs descend depth es

def block (descend : Node → Bool) (depth : Nat) : Block → List Visit
  | .missing => []
  | .of sp body => enter descend depth (.block (.of sp body)) (stmts descend (depth + 1) body)

def stmts (descend : Node → Bool) (depth : Nat) : List Stmt → List Visit
  | [] => []
  | s :: ss => stmt descend depth s ++ stmts descend depth ss

def stmt (descend : Node → Bool) (depth : Nat) : Stmt → List Visit
  | .missing => []
  | .set sp target value =>
    enter descend depth (.stmt (.set sp target value))
      (symbols descend (depth + 1) target.toList ++ expr descend (depth + 1) value)
  | .branch sp c t e =>
    enter descend depth (.stmt (.branch sp c t e))
      (expr descend (depth + 1) c ++ block descend (depth + 1) t ++ block descend (depth + 1) e)
  | .times sp count body =>
    enter descend depth (.stmt (.times sp count body))
      (expr descend (depth + 1) count ++ block descend (depth + 1) body)
  | .call sp callee args =>
    enter descend depth (.stmt (.call sp callee args))
      (expr descend (depth + 1) callee ++ exprs descend (depth + 1) args)

end

end Visit

/-- All parts of a node, a node before its children; below a node where `descend` fails nothing is
visited. -/
def Node.walk (descend : Node → Bool) : Node → List Visit
  | .program p => Visit.enter descend 0 (.program p) (Visit.stmts descend 1 p.body)
  | .block b => Visit.block descend 0 b
  | .stmt s => Visit.stmt descend 0 s
  | .expr e => Visit.expr descend 0 e
  | .params ps => Visit.params descend 0 ps

end Stepwise
