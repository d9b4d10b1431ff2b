import Stepwise.Host

/-! Checking a tree without running it. Every statement is visited once: both branches of a
condition, each loop body once, and function bodies after everything outside of them. What is known
of a value is the value itself or nothing; assignments go to scratch scopes that no one else
sees. -/

namespace Stepwise

/-- What the check knows of a value. -/
inductive Finding where
  | known (v : Value)
  | unknown

namespace Finding

def shape : Finding → Shape
  | .known v => v.shape
  | .unknown => .unknown

def orNull : Finding → Finding
  | .known v => .known v.orNull
  | .unknown => .unknown

def isFunction : Finding → Bool
  | .known (.function _) => true
  | _ => false

/-- What a native finds in the place of it: no value where none is known. -/
def seen : Finding → Value
  | .known v => v
  | .unknown => .absent

/-- What is left of it when anything may have been assigned since: functions stay functions. -/
def forgotten (f : Finding) : Finding := if f.isFunction then f else .unknown

/-- The values of findings, if all of them are known. -/
def values? : List Finding → Option (List Value)
  | [] => some []
  | .known v :: rest => (values? rest).map (v :: ·)
  | .unknown :: _ => none

end Finding

/-- Scratch scopes are known by number too; outside of them all lies the scope checked against. -/
abbrev ScratchId := Nat

structure Scratch where
  bindings : Bindings Finding
  /-- The scratch scopes around this one, innermost first. -/
  outer : List ScratchId

/-- A function body that waits for its turn, with the scratch scope of its definition. -/
structure Waiting where
  literal : Literal
  scope : ScratchId

structure CheckState where
  scopes : Array Scratch
  /-- The scopes that the check has made, in this order. They are all there are, unless it works in a heap
  that holds other scopes as well. -/
  made : Array ScratchId
  /-- Bodies still to be visited, in the order their functions were met. -/
  waiting : Array Waiting
  /-- The statements visited so far. -/
  visited : Array Stmt
  /-- What the natives that were called have printed. -/
  written : Array Bytes

abbrev Checking := EStateM Failure CheckState

/-- What a check is made against. -/
structure Ground where
  host : Host
  store : Store
  scope : ScopeId

/-- A scratch scope as a native sees it: among the scopes of the store, and inside of the scope that is
checked against. -/
def Ground.shown (g : Ground) (scratch : Scratch) : Scope :=
  ⟨scratch.bindings.map Finding.seen,
    scratch.outer.map (g.store.nextScope + ·) ++ g.store.chain g.scope⟩

namespace CheckState

def initial : CheckState := ⟨#[], #[], #[], #[], #[]⟩

def bindings (c : CheckState) (id : ScratchId) : Bindings Finding :=
  match c.scopes[id]? with
  | some scratch => scratch.bindings
  | none => .empty

def chain (c : CheckState) (id : ScratchId) : List ScratchId :=
  match c.scopes[id]? with
  | some scratch => id :: scratch.outer
  | none => []

def get? (c : CheckState) (ground : Ground) (id : ScratchId) (name : Name) : Option Finding :=
  match (c.chain id).findSome? fun i => (c.bindings i).get? name with
  | some f => some f
  | none => (ground.store.get? ground.scope name).map .known

def set (c : CheckState) (id : ScratchId) (name : Name) (f : Finding) : CheckState :=
  { c with scopes := c.scopes.modify id fun scratch =>
      { scratch with bindings := scratch.bindings.insert name f } }

def extend (c : CheckState) (outer : List ScratchId) (bindings : Bindings Finding) : CheckState :=
  { c with scopes := c.scopes.push ⟨bindings, outer⟩, made := c.made.push c.scopes.size }

/-- Nothing is known of some names in a scope. -/
def forgetAll (c : CheckState) (id : ScratchId) (names : List Name) : CheckState :=
  names.foldl (fun c name => c.set id name .unknown) c

/-- Nothing assigned so far is known any more, except that functions stay functions. -/
def forget (c : CheckState) : CheckState :=
  { c with scopes := c.scopes.map fun scratch =>
      { scratch with bindings := scratch.bindings.map Finding.forgotten } }

/-- The store with the scratch scopes behind all others, which is what natives are called with. -/
def shown (c : CheckState) (ground : Ground) : Store :=
  { ground.store with scopes := ground.store.scopes ++ c.scopes.map ground.shown }

end CheckState

namespace Checking

def fail {α : Type} (cause : Cause) (span : Span) : Checking α :=
  throw (.diagnostic ⟨cause, span⟩)

def lookup (ground : Ground) (scope : ScratchId) (s : Symbol) : Checking Finding := fun c =>
  match c.get? ground scope s.name with
  | some f => .ok f c
  | none => .error (.diagnostic ⟨.unbound s.name, s.span⟩) c

def assign (scope : ScratchId) (name : Name) (f : Finding) : Checking Unit := fun c =>
  .ok () (c.set scope name f)

/-- A scratch scope inside another one. -/
def openScope (outer : List ScratchId) (bindings : Bindings Finding) : Checking ScratchId :=
  fun c => .ok c.scopes.size (c.extend outer bindings)

/-- Puts a body off until what is outside of it has been visited, and tells its turn. -/
def wait (literal : Literal) (scope : ScratchId) : Checking Nat := fun c =>
  .ok c.waiting.size { c with waiting := c.waiting.push ⟨literal, scope⟩ }

/-- Calls a native, which sees the scope that the check is in; a failure without a place gets that of the
call. -/
def askNative (ground : Ground) (scope : ScratchId) (span : Span) (n : Native) (args : List Value) :
    Checking Finding := fun c =>
  let reply := ground.host n (c.shown ground) (ground.store.nextScope + scope) args c.written
  let c := { c with written := c.written ++ reply.writes }
  match reply.result with
  | .ok v => .ok (.known v) c
  | .error f => .error (f.placedAt span) c

def visit (s : Stmt) : Checking Unit := fun c => .ok () { c with visited := c.visited.push s }

/-- Visits a body that runs any number of times, or not at all: what it assigns is unknown
afterwards. -/
def branch (scope : ScratchId) (body : ScratchId → Checking Finding) : Checking Unit := do
  let inner ← openScope ((← get).chain scope) .empty
  let _ ← body inner
  modify fun c => c.forgetAll scope (c.bindings inner).names

end Checking

open Checking

/-- A pure native is called when all its arguments are known. -/
def checkNative (ground : Ground) (scope : ScratchId) (span : Span) (n : Native)
    (args : List Finding) : Checking Finding :=
  if n.isPure then
    match Finding.values? args with
    | some vs => askNative ground scope span n vs
    | none => return .unknown
  else return .unknown

def checkApply (ground : Ground) (scope : ScratchId) (span : Span) (callee : Finding)
    (args : List Finding) : Checking Finding :=
  match callee with
  | .unknown => return .unknown
  | .known (.native n) =>
    match n.arity with
    | some expected =>
      if args.length = expected then checkNative ground scope span n args
      else fail (.nativeArity n.name expected args.length) span
    | none => checkNative ground scope span n args
  | .known (.function c) =>
    if args.length = c.literal.arity then return .unknown
    else fail (.functionArity c.literal.arity args.length) span
  | .known v => fail (.notCallable v.shape) span

mutual

def checkExpr (ground : Ground) (scope : ScratchId) : Expr → Checking Finding
  | .missing => fail .missingNode .nowhere
  | .symbol s => lookup ground scope s
  | .number _ n => return .known (.integer n)
  | .boolean _ b => return .known (.boolean b)
  | .null _ => return .known .null
  | .string _ s => return .known (.string s)
  | .forever span => fail .foreverAsValue span
  | .function span params body =>
    if body.isMissing then fail .functionWithoutBody span
    else do
      let turn ← wait ⟨span, params, body⟩ scope
      return .known (.function ⟨ground.store.closures + turn, ⟨span, params, body⟩, ground.scope⟩)
  | .call span callee args =>
    if callee.isMissing then fail .callWithoutCallee span
    else do
      let f ← checkExpr ground scope callee
      let vs ← checkArgs ground scope args
      checkApply ground scope span f vs

def checkArgs (ground : Ground) (scope : ScratchId) : List Expr → Checking (List Finding)
  | [] => return []
  | e :: es => do
    let f ← checkExpr ground scope e
    let fs ← checkArgs ground scope es
    return f.orNull :: fs

end

def checkCount (ground : Ground) (scope : ScratchId) (span : Span) (count : Expr) :
    Checking Unit :=
  match count with
  | .missing => fail .timesWithoutCount span
  | .forever _ => return
  | .number _ _ => return
  | .symbol s => do
    match ← checkExpr ground scope (.symbol s) with
    | .unknown => return
    | .known (.integer _) => return
    | .known v => fail (.countNotInteger v.shape) s.span
  | .boolean span _ => fail (.countNotAllowed .boolean) span
  | .null span => fail (.countNotAllowed .null) span
  | .string span _ => fail (.countNotAllowed .string) span
  | .call span _ _ => fail (.countNotAllowed .callExpression) span
  | .function span _ _ => fail (.countNotAllowed .function) span

mutual

def checkStmt (ground : Ground) (scope : ScratchId) : Stmt → Checking Finding
  | .missing => fail .missingNode .nowhere
  | .set span target value =>
    match target with
    | none => fail .incompleteSet span
    | some symbol =>
      if value.isMissing then fail .incompleteSet span
      else do
        let f ← checkExpr ground scope value
        assign scope symbol.name f.orNull
        return f.orNull
  | .branch span condition thenBlock elseBlock =>
    if condition.isMissing || thenBlock.isMissing then fail .incompleteIf span
    else do
      let _ ← checkExpr ground scope condition
      branch scope fun inner => checkBlock ground inner thenBlock
      if !elseBlock.isMissing then
        branch scope fun inner => checkBlock ground inner elseBlock
      return .unknown
  | .times span count body =>
    if body.isMissing then fail .timesWithoutBody span
    else do
      checkCount ground scope span count
      branch scope fun inner => checkBlock ground inner body
      return .unknown
  | .call span callee args => checkExpr ground scope (.call span callee args)

def checkBlock (ground : Ground) (scope : ScratchId) : Block → Checking Finding
  | .missing => return .known .absent
  | .of _ body => checkBody ground scope (.known .absent) body

def checkBody (ground : Ground) (scope : ScratchId) (last : Finding) :
    List Stmt → Checking Finding
  | [] => return last
  | s :: rest => do
    visit s
    let f ← checkStmt ground scope s
    checkBody ground scope f rest

end

/-- Visits a function body: anything may have been assigned since its definition, and its arguments
can be anything. -/
def checkWaiting (ground : Ground) (w : Waiting) : Checking Unit := do
  modify CheckState.forget
  let params := w.literal.paramNames.map fun name => (name, Finding.unknown)
  let scope ← openScope ((← get).chain w.scope) (.ofList params)
  let _ ← checkBlock ground scope w.literal.body

/-- Visits waiting bodies in turn, those that join on the way included. -/
def checkAllWaiting (ground : Ground) : (bodies : Nat) → (turn : Nat) → Checking Unit
  | 0, _ => return
  | bodies + 1, turn => do
    match (← get).waiting[turn]? with
    | none => return
    | some w =>
      checkWaiting ground w
      checkAllWaiting ground bodies (turn + 1)

/-- The function literals of a tree, one inside another counted as well. -/
def Node.literalCount (n : Node) : Nat :=
  (n.walk fun _ => true).countP fun visit => visit.node.type? == some .function

def checkNode (ground : Ground) (scope : ScratchId) : Node → Checking Finding
  | .program p => checkBody ground scope (.known .absent) p.body
  | .block b => checkBlock ground scope b
  | .stmt s => checkStmt ground scope s
  | .expr e => checkExpr ground scope e
  | .params ps => fail (.unexpectedNode .symbolList) ps.span

/-- Checks a node against a scope. The value is that of the last statement if it is known without a
run, and absent otherwise. -/
def check (ground : Ground) (n : Node) : Checking Value := do
  let scope ← openScope [] .empty
  let f ← checkNode ground scope n
  checkAllWaiting ground n.literalCount 0
  match f with
  | .known v => return v
  | .unknown => return .absent

end Stepwise
