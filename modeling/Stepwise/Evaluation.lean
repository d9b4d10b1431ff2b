import Stepwise.Host

/-! Running a tree to its end. Calls go no deeper than a limit, and a run stops when its polls are
used up, so it always ends: with a value, with a failure of the program, or canceled. A run that no
one cancels is what more and more polls lead to. -/

namespace Stepwise

/-- What a run changes: the store, the texts it prints, and the polls it may still make. -/
structure World where
  store : Store
  written : Array Bytes
  polls : Nat

abbrev Execution := EStateM Failure World

/-- Natives and the depth to which calls may nest. -/
structure Setting where
  host : Host
  depth : Nat

namespace Execution

def fail {α : Type} (cause : Cause) (span : Span) : Execution α :=
  throw (.diagnostic ⟨cause, span⟩)

/-- Asks whether to go on. -/
def poll : Execution Unit := fun w =>
  match w.polls with
  | 0 => .error .canceled w
  | n + 1 => .ok () { w with polls := n }

def lookup (scope : ScopeId) (s : Symbol) : Execution Value := fun w =>
  match w.store.get? scope s.name with
  | some v => .ok v w
  | none => .error (.diagnostic ⟨.unbound s.name, s.span⟩) w

def assign (scope : ScopeId) (name : Name) (v : Value) : Execution Unit := fun w =>
  .ok () { w with store := w.store.set scope name v }

def makeClosure (scope : ScopeId) (literal : Literal) : Execution Value := fun w =>
  .ok (.function (w.store.closure literal scope)) { w with store := w.store.countClosure }

/-- A new scope with each parameter bound to its argument. -/
def openScope (c : Closure) (args : List Value) : Execution ScopeId := fun w =>
  .ok w.store.nextScope
    { w with store := w.store.extend c.scope (.ofList (c.literal.paramNames.zip args)) }

/-- Calls a native; a failure without a place gets that of the call. -/
def callNative (host : Host) (scope : ScopeId) (span : Span) (n : Native) (args : List Value) :
    Execution Value := fun w =>
  let reply := host n w.store scope args w.written
  let w := { w with written := w.written ++ reply.writes }
  match reply.result with
  | .ok v => .ok v w
  | .error f => .error (f.placedAt span) w

end Execution

open Execution

/-- How a closure is entered, with the place of the call. -/
abbrev Invoke := Span → Closure → List Value → Execution Value

/-- Calls a value with arguments that have been evaluated. -/
def applyValue (host : Host) (invoke : Invoke) (scope : ScopeId) (span : Span) (callee : Value)
    (args : List Value) : Execution Value := do
  poll
  match callee with
  | .native n =>
    match n.arity with
    | some expected =>
      if args.length = expected then callNative host scope span n args
      else fail (.nativeArity n.name expected args.length) span
    | none => callNative host scope span n args
  | .function c =>
    if args.length = c.literal.arity then invoke span c args
    else fail (.functionArity c.literal.arity args.length) span
  | v => fail (.notCallable v.shape) span

mutual

def evalExpr (host : Host) (invoke : Invoke) (scope : ScopeId) : Expr → Execution Value
  | .missing => fail .missingNode .nowhere
  | .symbol s => lookup scope s
  | .number _ n => pure (.integer n)
  | .boolean _ b => pure (.boolean b)
  | .null _ => pure .null
  | .string _ s => pure (.string s)
  | .forever span => fail .foreverAsValue span
  | .function span params body =>
    if body.isMissing then fail .functionWithoutBody span
    else makeClosure scope ⟨span, params, body⟩
  | .call span callee args =>
    if callee.isMissing then fail .callWithoutCallee span
    else do
      let f ← evalExpr host invoke scope callee
      let vs ← evalArgs host invoke scope args
      applyValue host invoke scope span f vs

def evalArgs (host : Host) (invoke : Invoke) (scope : ScopeId) : List Expr → Execution (List Value)
  | [] => pure []
  | e :: es => do
    let v ← evalExpr host invoke scope e
    let vs ← evalArgs host invoke scope es
    return v.orNull :: vs

end

/-- Evaluates the count of a loop. -/
def startLoop (host : Host) (invoke : Invoke) (scope : ScopeId) (span : Span) (count : Expr)
    (body : Block) : Execution LoopFrame :=
  if body.isMissing then fail .timesWithoutBody span
  else
    match count with
    | .missing => fail .timesWithoutCount span
    | .forever _ => pure .endless
    | .number _ n => pure (.counted n)
    | .symbol s => do
      match ← evalExpr host invoke scope (.symbol s) with
      | .integer n => pure (.counted n)
      | v => fail (.countNotInteger v.shape) s.span
    | .boolean span _ => fail (.countNotAllowed .boolean) span
    | .null span => fail (.countNotAllowed .null) span
    | .string span _ => fail (.countNotAllowed .string) span
    | .call span _ _ => fail (.countNotAllowed .callExpression) span
    | .function span _ _ => fail (.countNotAllowed .function) span

/-- Runs a loop body until its frame is done. Every round makes a poll, so more rounds than there
are polls cannot be asked for. -/
def runLoop (body : Execution Value) : (rounds : Nat) → LoopFrame → Value → Execution Value
  | 0, _, _ => throw .canceled
  | rounds + 1, frame, last =>
    if frame.done then pure last
    else do
      poll
      let v ← body
      runLoop body rounds frame.next v

mutual

def evalStmt (host : Host) (invoke : Invoke) (scope : ScopeId) : Stmt → Execution Value
  | .missing => fail .missingNode .nowhere
  | .set span target value =>
    match target with
    | none => fail .incompleteSet span
    | some symbol =>
      if value.isMissing then fail .incompleteSet span
      else do
        let v ← evalExpr host invoke scope value
        assign scope symbol.name v.orNull
        return v.orNull
  | .branch span condition thenBlock elseBlock =>
    if condition.isMissing || thenBlock.isMissing then fail .incompleteIf span
    else do
      let v ← evalExpr host invoke scope condition
      if v.isTruthy then evalBlock host invoke scope thenBlock
      else if elseBlock.isMissing then return .null
      else evalBlock host invoke scope elseBlock
  | .times span count body => do
    let frame ← startLoop host invoke scope span count body
    let w ← get
    runLoop (evalBlock host invoke scope body) (w.polls + 1) frame .absent
  | .call span callee args => evalExpr host invoke scope (.call span callee args)

def evalBlock (host : Host) (invoke : Invoke) (scope : ScopeId) : Block → Execution Value
  | .missing => pure .absent
  | .of _ body => evalBody host invoke scope .absent body

/-- Runs statements in order; the value is that of the last one. -/
def evalBody (host : Host) (invoke : Invoke) (scope : ScopeId) (last : Value) :
    List Stmt → Execution Value
  | [] => pure last
  | s :: rest => do
    let v ← evalStmt host invoke scope s
    evalBody host invoke scope v rest

end

/-- Enters closures with `left` levels of calls to spare. -/
def invokeAt (setting : Setting) : (left : Nat) → Invoke
  | 0 => fun span _ _ => fail (.callDepth setting.depth) span
  | left + 1 => fun _ c args => do
    let scope ← openScope c args
    evalBlock setting.host (invokeAt setting left) scope c.literal.body

namespace Setting

/-- How deep calls may nest when nothing else is asked for. -/
def defaultDepth : Nat := 10000

def invoke (setting : Setting) : Invoke := invokeAt setting setting.depth

/-- Evaluates any node of a tree in a scope. -/
def evaluate (setting : Setting) (scope : ScopeId) : Node → Execution Value
  | .program p => evalBody setting.host setting.invoke scope .absent p.body
  | .block b => evalBlock setting.host setting.invoke scope b
  | .stmt s => evalStmt setting.host setting.invoke scope s
  | .expr e => evalExpr setting.host setting.invoke scope e
  | .params ps => fail (.unexpectedNode .symbolList) ps.span

end Setting

end Stepwise
