import Stepwise.Evaluation

/-! Running a tree one statement at a time. Between two steps nothing is kept but the location of
the statement that comes next and, in the scope, a stack with a frame for every loop the location is
inside of. At rest the outermost loop is on top: a step takes frames off on its way down, the
outermost loop first, and puts them back on its way up. -/

namespace Stepwise

open Execution

/-- The value of a step and where the next one starts, as seen from a part of the tree. -/
structure Stepped where
  value : Value
  next : Location

/-- What a step of a program answers, and where the next one starts. -/
structure StepReply where
  outcome : Except Failure Value
  next : Location

namespace LoopStack

/-- The number of the loop stack of a scope; it is made if need be. -/
def ensure (scope : ScopeId) : Execution Nat := fun w =>
  match w.store.loops? scope with
  | some ref => .ok ref w
  | none =>
    let ref := w.store.nextStack
    .ok ref { w with store := (w.store.addStack []).set scope loopBinding (.loops ref) }

def push (ref : Nat) (frame : LoopFrame) : Execution Unit := fun w =>
  .ok () { w with store := w.store.setStack ref (frame :: w.store.stack ref) }

def pop? (ref : Nat) : Execution (Option LoopFrame) := fun w =>
  match w.store.stack ref with
  | [] => .ok none w
  | frame :: frames => .ok (some frame) { w with store := w.store.setStack ref frames }

end LoopStack

/-- Past the part that a location is in. -/
def Location.past (l : Location) : Location := [l.head + 1]

/-- A condition is evaluated on the way in, which is where the path below still is at 0; then the
path leads into a branch. -/
def enterBranch (host : Host) (invoke : Invoke) (scope : ScopeId) (condition : Expr)
    (path : Location) : Execution Location :=
  if path.head = 0 then do
    let v ← evalExpr host invoke scope condition
    return if v.isTruthy then [1, 0] else [2, 0]
  else pure path

/-- After a step inside child number `child` of the statement at `loc`. -/
def Location.leave (loc : Location) (child : Int) (s : Stepped) : Stepped :=
  if s.next.head > child then ⟨s.value, loc.past⟩ else ⟨s.value, loc.head :: s.next⟩

/-- The frame of the loop at `loc` and its loop stack: `entered` on the way in, else the frame on
top. -/
def takeFrame (scope : ScopeId) (span : Span) (loc : Location) (entered : Option LoopFrame) :
    Execution (Nat × LoopFrame) := do
  let ref ← LoopStack.ensure scope
  match entered with
  | some frame => return (ref, frame)
  | none =>
    match ← LoopStack.pop? ref with
    | some frame => return (ref, frame)
    | none => fail (.noActiveLoop loc) span

/-- After a step inside the body of the loop at `loc`: the loop goes on, starts its next round, or
is over. -/
def resumeLoop (ref : Nat) (frame : LoopFrame) (loc : Location) (s : Stepped) :
    Execution Stepped :=
  if s.next.head ≤ 1 then do
    LoopStack.push ref frame
    return ⟨s.value, loc.head :: s.next⟩
  else if frame.next.done then return ⟨s.value, loc.past⟩
  else do
    LoopStack.push ref frame.next
    return ⟨s.value, [loc.head, 1, 0]⟩

mutual

def stepStmt (host : Host) (invoke : Invoke) (scope : ScopeId) (loc : Location) :
    Stmt → Execution Stepped
  | .branch span condition thenBlock elseBlock =>
    if condition.isMissing || thenBlock.isMissing then fail .incompleteIf span
    else do
      let path ← enterBranch host invoke scope condition loc.below
      if path.head = 1 then
        return loc.leave 1 (← stepBlock host invoke scope path thenBlock)
      else if path.head = 2 then
        if elseBlock.isMissing then return ⟨.null, loc.past⟩
        else return loc.leave 2 (← stepBlock host invoke scope path elseBlock)
      else fail (.noIfChild loc path.head) span
  | .times span count body =>
    if body.isMissing then fail .timesWithoutBody span
    else if loc.below.isEmpty then do
      let frame ← startLoop host invoke scope span count body
      if frame.done then return ⟨.absent, loc.past⟩
      else do
        let (ref, frame) ← takeFrame scope span loc (some frame)
        let s ← stepBlock host invoke scope [1, 0] body
        resumeLoop ref frame loc s
    else if loc.below.head ≠ 1 then fail (.noTimesChild loc loc.below.head) span
    else do
      let (ref, frame) ← takeFrame scope span loc none
      let s ← stepBlock host invoke scope loc.below body
      resumeLoop ref frame loc s
  | .missing => do
    return ⟨← evalStmt host invoke scope .missing, loc.past⟩
  | .set span target value => do
    return ⟨← evalStmt host invoke scope (.set span target value), loc.past⟩
  | .call span callee args => do
    return ⟨← evalStmt host invoke scope (.call span callee args), loc.past⟩

def stepBlock (host : Host) (invoke : Invoke) (scope : ScopeId) (loc : Location) :
    Block → Execution Stepped
  | .missing => return ⟨.absent, loc.past⟩
  | .of _ body =>
    if loc.below.head < 0 then fail (.negativeIndex loc) .nowhere
    else stepAt host invoke scope loc body.length loc.below.head.toNat body

/-- Steps the statement that is `skip` places further on in a list; `count` is the length of the
whole list that stands at `loc`. -/
def stepAt (host : Host) (invoke : Invoke) (scope : ScopeId) (loc : Location) (count : Nat) :
    (skip : Nat) → List Stmt → Execution Stepped
  | _, [] => return ⟨.absent, loc.past⟩
  | skip + 1, _ :: rest => stepAt host invoke scope loc count skip rest
  | 0, s :: _ => do
    let r ← stepStmt host invoke scope loc.below s
    if r.next.head ≥ count then return ⟨r.value, loc.past⟩
    else return ⟨r.value, loc.head :: r.next⟩

end

/-- What a scope has for a loop stack, to be put back after a step that fails. -/
structure LoopCheckpoint where
  bound : Option Value
  frames : LoopStack

namespace LoopCheckpoint

def take (store : Store) (scope : ScopeId) : LoopCheckpoint :=
  ⟨store.lookup? scope loopBinding, store.frames scope⟩

def restore (c : LoopCheckpoint) (scope : ScopeId) (store : Store) : Store :=
  match c.bound with
  | none => store.delete scope loopBinding
  | some (.loops ref) => (store.setStack ref c.frames).set scope loopBinding (.loops ref)
  | some v => store.set scope loopBinding v

end LoopCheckpoint

/-- Statements that can be run in steps. -/
def Node.steppable (n : Node) : Except Diagnostic (List Stmt) :=
  match n with
  | .program p => .ok p.body
  | .block (.of _ body) => .ok body
  | n =>
    match n.type? with
    | none => .error ⟨.noProgramToStep, .nowhere⟩
    | some t => .error ⟨.cannotStep t, n.span⟩

namespace Setting

/-- Runs the statement at a location, in a list that is the whole program. -/
def stepBody (setting : Setting) (scope : ScopeId) (loc : Location) (body : List Stmt) :
    Execution Stepped :=
  stepBlock setting.host setting.invoke scope loc (.of .nowhere body)

/-- Runs a step and, if it fails, puts the loops of the scope back as they were. -/
def guarded (scope : ScopeId) (step : Execution Stepped) : Execution Stepped := fun w =>
  let saved := LoopCheckpoint.take w.store scope
  match step w with
  | .ok s w => .ok s w
  | .error f w => .error f { w with store := saved.restore scope w.store }

/-- One step of a program from a location, and the world after it. A location that is over stays so, and a
step that fails answers with the location it was made from. -/
def stepFrom (setting : Setting) (scope : ScopeId) (n : Node) (loc : Location) (w : World) :
    StepReply × World :=
  if loc.done then (⟨.ok .absent, .finished⟩, w)
  else
    match poll w with
    | .error f w => (⟨.error f, loc⟩, w)
    | .ok _ w =>
      match n.steppable with
      | .error d => (⟨.error (.diagnostic d), loc⟩, w)
      | .ok body =>
        match guarded scope (setting.stepBody scope loc body) w with
        | .error f w => (⟨.error f, loc⟩, w)
        | .ok s w => (⟨.ok s.value, if s.next.done then .finished else s.next⟩, w)

/-- A step as a part of a run, which its failure ends. -/
def step (setting : Setting) (scope : ScopeId) (n : Node) (loc : Location) : Execution Stepped := fun w =>
  match setting.stepFrom scope n loc w with
  | (⟨.ok v, next⟩, w) => .ok ⟨v, next⟩ w
  | (⟨.error f, _⟩, w) => .error f w

theorem step_eq (setting : Setting) (scope : ScopeId) (n : Node) (loc : Location) :
    setting.step scope n loc =
      if loc.done then return ⟨.absent, .finished⟩
      else do
        poll
        match n.steppable with
        | .error d => throw (.diagnostic d)
        | .ok body =>
          let s ← guarded scope (setting.stepBody scope loc body)
          return if s.next.done then ⟨s.value, .finished⟩ else s := by
  funext w
  cases hloc : loc.done with
  | true =>
    simp only [step, stepFrom, hloc, if_true]
    rfl
  | false =>
    simp only [step, stepFrom, hloc, Bool.false_eq_true, if_false, bind, EStateM.bind]
    cases poll w with
    | error f w₁ => rfl
    | ok _ w₁ =>
      cases n.steppable with
      | error d => rfl
      | ok body =>
        dsimp only [EStateM.bind]
        cases guarded scope (setting.stepBody scope loc body) w₁ with
        | error f w₂ => rfl
        | ok s w₂ =>
          dsimp only
          split <;> rfl

end Setting

end Stepwise
