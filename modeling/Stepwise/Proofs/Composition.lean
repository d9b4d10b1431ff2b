import Stepwise.Proofs.Execution
import Stepwise.Proofs.Names

/-! Properties that a run has when its parts have them. What is true of lookups, calls of natives and
the like, and stays true when one run follows another, is true of evaluation. -/

namespace Stepwise

open Execution

/-- Causes that tell of a location which does not lead to a statement. Only stepping has them. -/
def Cause.isStale : Cause → Bool
  | .negativeIndex _ | .noIfChild _ _ | .noTimesChild _ _ | .noActiveLoop _ => true
  | _ => false

theorem Cause.kind_of_isStale {cause : Cause} (h : cause.isStale = true) : cause.kind = .internal := by
  cases cause <;> first | rfl | cases h

/-- A loop from a frame on, with rounds enough for the polls that are left. -/
def loopFrom (body : Execution Value) (frame : LoopFrame) (last : Value) : Execution Value :=
  fun w => runLoop body (w.polls + 1) frame last w

theorem evalStmt_times {host : Host} {invoke : Invoke} (scope : ScopeId) (span : Span) (count : Expr)
    (block : Block) :
    evalStmt host invoke scope (.times span count block) = (do
      let frame ← startLoop host invoke scope span count block
      loopFrom (evalBlock host invoke scope block) frame .absent) := rfl

abbrev RunProperty := ∀ α : Type, Execution α → Prop

/-- The property goes from runs to what is made of them. -/
structure Compositional (P : RunProperty) : Prop where
  pure : ∀ {α : Type} (a : α), P α (pure a)
  bind : ∀ {α β : Type} {x : Execution α} {f : α → Execution β}, P α x → (∀ a, P β (f a)) →
    P β (x >>= f)
  fail : ∀ {α : Type} {cause : Cause} (span : Span), cause.isStale = false → P α (fail cause span)

/-- The property is one of all that expressions do. -/
structure Computes (P : RunProperty) (host : Host) (invoke : Invoke) (scope : ScopeId) : Prop
    extends Compositional P where
  poll : P Unit poll
  lookup : ∀ s, P Value (lookup scope s)
  makeClosure : ∀ literal, P Value (makeClosure scope literal)
  callNative : ∀ span n args, P Value (callNative host scope span n args)
  invoke : ∀ span c args, P Value (invoke span c args)

/-- The property is one of all that statements do, as long as they assign no other names than they
may. -/
structure Executes (P : RunProperty) (may : Name → Prop) (host : Host) (invoke : Invoke)
    (scope : ScopeId) : Prop extends Compositional P where
  expr : ∀ e, P Value (evalExpr host invoke scope e)
  start : ∀ span count body, P LoopFrame (startLoop host invoke scope span count body)
  assign : ∀ {name : Name} (v : Value), may name → P Unit (assign scope name v)
  loop : ∀ {body : Execution Value} (frame : LoopFrame) (last : Value), P Value body →
    P Value (loopFrom body frame last)

variable {P : RunProperty} {may : Name → Prop} {host : Host} {invoke : Invoke} {scope : ScopeId}

theorem Compositional.map {α β : Type} {g : α → β} {x : Execution α} (h : Compositional P)
    (hx : P α x) : P β (g <$> x) := by
  rw [map_eq_pure_bind]
  exact h.bind hx fun a => h.pure _

theorem Compositional.startLoop (h : Compositional P) (hlookup : ∀ s, P Value (lookup scope s))
    (span : Span) (count : Expr) (body : Block) :
    P LoopFrame (startLoop host invoke scope span count body) := by
  obtain ⟨s, hstart⟩ | ⟨frame, hstart⟩ | ⟨cause, place, hkind, hstart⟩ :=
    startLoop_cases span count body
  · rw [hstart]
    refine h.bind (hlookup s) fun v => ?_
    obtain ⟨n, -, hframe⟩ | hframe := countFrame_cases s v
    · exact hframe ▸ h.pure _
    · exact hframe ▸ h.fail _ rfl
  · exact hstart host invoke scope ▸ h.pure frame
  · refine hstart host invoke scope ▸ h.fail place ?_
    cases cause <;> first | rfl | cases hkind

/-- A property that says nothing of the polls that are left need only be one of every round. -/
theorem Compositional.runLoop (h : Compositional P) (hpoll : P Unit poll)
    (hcanceled : P Value (throw .canceled)) {body : Execution Value} (hbody : P Value body)
    (rounds : Nat) (frame : LoopFrame) (last : Value) :
    P Value (runLoop body rounds frame last) := by
  induction rounds generalizing frame last with
  | zero => exact hcanceled
  | succ rounds ih =>
    rw [Stepwise.runLoop]
    split
    · exact h.pure _
    · exact h.bind hpoll fun _ => h.bind hbody fun v => ih frame.next v

theorem Compositional.loopFrom (h : Compositional P) (hpoll : P Unit poll)
    (hcanceled : P Value (throw .canceled)) (hget : P World get) {body : Execution Value}
    (hbody : P Value body) (frame : LoopFrame) (last : Value) :
    P Value (loopFrom body frame last) :=
  h.bind hget fun w => h.runLoop hpoll hcanceled hbody (w.polls + 1) frame last

theorem Dispatch.of_refused {count : Nat} {v : Value} {cause : Cause}
    (h : Dispatch.of count v = .refused cause) : cause.isStale = false := by
  obtain ⟨_, _, rfl⟩ | ⟨_, rfl⟩ | ⟨_, rfl⟩ := Dispatch.of_refused_cases h <;> rfl

namespace Computes

theorem applyValue (h : Computes P host invoke scope) (span : Span) (callee : Value)
    (args : List Value) : P Value (applyValue host invoke scope span callee args) := by
  rw [applyValue_eq]
  refine h.bind h.poll fun _ => ?_
  cases hd : Dispatch.of args.length callee with
  | native n => exact h.callNative span n args
  | closure c => exact h.invoke span c args
  | refused cause => exact h.fail span (Dispatch.of_refused hd)

mutual

theorem evalExpr (h : Computes P host invoke scope) (e : Expr) :
    P Value (evalExpr host invoke scope e) := by
  cases e with
  | missing => exact h.fail _ rfl
  | symbol s => exact h.lookup s
  | number sp n => exact h.pure _
  | boolean sp b => exact h.pure _
  | null sp => exact h.pure _
  | string sp s => exact h.pure _
  | forever sp => exact h.fail _ rfl
  | function sp params body =>
    rw [Stepwise.evalExpr]
    split
    · exact h.fail _ rfl
    · exact h.makeClosure _
  | call sp callee args =>
    rw [Stepwise.evalExpr]
    split
    · exact h.fail _ rfl
    · refine h.bind (evalExpr h callee) fun f => ?_
      refine h.bind (evalArgs h args) fun vs => ?_
      exact h.applyValue sp f vs

theorem evalArgs (h : Computes P host invoke scope) (es : List Expr) :
    P (List Value) (evalArgs host invoke scope es) := by
  cases es with
  | nil => exact h.pure _
  | cons e es =>
    rw [Stepwise.evalArgs]
    refine h.bind (evalExpr h e) fun v => ?_
    exact h.bind (evalArgs h es) fun vs => h.pure _

end

end Computes

namespace Executes

mutual

theorem evalStmt (h : Executes P may host invoke scope) (s : Stmt) (hs : ∀ name ∈ s.assigned, may name) :
    P Value (evalStmt host invoke scope s) := by
  cases s with
  | missing => exact h.fail _ rfl
  | set sp target value =>
    cases target with
    | none => exact h.fail _ rfl
    | some symbol =>
      rw [Stepwise.evalStmt]
      split
      · exact h.fail _ rfl
      · have hname : may symbol.name := hs symbol.name (by simp [Stmt.assigned])
        refine h.bind (h.expr value) fun v => ?_
        exact h.bind (h.assign v.orNull hname) fun _ => h.pure _
  | branch sp condition thenBlock elseBlock =>
    simp only [Stmt.assigned, List.forall_mem_append] at hs
    rw [Stepwise.evalStmt]
    split
    · exact h.fail _ rfl
    refine h.bind (h.expr condition) fun v => ?_
    split
    · exact evalBlock h thenBlock hs.1
    · split
      · exact h.pure _
      · exact evalBlock h elseBlock hs.2
  | times sp count body =>
    rw [Stmt.assigned] at hs
    rw [evalStmt_times]
    refine h.bind (h.start sp count body) fun frame => ?_
    exact h.loop frame .absent (evalBlock h body hs)
  | call sp callee args =>
    rw [Stepwise.evalStmt]
    exact h.expr (.call sp callee args)

theorem evalBlock (h : Executes P may host invoke scope) (b : Block)
    (hb : ∀ name ∈ b.assigned, may name) : P Value (evalBlock host invoke scope b) := by
  cases b with
  | missing => exact h.pure _
  | of sp body => exact evalBody h .absent body hb

theorem evalBody (h : Executes P may host invoke scope) (last : Value) (body : List Stmt)
    (hbody : ∀ name ∈ Stmt.assignedIn body, may name) :
    P Value (evalBody host invoke scope last body) := by
  cases body with
  | nil => exact h.pure _
  | cons s rest =>
    simp only [Stmt.assignedIn, List.forall_mem_append] at hbody
    rw [Stepwise.evalBody]
    exact h.bind (evalStmt h s hbody.1) fun v => evalBody h v rest hbody.2

end

end Executes

end Stepwise
