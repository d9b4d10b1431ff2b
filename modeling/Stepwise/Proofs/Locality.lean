import Stepwise.Proofs.Composition

/-! Assignment is local. Evaluation makes scopes and writes them, but of the scopes that were there
before it writes at most the one a statement runs in; an expression writes none of them. -/

namespace Stepwise

/-- From `s` to `t` the store has grown, and of its old scopes only those in `writable` can have
been written; loop stacks stay as they are, and closures are still counted. -/
structure Store.Grows (writable : ScopeId → Prop) (s t : Store) : Prop where
  size : s.scopes.size ≤ t.scopes.size
  scope : ∀ id, id < s.scopes.size → ¬ writable id → t.scopes[id]? = s.scopes[id]?
  outer : ∀ id, id < s.scopes.size →
    (t.scopes[id]?).map Scope.outer = (s.scopes[id]?).map Scope.outer
  loops : t.loopStacks = s.loopStacks
  closures : s.closures ≤ t.closures

namespace Store

variable {writable other : ScopeId → Prop} {s t u : Store}

theorem Grows.refl (writable : ScopeId → Prop) (s : Store) : s.Grows writable s :=
  ⟨Nat.le_refl _, fun _ _ _ => rfl, fun _ _ => rfl, rfl, Nat.le_refl _⟩

/-- Of what is written later, only scopes that were there at first count. -/
theorem Grows.trans_of (h : s.Grows writable t) (h' : t.Grows other u)
    (hsub : ∀ id, id < s.scopes.size → other id → writable id) : s.Grows writable u where
  size := Nat.le_trans h.size h'.size
  scope id hid hw := by
    have hlate := h'.scope id (Nat.lt_of_lt_of_le hid h.size) fun ho => hw (hsub id hid ho)
    exact hlate.trans (h.scope id hid hw)
  outer id hid := (h'.outer id (Nat.lt_of_lt_of_le hid h.size)).trans (h.outer id hid)
  loops := h'.loops.trans h.loops
  closures := Nat.le_trans h.closures h'.closures

theorem Grows.trans (h : s.Grows writable t) (h' : t.Grows writable u) : s.Grows writable u :=
  h.trans_of h' fun _ _ hw => hw

theorem Grows.mono (h : s.Grows writable t) (hsub : ∀ id, writable id → other id) :
    s.Grows other t :=
  (Grows.refl other s).trans_of h fun id _ => hsub id

theorem grows_countClosure (s : Store) : s.Grows writable s.countClosure :=
  ⟨Nat.le_refl _, fun _ _ _ => rfl, fun _ _ => rfl, rfl, Nat.le_succ _⟩

theorem grows_extend (s : Store) (parent : ScopeId) (b : Bindings Value) :
    s.Grows writable (s.extend parent b) where
  size := by simp [extend]
  scope id hid _ := by simp [extend, Array.getElem?_push, Nat.ne_of_lt hid]
  outer id hid := by simp [extend, Array.getElem?_push, Nat.ne_of_lt hid]
  loops := rfl
  closures := Nat.le_refl _

theorem grows_set {id : ScopeId} (s : Store) (hid : writable id) (name : Name) (v : Value) :
    s.Grows writable (s.set id name v) where
  size := by simp [set]
  scope i _ hw := by
    have hne : id ≠ i := fun h => hw (h ▸ hid)
    simp [set, Array.getElem?_modify, hne]
  outer i _ := by
    by_cases h : id = i
    · simp only [set, Array.getElem?_modify, h, if_true, Option.map_map]
      rfl
    · simp [set, Array.getElem?_modify, h]
  loops := rfl
  closures := Nat.le_refl _

end Store

namespace Execution

variable {α β : Type}

/-- However it ends, the run writes no scope that was there before it but those in `writable`. -/
def Spares (writable : ScopeId → Prop) (x : Execution α) : Prop :=
  ∀ w : World, w.store.Grows writable (x.after w).store

variable {writable other : ScopeId → Prop}

theorem spares_pure (a : α) : Spares writable (pure a : Execution α) :=
  fun w => .refl writable w.store

theorem spares_throw (f : Failure) : Spares writable (throw f : Execution α) :=
  fun w => .refl writable w.store

theorem spares_fail (cause : Cause) (span : Span) :
    Spares writable (fail cause span : Execution α) :=
  spares_throw _

theorem Spares.bind {x : Execution α} {f : α → Execution β} (hx : Spares writable x)
    (hf : ∀ a, Spares writable (f a)) : Spares writable (x >>= f) := by
  intro w
  obtain ⟨a, hbind⟩ | hbind := after_bind x f w
  · rw [hbind]
    exact (hx w).trans (hf a _)
  · rw [hbind]
    exact hx w

theorem Spares.mono {x : Execution α} (h : Spares writable x)
    (hsub : ∀ id, writable id → other id) : Spares other x :=
  fun w => (h w).mono hsub

theorem spares_get : Spares writable (get : Execution World) :=
  fun w => .refl writable w.store

theorem spares_poll : Spares writable poll := by
  rintro ⟨store, written, polls⟩
  cases polls <;> exact .refl writable store

theorem spares_lookup (scope : ScopeId) (s : Symbol) : Spares writable (lookup scope s) := by
  intro w
  simp only [after, lookup]
  cases w.store.get? scope s.name <;> exact .refl writable w.store

theorem spares_assign {scope : ScopeId} (h : writable scope) (name : Name) (v : Value) :
    Spares writable (assign scope name v) :=
  fun w => w.store.grows_set h name v

theorem spares_makeClosure (scope : ScopeId) (literal : Literal) :
    Spares writable (makeClosure scope literal) :=
  fun w => w.store.grows_countClosure

theorem spares_callNative (host : Host) (scope : ScopeId) (span : Span) (n : Native)
    (args : List Value) : Spares writable (callNative host scope span n args) := by
  intro w
  simp only [after, callNative]
  cases (host n w.store scope args w.written).result <;> exact .refl writable w.store

theorem spares_openScope_bind {c : Closure} {args : List Value} {f : ScopeId → Execution α}
    (hf : ∀ id, Spares (· = id) (f id)) : Spares writable (openScope c args >>= f) := by
  intro w
  have hopen : w.store.Grows writable
      (w.store.extend c.scope (.ofList (c.literal.paramNames.zip args))) :=
    w.store.grows_extend c.scope _
  have hbody := hf w.store.nextScope
    { w with store := w.store.extend c.scope (.ofList (c.literal.paramNames.zip args)) }
  exact hopen.trans_of hbody fun id hid he => absurd he (Nat.ne_of_lt hid)

end Execution

open Execution

def Invoke.Spares (invoke : Invoke) : Prop :=
  ∀ span c args, Execution.Spares (fun _ => False) (invoke span c args)

variable {host : Host} {invoke : Invoke}

theorem spares_compositional (writable : ScopeId → Prop) :
    Compositional fun _ => Spares writable where
  pure := spares_pure
  bind hx hf := hx.bind hf
  fail span _ := spares_fail _ span

theorem spares_computes (hinv : invoke.Spares) (scope : ScopeId) :
    Computes (fun _ => Spares fun _ => False) host invoke scope where
  toCompositional := spares_compositional _
  poll := spares_poll
  lookup := spares_lookup scope
  makeClosure := spares_makeClosure scope
  callNative := spares_callNative host scope
  invoke := hinv

theorem evalExpr_spares (hinv : invoke.Spares) (scope : ScopeId) (e : Expr) :
    Spares (fun _ => False) (evalExpr host invoke scope e) :=
  (spares_computes hinv scope).evalExpr e

theorem startLoop_spares (scope : ScopeId) (span : Span) (count : Expr) (body : Block) :
    Spares (fun _ => False) (startLoop host invoke scope span count body) :=
  (spares_compositional _).startLoop (spares_lookup scope) span count body

theorem spares_executes (hinv : invoke.Spares) (scope : ScopeId) :
    Executes (fun _ => Spares (· = scope)) (fun _ => True) host invoke scope where
  toCompositional := spares_compositional _
  expr e := (evalExpr_spares hinv scope e).mono fun _ h => h.elim
  start span count body := (startLoop_spares scope span count body).mono fun _ h => h.elim
  assign v _ := @spares_assign (· = scope) scope rfl _ v
  loop frame last hbody :=
    (spares_compositional _).loopFrom spares_poll (spares_throw _) spares_get hbody frame last

/-- A function body writes no scope there was before the call: its caller's, its definer's and those
of earlier calls stay as they are. -/
theorem invokeAt_spares (setting : Setting) (left : Nat) : (invokeAt setting left).Spares := by
  induction left with
  | zero => exact fun span c args => spares_fail _ _
  | succ left ih =>
    intro span c args
    exact spares_openScope_bind fun id =>
      (spares_executes ih id).evalBlock c.literal.body fun _ _ => trivial

/-- Nodes that compute a value and do nothing else: expressions, and calls made as statements. -/
def Node.IsExpression : Node → Prop
  | .expr _ | .stmt (.call _ _ _) => True
  | _ => False

theorem evaluate_spares (setting : Setting) (scope : ScopeId) (n : Node) :
    Spares (· = scope) (setting.evaluate scope n) := by
  have hinv := invokeAt_spares setting setting.depth
  have hexec : Executes (fun _ => Spares (· = scope)) (fun _ => True) setting.host setting.invoke scope :=
    spares_executes hinv scope
  cases n with
  | program p => exact hexec.evalBody .absent p.body fun _ _ => trivial
  | block b => exact hexec.evalBlock b fun _ _ => trivial
  | stmt s => exact hexec.evalStmt s fun _ _ => trivial
  | expr e => exact hexec.expr e
  | params ps => exact spares_fail _ _

theorem evaluate_expression_spares (setting : Setting) (scope : ScopeId) {n : Node}
    (h : n.IsExpression) : Spares (fun _ => False) (setting.evaluate scope n) := by
  have hinv := invokeAt_spares setting setting.depth
  cases n with
  | expr e => exact evalExpr_spares hinv scope e
  | stmt s =>
    cases s with
    | call sp callee args => exact evalExpr_spares hinv scope (.call sp callee args)
    | missing | set | branch | times => exact h.elim
  | program | block | params => exact h.elim

/-- However an evaluation ends, of the scopes that were there before only the one it runs in can
have changed; an expression changes none, and neither does the body of a function that is called, at
any depth. -/
theorem evaluation_is_local (setting : Setting) (w : World) :
    (∀ scope n id, id < w.store.scopes.size → id ≠ scope →
      ((setting.evaluate scope n).after w).store.scopes[id]? = w.store.scopes[id]?) ∧
    (∀ scope n id, n.IsExpression → id < w.store.scopes.size →
      ((setting.evaluate scope n).after w).store.scopes[id]? = w.store.scopes[id]?) ∧
    (∀ left span c args id, id < w.store.scopes.size →
      ((invokeAt setting left span c args).after w).store.scopes[id]? = w.store.scopes[id]?) := by
  refine ⟨fun scope n id hid hne => ?_, fun scope n id he hid => ?_, fun left span c args id hid => ?_⟩
  · exact (evaluate_spares setting scope n w).scope id hid hne
  · exact (evaluate_expression_spares setting scope he w).scope id hid not_false
  · exact (invokeAt_spares setting left span c args w).scope id hid not_false

/-- A function that assigns a name of its definer's scope: the name is bound in the scope of the
call, and the definer's scope is as it was. -/
theorem evaluation_is_local_shadowing :
    let w : World := ⟨Store.empty.addRoot (.ofList [([120], .integer 1)]), #[], 9⟩
    let n : Node := .expr (.call .nowhere (.function .nowhere none
      (.of .nowhere [.set .nowhere (some ⟨.nowhere, [120]⟩) (.number .nowhere 2)])) [])
    let after := (Setting.evaluate ⟨primitives, 5⟩ 0 n).after w
    n.IsExpression ∧ 0 < w.store.scopes.size ∧ after.store.scopes[0]? = w.store.scopes[0]? ∧
      after.store.lookup? 1 [120] = some (.integer 2) :=
  ⟨trivial, by decide, (evaluation_is_local _ _).2.1 0 _ 0 trivial (by decide), rfl⟩

end Stepwise
