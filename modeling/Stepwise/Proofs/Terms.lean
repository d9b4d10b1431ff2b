import Stepwise.Proofs.Composition
import Stepwise.Proofs.Store

/-! Terms that a run keeps to: the failures that its trees may raise, where a run may fail for what it
comes to, whether there may be loops without an end, and the statements that may stand in the trees. What a
store holds is in order under some terms when the functions it can be asked for have such trees too; then no
part of a run brings it out of order. -/

namespace Stepwise

/-- Causes that depend on how a run goes, and not on the tree alone. -/
def Cause.isOfRun : Cause → Bool
  | .unbound _ | .nativeArity _ _ _ | .functionArity _ _ | .notCallable _ | .callDepth _
  | .countNotInteger _ => true
  | cause => cause.isStale

theorem Dispatch.of_refused_isOfRun {count : Nat} {v : Value} {cause : Cause}
    (h : Dispatch.of count v = .refused cause) : cause.isOfRun = true := by
  obtain ⟨_, _, rfl⟩ | ⟨_, rfl⟩ | ⟨_, rfl⟩ := Dispatch.of_refused_cases h <;> rfl

structure Terms where
  permits : Cause → Span → Prop
  sites : Span → Prop
  endless : Prop
  stands : Stmt → Prop
  ofRun : ∀ {cause : Cause} {span : Span}, cause.isOfRun = true → sites span → permits cause span
  ofStale : ∀ {cause : Cause} {span : Span}, cause.isStale = true → permits cause span

def Failure.Permitted (f : Failure) (t : Terms) : Prop :=
  ∀ d, f.diagnostic? = some d → t.permits d.cause d.span

/-- What a loop says of its count. -/
def Expr.CountMeets (t : Terms) (span : Span) : Expr → Prop
  | .missing => t.permits .timesWithoutCount span
  | .forever _ => t.endless
  | .number _ _ => True
  | .symbol s => t.sites s.span
  | .boolean place _ => t.permits (.countNotAllowed .boolean) place
  | .null place => t.permits (.countNotAllowed .null) place
  | .string place _ => t.permits (.countNotAllowed .string) place
  | .call place _ _ => t.permits (.countNotAllowed .callExpression) place
  | .function place _ _ => t.permits (.countNotAllowed .function) place

mutual

/-- Every failure that the tree can raise by itself is permitted, in the bodies of functions as well,
and a loop without an end has to be; its names and calls are where a run may fail. -/
def Expr.Meets (t : Terms) : Expr → Prop
  | .missing => t.permits .missingNode .nowhere
  | .forever span => t.permits .foreverAsValue span
  | .function span _ body =>
    (body.isMissing = true → t.permits .functionWithoutBody span) ∧ body.Meets t
  | .call span callee args =>
    t.sites span ∧ (callee.isMissing = true → t.permits .callWithoutCallee span) ∧
      callee.Meets t ∧ Expr.AllMeet t args
  | .symbol s => t.sites s.span
  | .number _ _ | .boolean _ _ | .null _ | .string _ _ => True

def Expr.AllMeet (t : Terms) : List Expr → Prop
  | [] => True
  | e :: es => e.Meets t ∧ Expr.AllMeet t es

def Block.Meets (t : Terms) : Block → Prop
  | .missing => True
  | .of _ body => Stmt.AllMeet t body

def Stmt.Meets (t : Terms) : Stmt → Prop
  | .missing => t.permits .missingNode .nowhere
  | .set span target value =>
    (target = none ∨ value.isMissing = true → t.permits .incompleteSet span) ∧ value.Meets t
  | .branch span condition thenBlock elseBlock =>
    ((condition.isMissing || thenBlock.isMissing) = true → t.permits .incompleteIf span) ∧
      condition.Meets t ∧ thenBlock.Meets t ∧ elseBlock.Meets t
  | .times span count body =>
    (body.isMissing = true → t.permits .timesWithoutBody span) ∧ count.CountMeets t span ∧
      body.Meets t
  | .call span callee args =>
    t.sites span ∧ (callee.isMissing = true → t.permits .callWithoutCallee span) ∧
      callee.Meets t ∧ Expr.AllMeet t args

def Stmt.AllMeet (t : Terms) : List Stmt → Prop
  | [] => True
  | s :: rest => (t.stands s ∧ s.Meets t) ∧ Stmt.AllMeet t rest

end

def Node.loopsForever : Node → Bool
  | .stmt (.times _ (.forever _) _) => true
  | _ => false

namespace Terms

/-- A node may be there, as far as it does not come to failures. -/
def Allows (t : Terms) (n : Node) : Prop :=
  (n.loopsForever = true → t.endless) ∧ ∀ s, n = .stmt s → t.stands s

/-- The terms permit every failure. -/
structure Lenient (t : Terms) : Prop where
  permits : ∀ cause span, t.permits cause span
  sites : ∀ span, t.sites span
  missing : t.stands .missing

variable {t : Terms}

theorem Lenient.stands (ht : t.Lenient) {s : Stmt} {depth : Nat}
    (h : ∀ visit ∈ Visit.stmt (fun _ => true) depth s, t.Allows visit.node) : t.stands s := by
  cases s with
  | missing => exact ht.missing
  | _ => exact (h _ List.mem_cons_self).2 _ rfl

end Terms

mutual

theorem Expr.meets_of_walk {t : Terms} (ht : t.Lenient) (e : Expr) {depth : Nat}
    (h : ∀ visit ∈ Visit.expr (fun _ => true) depth e, t.Allows visit.node) : e.Meets t := by
  cases e with
  | missing | forever => exact ht.permits _ _
  | symbol => exact ht.sites _
  | number | boolean | null | string => trivial
  | call span callee args =>
    simp only [Visit.expr, Visit.enter, if_true, List.forall_mem_cons, List.forall_mem_append] at h
    exact ⟨ht.sites _, fun _ => ht.permits _ _, callee.meets_of_walk ht h.2.1,
      Expr.allMeet_of_walk ht args h.2.2⟩
  | function span params body =>
    simp only [Visit.expr, Visit.enter, if_true, List.forall_mem_cons, List.forall_mem_append] at h
    exact ⟨fun _ => ht.permits _ _, body.meets_of_walk ht h.2.2⟩
termination_by structural e

theorem Expr.allMeet_of_walk {t : Terms} (ht : t.Lenient) (es : List Expr) {depth : Nat}
    (h : ∀ visit ∈ Visit.exprs (fun _ => true) depth es, t.Allows visit.node) : Expr.AllMeet t es := by
  cases es with
  | nil => trivial
  | cons e es =>
    simp only [Visit.exprs, List.forall_mem_append] at h
    exact ⟨e.meets_of_walk ht h.1, Expr.allMeet_of_walk ht es h.2⟩
termination_by structural es

theorem Block.meets_of_walk {t : Terms} (ht : t.Lenient) (b : Block) {depth : Nat}
    (h : ∀ visit ∈ Visit.block (fun _ => true) depth b, t.Allows visit.node) : b.Meets t := by
  cases b with
  | missing => trivial
  | of span body =>
    simp only [Visit.block, Visit.enter, if_true, List.forall_mem_cons] at h
    exact Stmt.allMeet_of_walk ht body h.2
termination_by structural b

theorem Stmt.meets_of_walk {t : Terms} (ht : t.Lenient) (s : Stmt) {depth : Nat}
    (h : ∀ visit ∈ Visit.stmt (fun _ => true) depth s, t.Allows visit.node) : s.Meets t := by
  cases s with
  | missing => exact ht.permits _ _
  | set span target value =>
    simp only [Visit.stmt, Visit.enter, if_true, List.forall_mem_cons, List.forall_mem_append] at h
    exact ⟨fun _ => ht.permits _ _, value.meets_of_walk ht h.2.2⟩
  | branch span condition thenBlock elseBlock =>
    simp only [Visit.stmt, Visit.enter, if_true, List.forall_mem_cons, List.forall_mem_append] at h
    exact ⟨fun _ => ht.permits _ _, condition.meets_of_walk ht h.2.1.1,
      thenBlock.meets_of_walk ht h.2.1.2, elseBlock.meets_of_walk ht h.2.2⟩
  | times span count body =>
    simp only [Visit.stmt, Visit.enter, if_true, List.forall_mem_cons, List.forall_mem_append] at h
    refine ⟨fun _ => ht.permits _ _, ?_, body.meets_of_walk ht h.2.2⟩
    cases count with
    | forever => exact h.1.1 rfl
    | symbol => exact ht.sites _
    | number => trivial
    | missing | boolean | null | string | call | function => exact ht.permits _ _
  | call span callee args =>
    simp only [Visit.stmt, Visit.enter, if_true, List.forall_mem_cons, List.forall_mem_append] at h
    exact ⟨ht.sites _, fun _ => ht.permits _ _, callee.meets_of_walk ht h.2.1,
      Expr.allMeet_of_walk ht args h.2.2⟩
termination_by structural s

theorem Stmt.allMeet_of_walk {t : Terms} (ht : t.Lenient) (body : List Stmt) {depth : Nat}
    (h : ∀ visit ∈ Visit.stmts (fun _ => true) depth body, t.Allows visit.node) :
    Stmt.AllMeet t body := by
  cases body with
  | nil => trivial
  | cons s rest =>
    simp only [Visit.stmts, List.forall_mem_append] at h
    exact ⟨⟨ht.stands h.1, s.meets_of_walk ht h.1⟩, Stmt.allMeet_of_walk ht rest h.2⟩
termination_by structural body

end

/-- What a run may come by: scopes and loop stacks it can reach, and frames that lie on such stacks. -/
structure Realm where
  terms : Terms
  home : ScopeId → Prop
  held : Nat → Prop
  frame : LoopFrame → Prop
  counted : ∀ n, frame (.counted n)
  endless : terms.endless → frame .endless
  next : ∀ {f : LoopFrame}, frame f → frame f.next

namespace Realm

def Admits (r : Realm) : Value → Prop
  | .function c => c.literal.body.Meets r.terms ∧ r.home c.scope
  | .loops ref => r.held ref
  | _ => True

theorem admits_of_isScalar {r : Realm} {v : Value} (h : v.isScalar) : r.Admits v := by
  cases v with
  | function | loops => cases h
  | _ => trivial

theorem Admits.orNull {r : Realm} {v : Value} (h : r.Admits v) : r.Admits v.orNull := by
  cases v with
  | absent => trivial
  | _ => exact h

/-- Whatever can be looked up from a scope of the realm belongs there, and so does what is made
next. -/
structure Upholds (r : Realm) (s : Store) : Prop where
  bound : ∀ i, r.home i → ∀ j ∈ s.chain i, ∀ x v, s.lookup? j x = some v → r.Admits v
  framed : ∀ ref, r.held ref → ∀ f ∈ s.stack ref, r.frame f
  nextScope : ∀ i, s.scopes.size ≤ i → r.home i
  nextStack : ∀ ref, s.loopStacks.size ≤ ref → r.held ref

namespace Upholds

variable {r : Realm} {s : Store}

theorem get? (h : r.Upholds s) {i : ScopeId} (hi : r.home i) {x : Name} {v : Value}
    (hv : s.get? i x = some v) : r.Admits v := by
  obtain ⟨j, hj, hlookup⟩ := List.exists_of_findSome?_eq_some hv
  exact h.bound i hi j hj x v hlookup

theorem set (h : r.Upholds s) {v : Value} (hv : r.Admits v) (scope : ScopeId) (name : Name) :
    r.Upholds (s.set scope name v) where
  bound i hi j hj x u hu := by
    rw [Store.chain_set] at hj
    rw [Store.lookup?_set] at hu
    split at hu
    · cases hu
      exact hv
    · exact h.bound i hi j hj x u hu
  framed := h.framed
  nextScope i hi := h.nextScope i (by simpa using hi)
  nextStack := h.nextStack

theorem delete (h : r.Upholds s) (scope : ScopeId) (name : Name) :
    r.Upholds (s.delete scope name) where
  bound i hi j hj x u hu := by
    rw [Store.chain_delete] at hj
    exact h.bound i hi j hj x u (Store.lookup?_of_delete hu)
  framed := h.framed
  nextScope i hi := h.nextScope i (by simpa [Store.delete] using hi)
  nextStack := h.nextStack

theorem countClosure (h : r.Upholds s) : r.Upholds s.countClosure :=
  ⟨h.bound, h.framed, h.nextScope, h.nextStack⟩

theorem extend (h : r.Upholds s) {parent : ScopeId} (hparent : r.home parent)
    {b : Bindings Value} (hb : ∀ x v, b.get? x = some v → r.Admits v) :
    r.Upholds (s.extend parent b) where
  bound i hi j hj x v hv := by
    rw [Store.lookup?_extend] at hv
    split at hv
    · exact hb x v hv
    · next hne =>
      rw [Store.chain_extend] at hj
      split at hj
      · next hnew =>
        obtain rfl | hj := List.mem_cons.mp hj
        · exact absurd hnew hne
        · exact h.bound parent hparent j hj x v hv
      · exact h.bound i hi j hj x v hv
  framed := h.framed
  nextScope i hi := h.nextScope i (by simp [Store.extend] at hi; omega)
  nextStack := h.nextStack

theorem setStack (h : r.Upholds s) {ref : Nat} {frames : LoopStack}
    (hframes : r.held ref → ∀ f ∈ frames, r.frame f) : r.Upholds (s.setStack ref frames) where
  bound := h.bound
  framed a ha f hf := by
    by_cases heq : ref = a
    · subst heq
      by_cases hlt : ref < s.loopStacks.size
      · rw [Store.stack_setStack_self hlt] at hf
        exact hframes ha f hf
      · have hnil : (s.setStack ref frames).stack ref = [] :=
          Store.stack_eq_nil_of_size_le (by simpa [Store.setStack] using hlt)
        rw [hnil] at hf
        cases hf
    · rw [Store.stack_setStack_of_ne heq] at hf
      exact h.framed a ha f hf
  nextScope := h.nextScope
  nextStack ref' hle := h.nextStack ref' (by simpa [Store.setStack] using hle)

theorem addStack (h : r.Upholds s) : r.Upholds (s.addStack []) where
  bound := h.bound
  framed a ha f hf := by
    rw [Store.stack_addStack_nil] at hf
    exact h.framed a ha f hf
  nextScope := h.nextScope
  nextStack ref' hle := h.nextStack ref' (by simp [Store.addStack] at hle; omega)

/-- The stack that a scope of the realm keeps its loops on is one of the realm. -/
theorem loops (h : r.Upholds s) {scope : ScopeId} (hscope : r.home scope) {ref : Nat}
    (href : s.loops? scope = some ref) : r.held ref := by
  rw [Store.loops?_eq_some_iff] at href
  exact h.bound scope hscope scope (Store.mem_chain_of_lookup? href) _ _ href

theorem restore (h : r.Upholds s) {t : Store} (ht : r.Upholds t) {scope : ScopeId}
    (hscope : r.home scope) : r.Upholds ((LoopCheckpoint.take s scope).restore scope t) := by
  have hbound {v : Value} (hv : s.lookup? scope loopBinding = some v) : r.Admits v :=
    h.bound scope hscope scope (Store.mem_chain_of_lookup? hv) _ _ hv
  rw [LoopCheckpoint.restore]
  split
  · exact ht.delete scope _
  · next ref href =>
    have hloops : s.loops? scope = some ref := Store.loops?_eq_some_iff.mpr href
    refine Upholds.set (ht.setStack fun hstack f hf => ?_) (hbound href) scope _
    rw [LoopCheckpoint.take, Store.frames, hloops] at hf
    exact h.framed ref hstack f hf
  · next v _ hv => exact ht.set (hbound hv) scope _

end Upholds

end Realm

end Stepwise
