import Stepwise.Proofs.Locality
import Stepwise.Proofs.Names
import Stepwise.Proofs.Position
import Stepwise.Proofs.Store

/-! Loop stacks that nothing touches. A run that does not name the loop stack of its scope leaves it,
and all others, as they are; so frames put on the stack before the run are there after it. -/

namespace Stepwise

open Execution

namespace Store

/-- A scope that is there, and whose loop stack is there if it has one. -/
structure Ready (scope : ScopeId) (s : Store) : Prop where
  scope_lt : scope < s.scopes.size
  loops_lt : ∀ ref, s.loops? scope = some ref → ref < s.loopStacks.size

/-- From `s` to `t` all loop stacks stay as they are. A scope keeps the stack it has; one that it
gets is empty. -/
structure Holds (scope : ScopeId) (s t : Store) : Prop where
  size : s.scopes.size ≤ t.scopes.size
  count : s.loopStacks.size ≤ t.loopStacks.size
  stack : ∀ ref, t.stack ref = s.stack ref
  bound : ∀ ref, s.loops? scope = some ref → t.loops? scope = some ref
  fresh : ∀ ref, t.loops? scope = some ref →
    s.loops? scope = some ref ∨ ref < t.loopStacks.size ∧ s.stack ref = []

variable {scope : ScopeId} {s t u : Store} {ref : Nat}

theorem Holds.refl (scope : ScopeId) (s : Store) : s.Holds scope s :=
  ⟨Nat.le_refl _, Nat.le_refl _, fun _ => rfl, fun _ h => h, fun _ h => .inl h⟩

theorem Holds.trans (h : s.Holds scope t) (h' : t.Holds scope u) : s.Holds scope u where
  size := Nat.le_trans h.size h'.size
  count := Nat.le_trans h.count h'.count
  stack ref := (h'.stack ref).trans (h.stack ref)
  bound ref href := h'.bound ref (h.bound ref href)
  fresh ref href := by
    obtain ht | ⟨hlt, hnil⟩ := h'.fresh ref href
    · obtain hs | ⟨hlt, hnil⟩ := h.fresh ref ht
      · exact .inl hs
      · exact .inr ⟨Nat.lt_of_lt_of_le hlt h'.count, hnil⟩
    · exact .inr ⟨hlt, h.stack ref ▸ hnil⟩

theorem Holds.ready (h : s.Holds scope t) (hs : s.Ready scope) : t.Ready scope where
  scope_lt := Nat.lt_of_lt_of_le hs.scope_lt h.size
  loops_lt ref href := by
    obtain hs' | ⟨hlt, -⟩ := h.fresh ref href
    · exact Nat.lt_of_lt_of_le (hs.loops_lt ref hs') h.count
    · exact hlt

theorem Holds.frames (h : s.Holds scope t) : t.frames scope = s.frames scope := by
  cases ht : t.loops? scope with
  | some ref =>
    obtain hs | ⟨-, hnil⟩ := h.fresh ref ht
    · simp only [Store.frames, ht, hs, h.stack]
    · cases hs : s.loops? scope with
      | none => simp only [Store.frames, ht, hs, h.stack, hnil]
      | some ref' =>
        have hsame : some ref' = some ref := (h.bound ref' hs).symm.trans ht
        cases hsame
        simp only [Store.frames, ht, hs, h.stack]
  | none =>
    cases hs : s.loops? scope with
    | none => simp only [Store.frames, ht, hs]
    | some ref =>
      rw [h.bound ref hs] at ht
      cases ht

theorem Grows.holds {writable : ScopeId → Prop} (h : s.Grows writable t)
    (hloops : t.loops? scope = s.loops? scope) : s.Holds scope t where
  size := h.size
  count := h.loops ▸ Nat.le_refl _
  stack ref := by simp only [Store.stack, h.loops]
  bound ref href := hloops.trans href
  fresh ref href := .inl (hloops.symm.trans href)

theorem holds_addStack (hscope : scope < s.scopes.size) (h : s.loops? scope = none) :
    s.Holds scope ((s.addStack []).set scope loopBinding (.loops s.nextStack)) where
  size := by simp [addStack]
  count := by simp [set, addStack]
  stack ref := by rw [stack_set, stack_addStack_nil]
  bound ref href := by rw [h] at href; cases href
  fresh ref href := by
    rw [loops?_set_loops (by simpa [addStack] using hscope)] at href
    cases href
    exact .inr ⟨by simp [set, addStack, nextStack], stack_eq_nil_of_size_le (Nat.le_refl _)⟩

def withFrames (s : Store) (scope : ScopeId) (frames : LoopStack) : Store :=
  match s.loops? scope with
  | some ref => s.setStack ref (frames ++ s.stack ref)
  | none => s

theorem withFrames_eq (h : s.loops? scope = some ref) (frames : LoopStack) :
    s.withFrames scope frames = s.setStack ref (frames ++ s.stack ref) := by
  rw [withFrames, h]

@[simp] theorem withFrames_nil (s : Store) (scope : ScopeId) : s.withFrames scope [] = s := by
  rw [withFrames]
  split
  · exact setStack_stack s _
  · rfl

@[simp] theorem scopes_withFrames (s : Store) (scope : ScopeId) (frames : LoopStack) :
    (s.withFrames scope frames).scopes = s.scopes := by
  rw [withFrames]
  split <;> rfl

theorem loops?_withFrames (s : Store) (scope : ScopeId) (frames : LoopStack) :
    (s.withFrames scope frames).loops? scope = s.loops? scope :=
  loops?_congr (by rw [scopes_withFrames])

theorem frames_withFrames (hs : s.Ready scope) (h : s.loops? scope = some ref) (frames : LoopStack) :
    (s.withFrames scope frames).frames scope = frames ++ s.frames scope := by
  have h' : (s.withFrames scope frames).loops? scope = some ref :=
    (loops?_withFrames s scope frames).trans h
  have hstack : (s.withFrames scope frames).stack ref = frames ++ s.stack ref := by
    rw [withFrames_eq h, stack_setStack_self (hs.loops_lt ref h)]
  simp only [Store.frames, h', h, hstack]

end Store

def World.withFrames (w : World) (scope : ScopeId) (frames : LoopStack) : World :=
  { w with store := w.store.withFrames scope frames }

@[simp] theorem World.withFrames_nil (w : World) (scope : ScopeId) : w.withFrames scope [] = w := by
  rw [withFrames, Store.withFrames_nil]

namespace LoopStack

variable {scope : ScopeId} {ref : Nat} {w : World}

theorem push_withFrames (hw : w.store.Ready scope) (h : w.store.loops? scope = some ref)
    (frame : LoopFrame) (frames : LoopStack) :
    push ref frame (w.withFrames scope frames) = .ok () (w.withFrames scope (frame :: frames)) := by
  rw [push, World.withFrames, World.withFrames, Store.withFrames_eq h, Store.withFrames_eq h]
  simp only [Store.setStack_setStack, Store.stack_setStack_self (hw.loops_lt ref h), List.cons_append]

theorem pop?_withFrames (hw : w.store.Ready scope) (h : w.store.loops? scope = some ref)
    (frame : LoopFrame) (frames : LoopStack) :
    pop? ref (w.withFrames scope (frame :: frames)) = .ok (some frame) (w.withFrames scope frames) := by
  rw [pop?, World.withFrames, World.withFrames, Store.withFrames_eq h, Store.withFrames_eq h]
  simp only [Store.setStack_setStack, Store.stack_setStack_self (hw.loops_lt ref h), List.cons_append]

theorem ensure_of_loops (h : w.store.loops? scope = some ref) : ensure scope w = .ok ref w := by
  simp only [ensure, h]

theorem ensure_of_none (h : w.store.loops? scope = none) :
    ensure scope w = .ok w.store.nextStack { w with
      store := (w.store.addStack []).set scope loopBinding (.loops w.store.nextStack) } := by
  simp only [ensure, h]

end LoopStack

def markLoops (scope : ScopeId) : Execution Unit := (fun _ => ()) <$> LoopStack.ensure scope

theorem markLoops_of_ensure {scope : ScopeId} {w w' : World} {ref : Nat}
    (h : LoopStack.ensure scope w = .ok ref w') : markLoops scope w = .ok () w' := by
  rw [markLoops, map_eq_pure_bind, bind_ok h]
  rfl

theorem markLoops_ok {scope : ScopeId} {w : World} (hscope : scope < w.store.scopes.size) :
    ∃ ref w', LoopStack.ensure scope w = .ok ref w' ∧ markLoops scope w = .ok () w' ∧
      w'.store.loops? scope = some ref := by
  cases h : w.store.loops? scope with
  | some ref =>
    have hens := LoopStack.ensure_of_loops h
    exact ⟨ref, w, hens, markLoops_of_ensure hens, h⟩
  | none =>
    have hens := LoopStack.ensure_of_none h
    refine ⟨_, _, hens, markLoops_of_ensure hens, ?_⟩
    exact Store.loops?_set_loops (by simpa [Store.addStack] using hscope) _

namespace Execution

variable {α β : Type} {scope : ScopeId}

/-- However it ends, the run leaves all loop stacks as they are. -/
def Holds (scope : ScopeId) (x : Execution α) : Prop :=
  ∀ w : World, scope < w.store.scopes.size → w.store.Holds scope (x.after w).store

theorem Holds.ok {x : Execution α} {w w' : World} {a : α} (hx : Holds scope x)
    (hscope : scope < w.store.scopes.size) (h : x w = .ok a w') : w.store.Holds scope w'.store :=
  after_ok h ▸ hx w hscope

theorem Spares.holds {x : Execution α} (h : Spares (fun _ => False) x) : Holds scope x :=
  fun w hscope => (h w).holds (Store.loops?_congr ((h w).scope scope hscope not_false))

theorem Holds.bind {x : Execution α} {f : α → Execution β} (hx : Holds scope x)
    (hf : ∀ a, Holds scope (f a)) : Holds scope (x >>= f) := by
  intro w hscope
  have hw := hx w hscope
  obtain ⟨a, hbind⟩ | hbind := after_bind x f w
  · rw [hbind]
    exact hw.trans (hf a _ (Nat.lt_of_lt_of_le hscope hw.size))
  · rwa [hbind]

theorem holds_pure (a : α) : Holds scope (pure a : Execution α) := (spares_pure a).holds

theorem holds_fail (cause : Cause) (span : Span) : Holds scope (fail cause span : Execution α) :=
  (spares_fail cause span).holds

theorem Holds.map {x : Execution α} {g : α → β} (hx : Holds scope x) : Holds scope (g <$> x) := by
  rw [map_eq_pure_bind]
  exact hx.bind fun a => holds_pure _

theorem holds_assign {name : Name} (hname : name ≠ loopBinding) (v : Value) :
    Holds scope (assign scope name v) := fun w _ =>
  have hgrows : w.store.Grows (· = scope) (w.store.set scope name v) :=
    @Store.grows_set (· = scope) scope w.store rfl name v
  hgrows.holds (Store.loops?_set_of_ne hname w.store scope v)

theorem holds_markLoops (scope : ScopeId) : Holds scope (markLoops scope) := by
  refine Holds.map fun w hscope => ?_
  cases h : w.store.loops? scope with
  | some ref =>
    rw [after_ok (LoopStack.ensure_of_loops h)]
    exact .refl scope w.store
  | none =>
    rw [after_ok (LoopStack.ensure_of_none h)]
    exact Store.holds_addStack hscope h

end Execution

variable {host : Host} {invoke : Invoke} {scope : ScopeId}

theorem evalExpr_holds (hinv : invoke.Spares) (e : Expr) :
    Holds scope (evalExpr host invoke scope e) :=
  (evalExpr_spares hinv scope e).holds

theorem startLoop_holds (span : Span) (count : Expr) (body : Block) :
    Holds scope (startLoop host invoke scope span count body) :=
  (startLoop_spares scope span count body).holds

theorem holds_compositional (scope : ScopeId) : Compositional fun _ => Holds scope where
  pure := holds_pure
  bind hx hf := hx.bind hf
  fail span _ := holds_fail _ span

theorem holds_executes (hinv : invoke.Spares) (scope : ScopeId) :
    Executes (fun _ => Holds scope) (· ≠ loopBinding) host invoke scope where
  toCompositional := holds_compositional scope
  expr := evalExpr_holds hinv
  start := startLoop_holds
  assign v hname := holds_assign hname v
  loop frame last hbody := (holds_compositional scope).loopFrom spares_poll.holds
    (spares_throw _).holds spares_get.holds hbody frame last

theorem evalBody_holds (hinv : invoke.Spares) (last : Value) (body : List Stmt)
    (hbody : loopBinding ∉ Stmt.namesOf body) : Holds scope (evalBody host invoke scope last body) :=
  (holds_executes hinv scope).evalBody last body fun _ hmem =>
    ne_of_mem_of_not_mem (Stmt.mem_namesOf_of_assignedIn body hmem) hbody

theorem advanceBlock_holds (hinv : invoke.Spares) (c : Spot) (b : Block)
    (hb : loopBinding ∉ b.names) :
    Holds scope (advanceBlock (markLoops scope) host invoke scope c b) :=
  (holds_executes hinv scope).advanceBlock (holds_markLoops scope) c b fun _ hmem =>
    ne_of_mem_of_not_mem hmem hb

end Stepwise
