import Stepwise.Proofs.Locality
import Stepwise.Proofs.Store
import Stepwise.Session

/-! A step that fails changes nothing. On its way down a step evaluates expressions, makes a loop
stack where there is none and takes frames off; it writes a binding only when nothing can fail any
more. So whatever a failing step has done to the scopes there were is undone by putting the loops of
its scope back. -/

namespace Stepwise

open Execution

namespace Scope

def bindLoops (scope : Scope) (ref : Nat) : Scope :=
  { scope with bindings := scope.bindings.insert loopBinding (.loops ref) }

end Scope

namespace Store

/-- What a step in a scope can have done to a store before it fails. Frames have been taken off the
loop stack of the scope and off no other one; a stack that was made is empty. -/
structure Descends (scope : ScopeId) (s t : Store) : Prop where
  size : s.scopes.size ≤ t.scopes.size
  others : ∀ id, id < s.scopes.size → id ≠ scope → t.scopes[id]? = s.scopes[id]?
  own : t.scopes[scope]? = s.scopes[scope]? ∨
    s.loops? scope = none ∧ ∃ ref, s.stack ref = [] ∧
      t.scopes[scope]? = (s.scopes[scope]?).map (·.bindLoops ref)
  count : s.loopStacks.size ≤ t.loopStacks.size
  popped : ∀ ref, t.stack ref <:+ s.stack ref
  kept : ∀ ref, s.loops? scope ≠ some ref → t.stack ref = s.stack ref
  closures : s.closures ≤ t.closures

variable {scope : ScopeId} {s t u : Store}

theorem loops?_bindLoops {ref : Nat} (hscope : scope < s.scopes.size)
    (h : t.scopes[scope]? = (s.scopes[scope]?).map (·.bindLoops ref)) :
    t.loops? scope = some ref := by
  rw [Array.getElem?_eq_getElem hscope] at h
  simp [loops?, lookup?, bindings, h, Scope.bindLoops, Bindings.get?_insert]

theorem Descends.refl (scope : ScopeId) (s : Store) : s.Descends scope s :=
  ⟨Nat.le_refl _, fun _ _ _ => rfl, .inl rfl, Nat.le_refl _, fun _ => List.suffix_rfl,
    fun _ _ => rfl, Nat.le_refl _⟩

theorem Grows.descends {writable : ScopeId → Prop} (h : s.Grows writable t)
    (hw : ∀ id, ¬ writable id) (hscope : scope < s.scopes.size) : s.Descends scope t where
  size := h.size
  others id hid _ := h.scope id hid (hw id)
  own := .inl (h.scope scope hscope (hw scope))
  count := h.loops ▸ Nat.le_refl _
  popped ref := by simp only [stack, h.loops, List.suffix_rfl]
  kept ref _ := by simp only [stack, h.loops]
  closures := h.closures

theorem Descends.trans (hscope : scope < s.scopes.size) (h : s.Descends scope t)
    (h' : t.Descends scope u) : s.Descends scope u where
  size := Nat.le_trans h.size h'.size
  others id hid hne :=
    (h'.others id (Nat.lt_of_lt_of_le hid h.size) hne).trans (h.others id hid hne)
  own := by
    obtain hst | ⟨hs, ref, href, hst⟩ := h.own
    · obtain htu | ⟨ht, ref, href, htu⟩ := h'.own
      · exact .inl (htu.trans hst)
      · have hs : s.loops? scope = none := by rw [← loops?_congr hst, ht]
        refine .inr ⟨hs, ref, ?_, by rw [htu, hst]⟩
        rw [← h.kept ref (by simp [hs]), href]
    · obtain htu | ⟨ht, -⟩ := h'.own
      · exact .inr ⟨hs, ref, href, htu.trans hst⟩
      · rw [loops?_bindLoops hscope hst] at ht
        cases ht
  count := Nat.le_trans h.count h'.count
  popped ref := (h'.popped ref).trans (h.popped ref)
  kept ref hne := by
    have hst := h.kept ref hne
    by_cases ht : t.loops? scope = some ref
    · -- the stack was made on the way, so there was nothing on it to take off
      obtain hown | ⟨hs, ref', href, hown⟩ := h.own
      · exact absurd (loops?_congr hown ▸ ht) hne
      · rw [loops?_bindLoops hscope hown] at ht
        cases ht
        have hnil := h'.popped ref
        rw [hst, href] at hnil
        rw [List.suffix_nil.mp hnil, href]
    · exact (h'.kept ref ht).trans hst
  closures := Nat.le_trans h.closures h'.closures

theorem descends_addStack (h : s.loops? scope = none) :
    s.Descends scope ((s.addStack []).set scope loopBinding (.loops s.nextStack)) where
  size := by simp [addStack]
  others id _ hne := by simp [getElem?_set, Ne.symm hne, addStack]
  own := by
    refine .inr ⟨h, s.nextStack, stack_eq_nil_of_size_le (Nat.le_refl _), ?_⟩
    simp only [getElem?_set, if_true]
    rfl
  count := by simp [set, addStack]
  popped ref := by simp only [stack_set, stack_addStack_nil, List.suffix_rfl]
  kept ref _ := by rw [stack_set, stack_addStack_nil]
  closures := Nat.le_refl _

theorem descends_pop {ref : Nat} {frame : LoopFrame} {frames : LoopStack}
    (hloops : s.loops? scope = some ref) (h : s.stack ref = frame :: frames) :
    s.Descends scope (s.setStack ref frames) where
  size := Nat.le_refl _
  others _ _ _ := rfl
  own := .inl rfl
  count := by simp [setStack]
  popped ref' := by
    by_cases he : ref = ref'
    · subst he
      have hsize : ref < s.loopStacks.size := by
        refine Nat.lt_of_not_le fun hle => ?_
        rw [stack_eq_nil_of_size_le hle] at h
        cases h
      rw [stack_setStack_self hsize, h]
      exact List.suffix_cons frame frames
    · simp only [stack_setStack_of_ne he, List.suffix_rfl]
  kept ref' hne := by
    have he : ref ≠ ref' := by
      rintro rfl
      exact hne hloops
    exact stack_setStack_of_ne he s frames
  closures := Nat.le_refl _

theorem restore_getElem?_of_ne {id : ScopeId} (c : LoopCheckpoint) (hne : scope ≠ id) (t : Store) :
    (c.restore scope t).scopes[id]? = t.scopes[id]? := by
  rw [LoopCheckpoint.restore]
  split
  · rw [getElem?_delete, if_neg hne]
  · rw [getElem?_set, if_neg hne]
    rfl
  · rw [getElem?_set, if_neg hne]

theorem Descends.restore_own (hscope : scope < s.scopes.size) (h : s.Descends scope t) :
    ((LoopCheckpoint.take s scope).restore scope t).scopes[scope]? = s.scopes[scope]? := by
  have hs := Array.getElem?_eq_getElem hscope
  have hget : s.lookup? scope loopBinding = s.scopes[scope].bindings.get? loopBinding := by
    simp only [lookup?, bindings, hs]
  rw [LoopCheckpoint.restore]
  split
  · next hnone =>
    rw [getElem?_delete, if_pos rfl]
    have hnone : s.scopes[scope].bindings.get? loopBinding = none := hget ▸ hnone
    obtain hown | ⟨-, ref, -, hown⟩ := h.own
    · simp [hown, hs, Bindings.erase_of_get?_none hnone]
    · simp [hown, hs, Scope.bindLoops, Bindings.erase_insert_self,
        Bindings.erase_of_get?_none hnone]
  · next ref href =>
    have hloops := loops?_eq_some_iff.mpr href
    have href : s.scopes[scope].bindings.get? loopBinding = some (.loops ref) := hget ▸ href
    obtain hown | ⟨hnone, -⟩ := h.own
    · have hown' : (t.setStack ref (LoopCheckpoint.take s scope).frames).scopes[scope]? =
        some s.scopes[scope] := hown.trans hs
      rw [getElem?_set, if_pos rfl, hown', hs]
      simp [Bindings.insert_of_get? href]
    · rw [hloops] at hnone
      cases hnone
  · next v _ hv =>
    rw [getElem?_set, if_pos rfl]
    have hv : s.scopes[scope].bindings.get? loopBinding = some v := hget ▸ hv
    obtain hown | ⟨-, ref, -, hown⟩ := h.own
    · simp [hown, hs, Bindings.insert_of_get? hv]
    · simp [hown, hs, Scope.bindLoops, Bindings.insert_insert, Bindings.insert_of_get? hv]

theorem Descends.restore_stack (h : s.Descends scope t) (ref : Nat) :
    ((LoopCheckpoint.take s scope).restore scope t).stack ref = s.stack ref := by
  rw [LoopCheckpoint.restore]
  split
  · next hnone =>
    refine h.kept ref fun hloops => ?_
    rw [loops?_eq_some_iff] at hloops
    exact absurd (hnone.symm.trans hloops) (by simp)
  · next own hown =>
    have hloops := loops?_eq_some_iff.mpr hown
    have hframes : (LoopCheckpoint.take s scope).frames = s.stack own := by
      simp only [LoopCheckpoint.take, frames, hloops]
    rw [stack_set, hframes]
    by_cases he : own = ref
    · subst he
      by_cases hsize : own < t.loopStacks.size
      · exact stack_setStack_self hsize _
      · have hle : s.loopStacks.size ≤ own := Nat.le_trans h.count (Nat.le_of_not_lt hsize)
        rw [stack_eq_nil_of_size_le hle]
        exact stack_eq_nil_of_size_le (by simpa [setStack] using Nat.le_of_not_lt hsize)
    · rw [stack_setStack_of_ne he]
      refine h.kept ref fun hloops' => he ?_
      rw [hloops] at hloops'
      cases hloops'
      rfl
  · next v hne hv =>
    refine h.kept ref fun hloops => ?_
    rw [loops?_eq_some_iff] at hloops
    exact hne ref (Option.some.inj (hv.symm.trans hloops))

/-- Putting the loops of the scope back makes good everything that was done on the way down. -/
theorem Descends.restore (hscope : scope < s.scopes.size) (h : s.Descends scope t) :
    (∀ id, id < s.scopes.size →
      ((LoopCheckpoint.take s scope).restore scope t).scopes[id]? = s.scopes[id]?) ∧
    ∀ ref, ((LoopCheckpoint.take s scope).restore scope t).stack ref = s.stack ref := by
  refine ⟨fun id hid => ?_, h.restore_stack⟩
  by_cases he : scope = id
  · exact he ▸ h.restore_own hscope
  · rw [restore_getElem?_of_ne _ he, h.others id hid (Ne.symm he)]

end Store

namespace Execution

variable {α β : Type} {scope : ScopeId}

def Descends (scope : ScopeId) (x : Execution α) : Prop :=
  ∀ w : World, scope < w.store.scopes.size → w.store.Descends scope (x.after w).store

/-- When it fails, the run has done no more than a step does on its way down. -/
def FailsDescending (scope : ScopeId) (x : Execution α) : Prop :=
  ∀ (w w' : World) (f : Failure), scope < w.store.scopes.size → x w = .error f w' →
    w.store.Descends scope w'.store

theorem Spares.descends {x : Execution α} (h : Spares (fun _ => False) x) : Descends scope x :=
  fun w hscope => (h w).descends (fun _ => not_false) hscope

theorem Descends.fails {x : Execution α} (h : Descends scope x) : FailsDescending scope x :=
  fun w _ _ hscope he => after_error he ▸ h w hscope

theorem Descends.bind_fails {x : Execution α} {f : α → Execution β} (hx : Descends scope x)
    (hf : ∀ a, FailsDescending scope (f a)) : FailsDescending scope (x >>= f) := by
  intro w w' e hscope he
  have hw := hx w hscope
  obtain he | ⟨a, w₁, hok, he⟩ := bind_eq_error he
  · exact after_error he ▸ hw
  · rw [after_ok hok] at hw
    have hscope₁ := Nat.lt_of_lt_of_le hscope hw.size
    exact hw.trans hscope (hf a w₁ w' e hscope₁ he)

theorem FailsDescending.bind_of_ok {x : Execution α} {f : α → Execution β}
    (hx : FailsDescending scope x) (hf : ∀ a w, ∃ b w', f a w = .ok b w') :
    FailsDescending scope (x >>= f) := by
  intro w w' e hscope he
  obtain he | ⟨a, w₁, -, he⟩ := bind_eq_error he
  · exact hx w w' e hscope he
  · obtain ⟨b, w₂, hok⟩ := hf a w₁
    rw [hok] at he
    cases he

theorem fails_pure (a : α) : FailsDescending scope (pure a : Execution α) :=
  Descends.fails (spares_pure a).descends

theorem fails_fail (cause : Cause) (span : Span) :
    FailsDescending scope (fail cause span : Execution α) :=
  Descends.fails (spares_fail cause span).descends

end Execution

variable {host : Host} {invoke : Invoke} {scope : ScopeId}

theorem ensure_spec {w : World} (hscope : scope < w.store.scopes.size) :
    ∃ ref w', LoopStack.ensure scope w = .ok ref w' ∧ w.store.Descends scope w'.store ∧
      w'.store.loops? scope = some ref := by
  rw [LoopStack.ensure]
  cases h : w.store.loops? scope with
  | some ref => exact ⟨ref, w, rfl, .refl scope w.store, h⟩
  | none =>
    refine ⟨_, _, rfl, w.store.descends_addStack h, ?_⟩
    exact Store.loops?_set_loops (by simpa [Store.addStack] using hscope) _

theorem takeFrame_descends (scope : ScopeId) (span : Span) (loc : Location)
    (entered : Option LoopFrame) : Descends scope (takeFrame scope span loc entered) := by
  intro w hscope
  obtain ⟨ref, w₁, hensure, hdown, hloops⟩ := ensure_spec hscope
  cases entered with
  | some frame => rwa [after, takeFrame, bind_ok hensure]
  | none =>
    rw [after, takeFrame, bind_ok hensure]
    cases hstack : w₁.store.stack ref with
    | nil =>
      have hpop : LoopStack.pop? ref w₁ = .ok none w₁ := by simp only [LoopStack.pop?, hstack]
      simp only [bind_ok hpop]
      exact hdown
    | cons frame frames =>
      have hpop : LoopStack.pop? ref w₁ =
          .ok (some frame) { w₁ with store := w₁.store.setStack ref frames } := by
        simp only [LoopStack.pop?, hstack]
      simp only [bind_ok hpop]
      exact hdown.trans hscope (Store.descends_pop hloops hstack)

theorem resumeLoop_ok (ref : Nat) (frame : LoopFrame) (loc : Location) (s : Stepped) (w : World) :
    ∃ r w', resumeLoop ref frame loc s w = .ok r w' := by
  rw [resumeLoop]
  split
  · exact ⟨_, _, rfl⟩
  · split
    · exact ⟨_, _, rfl⟩
    · exact ⟨_, _, rfl⟩

theorem enterBranch_descends (hinv : invoke.Spares) (scope : ScopeId) (condition : Expr)
    (path : Location) : Descends scope (enterBranch host invoke scope condition path) := by
  apply Spares.descends
  rw [enterBranch]
  split
  · exact (evalExpr_spares hinv scope condition).bind fun v => spares_pure _
  · exact spares_pure _

/-- An assignment writes its scope only when its value is there, and then it cannot fail. -/
theorem evalStmt_fails (hinv : invoke.Spares) (scope : ScopeId) {s : Stmt} (h : s.isAtomic) :
    FailsDescending scope (evalStmt host invoke scope s) := by
  have hexpr (e : Expr) : Descends scope (evalExpr host invoke scope e) :=
    (evalExpr_spares hinv scope e).descends
  cases s with
  | missing => exact fails_fail _ _
  | set sp target value =>
    cases target with
    | none => exact fails_fail _ _
    | some symbol =>
      rw [evalStmt]
      split
      · exact fails_fail _ _
      · exact (hexpr value).fails.bind_of_ok fun v w => ⟨_, _, rfl⟩
  | branch | times => simp [Stmt.isAtomic] at h
  | call sp callee args =>
    rw [evalStmt]
    exact (hexpr _).fails

mutual

theorem stepStmt_fails (hinv : invoke.Spares) (scope : ScopeId) (loc : Location) (s : Stmt) :
    FailsDescending scope (stepStmt host invoke scope loc s) := by
  cases s with
  | missing | set | call =>
    rw [stepStmt_atomic rfl]
    exact (evalStmt_fails hinv scope rfl).bind_of_ok fun v w => ⟨_, _, rfl⟩
  | branch sp condition thenBlock elseBlock =>
    rw [stepStmt]
    split
    · exact fails_fail _ _
    refine (enterBranch_descends hinv scope condition loc.below).bind_fails fun path => ?_
    split
    · exact (stepBlock_fails hinv scope path thenBlock).bind_of_ok fun s w => ⟨_, _, rfl⟩
    split
    · split
      · exact fails_pure _
      · exact (stepBlock_fails hinv scope path elseBlock).bind_of_ok fun s w => ⟨_, _, rfl⟩
    · exact fails_fail _ _
  | times sp count body =>
    rw [stepStmt]
    split
    · exact fails_fail _ _
    split
    · refine (startLoop_spares scope sp count body).descends.bind_fails fun frame => ?_
      split
      · exact fails_pure _
      refine (takeFrame_descends scope sp loc _).bind_fails fun taken => ?_
      exact (stepBlock_fails hinv scope _ body).bind_of_ok fun s w => resumeLoop_ok _ _ _ s w
    split
    · exact fails_fail _ _
    · refine (takeFrame_descends scope sp loc none).bind_fails fun taken => ?_
      exact (stepBlock_fails hinv scope _ body).bind_of_ok fun s w => resumeLoop_ok _ _ _ s w

theorem stepBlock_fails (hinv : invoke.Spares) (scope : ScopeId) (loc : Location) (b : Block) :
    FailsDescending scope (stepBlock host invoke scope loc b) := by
  cases b with
  | missing => exact fails_pure _
  | of sp body =>
    rw [stepBlock]
    split
    · exact fails_fail _ _
    · exact stepAt_fails hinv scope loc _ _ body

theorem stepAt_fails (hinv : invoke.Spares) (scope : ScopeId) (loc : Location) (count skip : Nat)
    (body : List Stmt) : FailsDescending scope (stepAt host invoke scope loc count skip body) := by
  cases body with
  | nil => cases skip <;> exact fails_pure _
  | cons s rest =>
    cases skip with
    | zero =>
      rw [stepAt]
      refine (stepStmt_fails hinv scope loc.below s).bind_of_ok fun r w => ?_
      split
      · exact ⟨_, _, rfl⟩
      · exact ⟨_, _, rfl⟩
    | succ skip =>
      rw [stepAt]
      exact stepAt_fails hinv scope loc count skip rest

end

/-- Every scope there was has the bindings it had, and every loop stack its frames. -/
def Store.Preserved (s t : Store) : Prop :=
  (∀ id, id < s.scopes.size → t.scopes[id]? = s.scopes[id]?) ∧ ∀ ref, t.stack ref = s.stack ref

theorem Store.Preserved.refl (s : Store) : s.Preserved s := ⟨fun _ _ => rfl, fun _ => rfl⟩

theorem guarded_eq_error {x : Execution Stepped} {w w' : World} {f : Failure}
    (h : Setting.guarded scope x w = .error f w') :
    ∃ w₀, x w = .error f w₀ ∧
      w'.store = (LoopCheckpoint.take w.store scope).restore scope w₀.store := by
  rw [Setting.guarded] at h
  cases hx : x w with
  | ok s₀ w₀ =>
    simp only [hx] at h
    cases h
  | error f₀ w₀ =>
    simp only [hx] at h
    cases h
    exact ⟨w₀, rfl, rfl⟩

theorem guarded_error {x : Execution Stepped} {w w' : World} {f : Failure}
    (hscope : scope < w.store.scopes.size) (hx : FailsDescending scope x)
    (h : Setting.guarded scope x w = .error f w') : w.store.Preserved w'.store := by
  obtain ⟨w₀, hfail, hstore⟩ := guarded_eq_error h
  rw [hstore]
  exact (hx w w₀ f hscope hfail).restore hscope

theorem step_error {setting : Setting} {n : Node} {loc : Location} {w w' : World} {f : Failure}
    (hscope : scope < w.store.scopes.size) (h : setting.step scope n loc w = .error f w') :
    w.store.Preserved w'.store := by
  rw [Setting.step_eq] at h
  split at h
  · cases h
  obtain ⟨store, written, polls⟩ := w
  cases polls with
  | zero =>
    cases h
    exact .refl _
  | succ polls =>
    have hpoll : poll ⟨store, written, polls + 1⟩ = .ok () ⟨store, written, polls⟩ := rfl
    rw [bind_ok hpoll] at h
    cases hn : n.steppable with
    | error d =>
      simp only [hn] at h
      cases h
      exact .refl _
    | ok body =>
      simp only [hn] at h
      have hbody : FailsDescending scope (setting.stepBody scope loc body) :=
        stepBlock_fails (invokeAt_spares setting setting.depth) scope loc (.of .nowhere body)
      obtain h | ⟨s, w₁, -, h⟩ := bind_eq_error h
      · exact guarded_error (w := ⟨store, written, polls⟩) hscope hbody h
      · cases h

/-- A step that fails has not got on. -/
theorem stepFrom_eq_error {setting : Setting} {n : Node} {loc next : Location} {w w' : World} {f : Failure}
    (h : setting.stepFrom scope n loc w = (⟨.error f, next⟩, w')) :
    next = loc ∧ setting.step scope n loc w = .error f w' := by
  refine ⟨?_, by rw [Setting.step, h]⟩
  rw [Setting.stepFrom] at h
  split at h
  · cases h
  split at h
  · cases h
    rfl
  split at h
  · cases h
    rfl
  split at h
  · cases h
    rfl
  · cases h

namespace Session

variable {l l' : Live}

theorem traceLine_eq (s : Session) (line : Bytes) : ∃ trace, s.traceLine line = { s with trace } := by
  rw [traceLine]
  split
  · exact ⟨_, rfl⟩
  · exact ⟨s.trace, rfl⟩

theorem step_eq_error {stop : Stop} (h : step l = .error stop l') :
    l' = l ∧ l.session.program = .error stop ∨
      ∃ p f w trace, l.session.program = .ok p ∧ l.done = false ∧
        l.session.options.setting.step l.session.scope (.program p) l.session.location l.world =
          .error f w ∧
        stop = .failure f ∧ l' = ⟨{ l.session with trace }, w⟩ := by
  rw [step] at h
  split at h
  · next hp =>
    cases h
    exact .inl ⟨rfl, hp⟩
  next p hp =>
  split at h
  · cases h
  next hd =>
  dsimp only at h
  split at h
  · cases h
  · next f w hstep =>
    cases h
    obtain ⟨trace, htrace⟩ :=
      traceLine_eq l.session (l.session.location.text ++ utf8 " error: " ++ f.text ++ [10])
    exact .inr ⟨p, f, w, trace, hp, by simpa using hd, hstep, rfl, by rw [stay, htrace]⟩

end Session

/-- A step that fails, wherever it started and whatever stopped it, answers with the location it started
from and leaves all scopes and loop stacks as they were; a session stays where it was, and only its trace
can be longer. -/
theorem failed_step_changes_nothing :
    (∀ (setting : Setting) (scope : ScopeId) (n : Node) (loc next : Location) (w w' : World) (f : Failure),
      scope < w.store.scopes.size → setting.stepFrom scope n loc w = (⟨.error f, next⟩, w') →
        next = loc ∧ w.store.Preserved w'.store) ∧
    ∀ (l l' : Live) (stop : Stop), l.session.scope < l.world.store.scopes.size →
      Session.step l = .error stop l' →
        l'.session.location = l.session.location ∧
        l'.session = { l.session with trace := l'.session.trace } ∧
        l.world.store.Preserved l'.world.store := by
  refine ⟨fun setting scope n loc next w w' f hscope h => ?_, fun l l' stop hscope h => ?_⟩
  · obtain ⟨hnext, hstep⟩ := stepFrom_eq_error h
    exact ⟨hnext, step_error hscope hstep⟩
  obtain ⟨rfl, -⟩ | ⟨p, f, w, trace, -, -, hstep, -, rfl⟩ := Session.step_eq_error h
  · exact ⟨rfl, rfl, .refl _⟩
  · exact ⟨rfl, rfl, step_error hscope hstep⟩

/-- A loop whose body calls what is not bound: the step fails inside the loop it has entered, the location
is the start again, and the scope is left without a loop stack. -/
theorem failed_step_changes_nothing_in_loop :
    let w : World := ⟨Store.empty.addRoot .empty, #[], 9⟩
    let n : Node := .program ⟨.nowhere, [.times .nowhere (.number .nowhere 2)
      (.of .nowhere [.call .nowhere (.symbol ⟨.nowhere, [120]⟩) []])]⟩
    ∃ next w', Setting.stepFrom ⟨primitives, 5⟩ 0 n .start w =
        (⟨.error (.diagnostic ⟨.unbound [120], .nowhere⟩), next⟩, w') ∧
      next = .start ∧ w.store.Preserved w'.store ∧ w'.store.lookup? 0 loopBinding = none := by
  intro w n
  have hstep : Setting.stepFrom ⟨primitives, 5⟩ 0 n .start w = (⟨.error _, _⟩, _) := rfl
  obtain ⟨hnext, hpreserved⟩ :=
    failed_step_changes_nothing.1 _ 0 n .start _ w _ _ (by decide) hstep
  exact ⟨_, _, hstep, hnext, hpreserved, rfl⟩

end Stepwise
