import Stepwise.Proofs.Findings
import Stepwise.Proofs.Progress
import Stepwise.Proofs.Requests

/-! What belongs to a session. A step writes the scope it is made in and the loop stack of that scope,
and so does all else that is done with a session; whatever was there before and is neither of them stays
as it is. -/

namespace Stepwise

open Execution

/-- From `s` to `t`, of the scopes and loop stacks there were, at most one scope and its loop stack have
been written. A loop stack that the scope has got was not there before. -/
structure Store.Touches (scope : ScopeId) (s t : Store) : Prop where
  size : s.scopes.size ≤ t.scopes.size
  others : ∀ id, id < s.scopes.size → id ≠ scope → t.scopes[id]? = s.scopes[id]?
  count : s.loopStacks.size ≤ t.loopStacks.size
  kept : ∀ ref, ref < s.loopStacks.size → s.loops? scope ≠ some ref → t.stack ref = s.stack ref
  loops : ∀ ref, t.loops? scope = some ref →
    s.loops? scope = some ref ∨ s.nextStack ≤ ref ∧ ref < t.nextStack
  closures : s.closures ≤ t.closures

namespace Store

variable {scope : ScopeId} {s t u : Store}

namespace Touches

theorem refl (scope : ScopeId) (s : Store) : s.Touches scope s :=
  ⟨Nat.le_refl _, fun _ _ _ => rfl, Nat.le_refl _, fun _ _ _ => rfl, fun _ h => .inl h, Nat.le_refl _⟩

theorem trans (h : s.Touches scope t) (h' : t.Touches scope u) : s.Touches scope u where
  size := Nat.le_trans h.size h'.size
  others id hid hne :=
    (h'.others id (Nat.lt_of_lt_of_le hid h.size) hne).trans (h.others id hid hne)
  count := Nat.le_trans h.count h'.count
  kept ref href hne := by
    refine (h'.kept ref (Nat.lt_of_lt_of_le href h.count) fun hloops => ?_).trans (h.kept ref href hne)
    obtain hloops | ⟨hlate, -⟩ := h.loops ref hloops
    · exact hne hloops
    · exact Nat.not_lt.mpr hlate href
  loops ref href := by
    obtain href | ⟨hlate, hlt⟩ := h'.loops ref href
    · exact (h.loops ref href).imp_right fun hnew => ⟨hnew.1, Nat.lt_of_lt_of_le hnew.2 h'.count⟩
    · exact .inr ⟨Nat.le_trans h.count hlate, hlt⟩
  closures := Nat.le_trans h.closures h'.closures

/-- What is put on a loop stack that the scope has got is put on no other one. -/
theorem setStack (h : s.Touches scope t) {ref : Nat}
    (href : s.loops? scope = some ref ∨ s.nextStack ≤ ref) (frames : LoopStack) :
    s.Touches scope (t.setStack ref frames) where
  size := h.size
  others := h.others
  count := by simpa [Store.setStack] using h.count
  kept ref' hlt hne := by
    have hother : ref ≠ ref' := by
      rintro rfl
      obtain hloops | hlate := href
      · exact hne hloops
      · exact Nat.not_lt.mpr hlate hlt
    rw [stack_setStack_of_ne hother, h.kept ref' hlt hne]
  loops ref' href' := by
    have hnext : (t.setStack ref frames).nextStack = t.nextStack := by simp [nextStack, Store.setStack]
    rw [hnext]
    exact h.loops ref' href'
  closures := h.closures

theorem clearLoops (h : s.Touches scope t) : s.Touches scope (t.clearLoops scope) where
  size := by simpa [Store.clearLoops, delete] using h.size
  others id hid hne := by
    rw [Store.clearLoops, getElem?_delete, if_neg (Ne.symm hne), h.others id hid hne]
  count := h.count
  kept := h.kept
  loops ref href := by
    rw [loops?_of_unbound (lookup?_clearLoops t scope)] at href
    cases href
  closures := h.closures

theorem extend (h : s.Touches scope t) (hscope : scope < t.scopes.size) (parent : ScopeId)
    (b : Bindings Value) : s.Touches scope (t.extend parent b) := by
  refine h.trans ⟨by simp [Store.extend], fun id hid _ => ?_, Nat.le_refl _, fun _ _ _ => rfl, ?_,
    Nat.le_refl _⟩
  · simp [Store.extend, Array.getElem?_push, Nat.ne_of_lt hid]
  · intro ref href
    rw [loops?_eq_some_iff, lookup?_extend, if_neg (Nat.ne_of_lt hscope), ← loops?_eq_some_iff] at href
    exact .inl href

end Touches

theorem Grows.touches {writable : ScopeId → Prop} (h : s.Grows writable t)
    (hwritable : ∀ id, writable id → id = scope)
    (hlookup : t.lookup? scope loopBinding = s.lookup? scope loopBinding) : s.Touches scope t where
  size := h.size
  others id hid hne := h.scope id hid fun hw => hne (hwritable id hw)
  count := h.loops ▸ Nat.le_refl _
  kept ref _ _ := by simp only [stack, h.loops]
  loops ref href := by
    rw [loops?, hlookup] at href
    exact .inl href
  closures := h.closures

theorem touches_addStack (hscope : scope < s.scopes.size) :
    s.Touches scope ((s.addStack []).set scope loopBinding (.loops s.nextStack)) where
  size := by simp [addStack]
  others id _ hne := by simp [getElem?_set, Ne.symm hne, addStack]
  count := by simp [Store.set, addStack]
  kept ref _ _ := by rw [stack_set, stack_addStack_nil]
  loops ref href := by
    rw [loops?_set_loops (by simpa [addStack] using hscope)] at href
    cases href
    exact .inr ⟨Nat.le_refl _, by simp [Store.set, addStack, nextStack]⟩
  closures := Nat.le_refl _

theorem size_restore (c : LoopCheckpoint) (scope : ScopeId) (s : Store) :
    (c.restore scope s).scopes.size = s.scopes.size := by
  rw [LoopCheckpoint.restore]
  split <;> simp [delete, Store.set, setStack]

theorem closures_restore (c : LoopCheckpoint) (scope : ScopeId) (s : Store) :
    (c.restore scope s).closures = s.closures := by
  rw [LoopCheckpoint.restore]
  split <;> rfl

/-- A step that fails has put back what it did on its way down. -/
theorem Descends.touches_restore (hscope : scope < s.scopes.size) (h : s.Descends scope t) :
    s.Touches scope ((LoopCheckpoint.take s scope).restore scope t) where
  size := by rw [size_restore]; exact h.size
  others id hid _ := (h.restore hscope).1 id hid
  count := by rw [count_restore]; exact h.count
  kept ref _ _ := (h.restore hscope).2 ref
  loops ref href := .inl (by rwa [loops?_congr ((h.restore hscope).1 scope hscope)] at href)
  closures := by rw [closures_restore]; exact h.closures

end Store

namespace Execution

variable {α β : Type} {scope : ScopeId}

/-- However it ends, the run writes at most the scope and its loop stack. -/
def Touches (scope : ScopeId) (x : Execution α) : Prop :=
  ∀ w : World, scope < w.store.scopes.size → w.store.Touches scope (x.after w).store

theorem Leaves.touches {x : Execution α} (h : Leaves scope loopBinding x) : Touches scope x := by
  intro w hscope
  obtain ⟨hgrows, hlookup⟩ := h w hscope
  exact hgrows.touches (fun _ hid => hid) hlookup

theorem Touches.ok {x : Execution α} (h : Touches scope x) {w w' : World} {a : α}
    (hscope : scope < w.store.scopes.size) (hx : x w = .ok a w') : w.store.Touches scope w'.store :=
  after_ok hx ▸ h w hscope

theorem Touches.bind {x : Execution α} {f : α → Execution β} (hx : Touches scope x)
    (hf : ∀ a, Touches scope (f a)) : Touches scope (x >>= f) := by
  intro w hscope
  have hw := hx w hscope
  obtain ⟨a, hbind⟩ | hbind := after_bind x f w
  · rw [hbind]
    exact hw.trans (hf a _ (Nat.lt_of_lt_of_le hscope hw.size))
  · rwa [hbind]

theorem Spares.touches {x : Execution α} (h : Spares (fun _ => False) x) : Touches scope x :=
  h.leaves.touches

end Execution

variable {host : Host} {invoke : Invoke} {scope : ScopeId}

theorem evalStmt_touches (hinv : invoke.Spares) (s : Stmt) (hs : loopBinding ∉ s.names) :
    Touches scope (evalStmt host invoke scope s) :=
  Leaves.touches <| (leaves_executes hinv scope loopBinding).evalStmt s fun _ hmem =>
    ne_of_mem_of_not_mem (s.mem_names_of_assigned hmem) hs

theorem evaluate_touches (setting : Setting) {p : Program} (hp : p.Proper) :
    Touches scope (setting.evaluate scope (.program p)) := by
  have hinv := invokeAt_spares setting setting.depth
  exact Leaves.touches <| (leaves_executes hinv scope loopBinding).evalBody .absent p.body fun _ hmem =>
    ne_of_mem_of_not_mem (Stmt.mem_namesOf_of_assignedIn p.body hmem) hp.not_mem_names

theorem ensure_touches {w w' : World} {ref : Nat} (hscope : scope < w.store.scopes.size)
    (h : LoopStack.ensure scope w = .ok ref w') :
    w.store.Touches scope w'.store ∧ w'.store.loops? scope = some ref := by
  cases hloops : w.store.loops? scope with
  | some ref' =>
    rw [LoopStack.ensure_of_loops hloops] at h
    cases h
    exact ⟨.refl scope w.store, hloops⟩
  | none =>
    rw [LoopStack.ensure_of_none hloops] at h
    cases h
    exact ⟨w.store.touches_addStack hscope, Store.loops?_set_loops (by simpa [Store.addStack] using hscope) _⟩

theorem resumeLoop_touches {s₀ : Store} {ref : Nat} {frame : LoopFrame} {loc : Location} {s r : Stepped}
    {w w' : World} (h : s₀.Touches scope w.store) (href : s₀.loops? scope = some ref ∨ s₀.nextStack ≤ ref)
    (hresume : resumeLoop ref frame loc s w = .ok r w') : s₀.Touches scope w'.store := by
  obtain ⟨-, -, rfl⟩ | ⟨-, rfl⟩ | ⟨-, -, rfl⟩ := resumeLoop_cases hresume
  · exact h.setStack href _
  · exact h
  · exact h.setStack href _

mutual

theorem stepStmt_touches (hinv : invoke.Spares) (s : Stmt) (hs : loopBinding ∉ s.names) {loc : Location}
    {w w' : World} {r : Stepped} (hscope : scope < w.store.scopes.size)
    (h : stepStmt host invoke scope loc s w = .ok r w') : w.store.Touches scope w'.store := by
  cases s with
  | missing | set | call =>
    obtain ⟨-, v, hv⟩ := atomic_cases rfl h
    exact (evalStmt_touches hinv _ hs).ok hscope hv
  | branch span condition thenBlock elseBlock =>
    simp only [Stmt.names, List.mem_append, not_or] at hs
    obtain ⟨path, w₁, henter, hcases⟩ := stepBranch_cases h
    have htouches := (enterBranch_spares hinv condition loc.below).touches.ok hscope henter
    have hscope₁ := Nat.lt_of_lt_of_le hscope htouches.size
    obtain ⟨-, q, hq, -⟩ | ⟨-, -, rfl⟩ | ⟨-, q, hq, -⟩ := hcases
    · exact htouches.trans (stepBlock_touches hinv thenBlock hs.2.1 hscope₁ hq)
    · exact htouches
    · exact htouches.trans (stepBlock_touches hinv elseBlock hs.2.2 hscope₁ hq)
  | times span count body =>
    simp only [Stmt.names, List.mem_append, not_or] at hs
    obtain ⟨-, frame, w₁, hstart, hcases⟩ | ⟨-, ref, frame, frames, q, w₁, href, hstack, hq, hresume⟩ :=
      stepTimes_cases h
    · have htouches := (startLoop_spares scope span count body).touches.ok hscope hstart
      have hscope₁ := Nat.lt_of_lt_of_le hscope htouches.size
      obtain ⟨-, -, rfl⟩ | ⟨ref, w₂, q, w₃, -, hensure, hq, hresume⟩ := hcases
      · exact htouches
      · obtain ⟨hmade, href⟩ := ensure_touches hscope₁ hensure
        have htouches₂ := htouches.trans hmade
        have hscope₂ := Nat.lt_of_lt_of_le hscope htouches₂.size
        have hbody := htouches₂.trans (stepBlock_touches hinv body hs.2 hscope₂ hq)
        exact resumeLoop_touches hbody ((htouches₂.loops ref href).imp_right And.left) hresume
    · have htaken := (Store.Touches.refl scope w.store).setStack (.inl href) frames
      have hscope₁ : scope < (w.store.setStack ref frames).scopes.size := hscope
      have hbody := stepBlock_touches hinv body hs.2 (w := ⟨_, w.written, w.polls⟩) hscope₁ hq
      exact resumeLoop_touches (htaken.trans hbody) (.inl href) hresume
termination_by structural s

theorem stepBlock_touches (hinv : invoke.Spares) (b : Block) (hb : loopBinding ∉ b.names) {loc : Location}
    {w w' : World} {r : Stepped} (hscope : scope < w.store.scopes.size)
    (h : stepBlock host invoke scope loc b w = .ok r w') : w.store.Touches scope w'.store := by
  cases b with
  | missing =>
    cases h
    exact .refl scope _
  | of span body =>
    rw [stepBlock] at h
    split at h
    · cases h
    · exact stepAt_touches hinv body hb hscope h
termination_by structural b

theorem stepAt_touches (hinv : invoke.Spares) (body : List Stmt) (hbody : loopBinding ∉ Stmt.namesOf body)
    {loc : Location} {count skip : Nat} {w w' : World} {r : Stepped}
    (hscope : scope < w.store.scopes.size)
    (h : stepAt host invoke scope loc count skip body w = .ok r w') : w.store.Touches scope w'.store := by
  cases body with
  | nil =>
    cases skip <;> cases h <;> exact .refl scope _
  | cons s rest =>
    rw [Stmt.namesOf, List.mem_append, not_or] at hbody
    cases skip with
    | succ skip =>
      rw [stepAt] at h
      exact stepAt_touches hinv rest hbody.2 hscope h
    | zero =>
      rw [stepAt] at h
      obtain ⟨q, w₁, hq, hp⟩ := bind_eq_ok h
      have htouches := stepStmt_touches hinv s hbody.1 hscope hq
      split at hp <;> cases hp <;> exact htouches
termination_by structural body

end

theorem guarded_touches {x : Execution Stepped} {w : World} (hscope : scope < w.store.scopes.size)
    (hfails : FailsDescending scope x)
    (hok : ∀ r w', x w = .ok r w' → w.store.Touches scope w'.store) :
    w.store.Touches scope ((Setting.guarded scope x).after w).store := by
  cases hx : Setting.guarded scope x w with
  | ok r w' =>
    rw [after_ok hx]
    exact hok r w' (guarded_eq_ok hx)
  | error f w' =>
    rw [after_error hx]
    obtain ⟨w₀, hfail, hstore⟩ := guarded_eq_error hx
    exact hstore ▸ (hfails w w₀ f hscope hfail).touches_restore hscope

/-- A step writes at most its own scope and the loop stack of that. -/
theorem step_touches (setting : Setting) {p : Program} (hp : p.Proper) (loc : Location) :
    Touches scope (setting.step scope (.program p) loc) := by
  have hinv := invokeAt_spares setting setting.depth
  rw [Setting.step_eq]
  split
  · exact (spares_pure _).touches
  · refine spares_poll.touches.bind fun _ => ?_
    have hguarded : Touches scope (Setting.guarded scope (setting.stepBody scope loc p.body)) :=
      fun w hscope => guarded_touches hscope (stepBlock_fails hinv scope loc p.block) fun r w' h =>
        stepBlock_touches hinv p.block hp.not_mem_names hscope h
    exact hguarded.bind fun s => (spares_pure _).touches

namespace Live

/-- The scope of the session is there, and its program is what its text reads as. -/
structure Housed (l : Live) : Prop where
  scope_lt : l.session.scope < l.world.store.scopes.size
  loaded : ∀ d, l.session.loaded = some d → d.tree = Program.read d.text

/-- From `m` to `l` the session has kept its program and its scope, and has written nothing else. -/
structure Stays (m l : Live) : Prop where
  options : l.session.options = m.session.options
  loaded : l.session.loaded = m.session.loaded
  scope : l.session.scope = m.session.scope
  touches : m.world.store.Touches m.session.scope l.world.store

/-- From `l` to `l'` the session has written only what is its own. If it has gone to another scope, that
one is new, and the loop stack it has now was its own before or is new as well. -/
structure Moves (l l' : Live) : Prop where
  options : l'.session.options = l.session.options
  housed : l'.Housed
  touches : l.world.store.Touches l.session.scope l'.world.store
  scope : l'.session.scope = l.session.scope ∨ l.world.store.nextScope ≤ l'.session.scope
  loops : ∀ ref, l'.world.store.loops? l'.session.scope = some ref →
    l.world.store.loops? l.session.scope = some ref ∨
      l.world.store.nextStack ≤ ref ∧ ref < l'.world.store.nextStack

variable {m l l' : Live}

theorem Stays.refl (l : Live) : l.Stays l := ⟨rfl, rfl, rfl, .refl _ _⟩

theorem Stays.housed (h : m.Stays l) (hm : m.Housed) : l.Housed where
  scope_lt := by
    rw [h.scope]
    exact Nat.lt_of_lt_of_le hm.scope_lt h.touches.size
  loaded := by
    rw [h.loaded]
    exact hm.loaded

theorem Stays.moves (h : l.Stays l') (hl : l.Housed) : l.Moves l' where
  options := h.options
  housed := h.housed hl
  touches := h.touches
  scope := .inl h.scope
  loops ref href := h.touches.loops ref (by rwa [h.scope] at href)

theorem Stays.after (h : m.Stays l) {w : World} (hw : l.world.store.Touches l.session.scope w.store)
    {session : Session} (hoptions : session.options = l.session.options)
    (hloaded : session.loaded = l.session.loaded) (hscope : session.scope = l.session.scope) :
    m.Stays ⟨session, w⟩ where
  options := hoptions.trans h.options
  loaded := hloaded.trans h.loaded
  scope := hscope.trans h.scope
  touches := h.touches.trans (h.scope ▸ hw)

theorem poll_stays (m : Live) : Running.Keeps m.Stays Session.poll := by
  intro l h
  constructor
  · intro u l' hpoll
    obtain ⟨hl', -⟩ := Session.poll_eq_ok hpoll
    rw [hl']
    exact h.after (w := (l.withPolls l'.world.polls).world) (.refl _ _) rfl rfl rfl
  · intro stop l' hpoll
    obtain ⟨rfl, -⟩ := Session.poll_eq_error hpoll
    exact h

theorem step_stays (hm : m.Housed) : Running.Keeps m.Stays Session.step := by
  intro l h
  have hl := h.housed hm
  have hstep {p : Program} (hp : l.session.program = .ok p) :
      Touches l.session.scope
        (l.session.options.setting.step l.session.scope (.program p) l.session.location) :=
    step_touches _ (Session.program_proper hl.loaded hp) _
  constructor
  · intro v l' hok
    obtain rfl | ⟨p, r, w, trace, hp, -, hrun, rfl⟩ := Session.step_eq_ok hok
    · exact h
    · exact h.after ((hstep hp).ok hl.scope_lt hrun) rfl rfl rfl
  · intro stop l' herror
    obtain ⟨rfl, -⟩ | ⟨p, f, w, trace, hp, -, hrun, -, rfl⟩ := Session.step_eq_error herror
    · exact h
    · exact h.after (after_error hrun ▸ hstep hp l.world hl.scope_lt) rfl rfl rfl

theorem evaluate_stays (hl : l.Housed) : l.Stays (Running.after Session.evaluate l) := by
  have h := Stays.refl l
  rw [Running.after, Session.evaluate]
  cases hp : l.session.program with
  | error stop => exact h
  | ok p =>
    have hrun := evaluate_touches l.session.options.setting (Session.program_proper hl.loaded hp)
      l.world hl.scope_lt
    dsimp only
    cases he : l.session.options.setting.evaluate l.session.scope (.program p) l.world with
    | ok v w =>
      rw [after_ok he] at hrun
      exact h.after (w := ⟨_, w.written, w.polls⟩) hrun.clearLoops rfl rfl rfl
    | error f w =>
      rw [after_error he] at hrun
      exact h.after hrun rfl rfl rfl

/-- Whatever is asked of a session, it writes only what is its own. -/
theorem perform_moves {o : SessionOptions} (ho : l.session.options = o) (hseeds : o.SeedsNoLoops)
    (hsilent : o.setting.host.PureSilent) (hl : l.Housed) (r : Request) : l.Moves (l.perform r.action) := by
  have hstay := Stays.refl l
  have hclear : l.world.store.Touches l.session.scope (l.world.store.clearLoops l.session.scope) :=
    hstay.touches.clearLoops
  have hcleared (ref : Nat) :
      (l.world.store.clearLoops l.session.scope).loops? l.session.scope ≠ some ref := by
    rw [Store.loops?_of_unbound (Store.lookup?_clearLoops l.world.store l.session.scope)]
    exact Option.some_ne_none ref |>.symm
  cases r with
  | load text =>
    refine ⟨rfl, ⟨?_, fun d hd => ?_⟩, hclear, .inl rfl, fun ref href => (hcleared ref href).elim⟩
    · exact Nat.lt_of_lt_of_le hl.scope_lt hclear.size
    · obtain rfl := Option.some.inj hd
      rfl
  | step => exact ((step_stays hl).after hstay).moves hl
  | run budget => exact (runFrom_keeps (poll_stays l) (step_stays hl) budget _ 0 hstay).moves hl
  | check =>
    have hafter : Running.after Session.check l = l := Session.after_check (ho ▸ hsilent)
    rw [Request.action, perform, hafter]
    exact hstay.moves hl
  | evaluate => exact (evaluate_stays hl).moves hl
  | reset =>
    rw [Request.action, perform]
    by_cases hpolicy : o.policy = .scope
    · rw [reset_of_scope ho hpolicy]
      refine ⟨rfl, ⟨?_, hl.loaded⟩, hstay.touches.extend hl.scope_lt _ _, .inr (Nat.le_refl _),
        fun ref href => ?_⟩
      · simp [SessionOptions.addScope, Store.extend, Store.nextScope]
      · rw [SessionOptions.loops?_addScope hseeds] at href
        cases href
    · rw [reset_of_not_scope ho hpolicy]
      refine ⟨rfl, ⟨?_, hl.loaded⟩, hclear, .inl rfl, fun ref href => (hcleared ref href).elim⟩
      exact Nat.lt_of_lt_of_le hl.scope_lt hclear.size

end Live

end Stepwise
