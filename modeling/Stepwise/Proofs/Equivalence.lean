import Mathlib
import Stepwise.Proofs.Descent
import Stepwise.Proofs.Lockstep

/-! Stepping a program from its start and evaluating it come to the same. Each step that nobody
cancels leads from one pause to the next; a chain of them ends when the location is over, with the
value of the last step, or with a step that fails. -/

namespace Stepwise

open Execution

def Memory.withFrames (m : Memory) (scope : ScopeId) (frames : LoopStack) : Memory :=
  { m with store := m.store.withFrames scope frames }

/-- What a failing step leaves, when the loops of its scope were as in `m`. -/
def Memory.restored (m : Memory) (scope : ScopeId) (m' : Memory) : Memory :=
  { m' with store := (LoopCheckpoint.take m.store scope).restore scope m'.store }

/-- A program between two steps, with the value of the step before. -/
structure Pause where
  value : Value
  location : Location
  memory : Memory

namespace Setting

def StepTo (setting : Setting) (scope : ScopeId) (n : Node) (a b : Pause) : Prop :=
  a.location.done = false ∧
    (setting.step scope n a.location).Ends a.memory (.ok ⟨b.value, b.location⟩) b.memory

abbrev Reaches (setting : Setting) (scope : ScopeId) (n : Node) :=
  Relation.ReflTransGen (setting.StepTo scope n)

/-- At a pause no step follows: the location is over, and the value is that of the last step, or the
next step fails. -/
def EndsAt (setting : Setting) (scope : ScopeId) (n : Node) (b : Pause) :
    Except Failure Value → Memory → Prop
  | .ok v, m' => b.location.done = true ∧ b.value = v ∧ b.memory = m'
  | .error f, m' => b.location.done = false ∧
    (setting.step scope n b.location).Ends b.memory (.error f) m'

def StepsOut (setting : Setting) (scope : ScopeId) (n : Node) (a : Pause)
    (r : Except Failure Value) (m' : Memory) : Prop :=
  ∃ b, setting.Reaches scope n a b ∧ setting.EndsAt scope n b r m'

end Setting

section

variable {α : Type} {scope : ScopeId} {x : Execution Stepped} {m m' : Memory} {used : Nat}

def Memory.settled (m : Memory) (scope : ScopeId) (r : Except Failure Stepped) (m' : Memory) : Memory :=
  match r with
  | .ok _ => m'
  | .error _ => m.restored scope m'

theorem endsIn_guarded {r : Except Failure Stepped} (h : EndsIn used x m r m') :
    EndsIn used (Setting.guarded scope x) m r (m.settled scope r m') := by
  intro spare
  have hx := h spare
  cases r with
  | ok s =>
    simp only [Setting.guarded, hx, reply]
    rfl
  | error e =>
    simp only [Setting.guarded, hx, reply]
    rfl

theorem guarded_canceled {polls : Nat} (h : x (m.world polls) = .error .canceled (m'.world 0)) :
    Setting.guarded scope x (m.world polls) = .error .canceled ((m.restored scope m').world 0) := by
  simp only [Setting.guarded, h]
  rfl

theorem guarded_steady (hx : Steady x) : Steady (Setting.guarded scope x) := by
  intro m polls
  obtain ⟨used, r, m', hle, h⟩ | ⟨m', h⟩ := hx m polls
  · exact .inl ⟨used, r, _, hle, endsIn_guarded h⟩
  · exact .inr ⟨_, guarded_canceled h⟩

theorem ends_guarded_iff (hx : Steady x) {r : Except Failure Stepped} :
    Ends (Setting.guarded scope x) m r m' ↔ ∃ m₁, Ends x m r m₁ ∧ m' = m.settled scope r m₁ := by
  constructor
  · rintro ⟨used, h⟩
    obtain ⟨used', r', m₁, -, h'⟩ | ⟨m₁, hc⟩ := hx m (used + 1)
    · obtain ⟨rfl, rfl, -⟩ := h.unique (endsIn_guarded h')
      exact ⟨m₁, ⟨used', h'⟩, rfl⟩
    · -- a run that is canceled has no polls left
      have hend : reply r (m'.world 1) = reply (.error .canceled) ((m.restored scope m₁).world 0) :=
        (h 1).symm.trans (guarded_canceled hc)
      obtain ⟨-, hpolls⟩ := world_inj (reply_inj hend).2
      cases hpolls
  · rintro ⟨m₁, ⟨used, h⟩, rfl⟩
    exact ⟨used, endsIn_guarded h⟩

end

theorem ends_congr {α : Type} {x y : Execution α} {m m₁ m' : Memory} {r : Except Failure α}
    (h : ∀ polls, x (m.world polls) = y (m₁.world polls)) : x.Ends m r m' ↔ y.Ends m₁ r m' :=
  exists_congr fun used => forall_congr' fun spare => by rw [h]

namespace Moved

def location (mv : Moved Spot) : Location :=
  match mv.next with
  | none => .finished
  | some c => 0 :: c.path

def frames (mv : Moved Spot) : LoopStack :=
  match mv.next with
  | none => []
  | some c => c.frames

end Moved

/-- A location in a program that stands for a place among its statements. -/
structure Spot.At (c : Spot) (loc : Location) : Prop where
  head : loc.head = 0
  index : loc.below.head = c.index
  inner : loc.below.below = c.inner.path

theorem Spot.at_start : Spot.start.At .start := ⟨rfl, rfl, rfl⟩

theorem Spot.at_path (c : Spot) : c.At (0 :: c.path) := ⟨rfl, rfl, rfl⟩

theorem Spot.At.not_done {c : Spot} {loc : Location} (h : c.At loc) : loc.done = false := by
  simp [Location.done, h.head]

/-- A location that is over is told in one way only. -/
def Stepped.closed (s : Stepped) : Stepped :=
  if s.next.done then ⟨s.value, .finished⟩ else s

theorem step_program {setting : Setting} {scope : ScopeId} {p : Program} {loc : Location}
    (h : loc.done = false) :
    setting.step scope (.program p) loc = (do
      poll
      Stepped.closed <$> Setting.guarded scope (setting.stepBody scope loc p.body)) := by
  rw [Setting.step_eq, if_neg (by simp [h])]
  simp only [map_eq_pure_bind]
  rfl

theorem settle_steady (scope : ScopeId) (loc : Location) (mv : Moved Spot) :
    Steady (settle scope loc Spot.path Spot.frames mv) := by
  obtain ⟨v, next⟩ := mv
  cases next with
  | none => exact Instant.steady fun m => ⟨.ok ⟨v, loc.past⟩, m, fun _ => rfl⟩
  | some c =>
    exact Instant.steady fun m => ⟨.ok ⟨v, loc.head :: c.path⟩, m.withFrames scope c.frames, fun _ => rfl⟩

theorem ends_settle_iff {scope : ScopeId} {c : Spot} {loc : Location} (hloc : c.At loc)
    {mv : Moved Spot} {m m' : Memory} {r : Except Failure Stepped} :
    (Stepped.closed <$> settle scope loc Spot.path Spot.frames mv).Ends m r m' ↔
      r = .ok ⟨mv.value, mv.location⟩ ∧ m' = m.withFrames scope mv.frames := by
  have hends : (Stepped.closed <$> settle scope loc Spot.path Spot.frames mv).Ends m
      (.ok ⟨mv.value, mv.location⟩) (m.withFrames scope mv.frames) := by
    refine ⟨0, fun spare => ?_⟩
    obtain ⟨v, next⟩ := mv
    rw [Nat.zero_add, map_eq_pure_bind]
    cases next with
    | none =>
      rw [bind_ok (settle_none v), Location.past, hloc.head]
      simp only [Memory.withFrames, Moved.frames, Store.withFrames_nil]
      rfl
    | some c' =>
      rw [bind_ok (settle_some v c'), hloc.head]
      rfl
  constructor
  · exact fun h => h.unique hends
  · rintro ⟨rfl, rfl⟩
    exact hends

def Program.block (p : Program) : Block := .of .nowhere p.body

def Setting.advance (setting : Setting) (scope : ScopeId) (p : Program) (c : Spot) :
    Execution (Moved Spot) :=
  advanceBlock (markLoops scope) setting.host setting.invoke scope c p.block

theorem advance_steady (setting : Setting) (scope : ScopeId) (p : Program) (c : Spot) :
    Steady (setting.advance scope p c) :=
  advanceBlock_steady (ensure_steady scope).map (invokeAt_steady setting setting.depth) c p.block

section

variable {setting : Setting} {scope : ScopeId} {p : Program} {c : Spot} {m m' : Memory}
  {loc : Location}

theorem stepBody_ends_iff (hp : loopBinding ∉ p.names) (hm : m.store.Ready scope)
    (hc : c.Rests scope p.block (m.world 0)) (hloc : c.At loc) {r : Except Failure Stepped} :
    (setting.stepBody scope loc p.body).Ends (m.withFrames scope c.frames) r m' ↔
      (∃ mv m₁, (setting.advance scope p c).Ends m (.ok mv) m₁ ∧
        (settle scope loc Spot.path Spot.frames mv).Ends m₁ r m') ∨
      ∃ e, r = .error e ∧ (setting.advance scope p c).Ends m (.error e) m' := by
  rw [← ends_bind_iff (advance_steady setting scope p c) (settle_steady scope loc)]
  refine ends_congr fun polls => ?_
  exact block_stepsAsPlaced (invokeAt_spares setting setting.depth) p.block hp c (m.world polls) loc
    hm hc hloc.index hloc.inner

theorem step_ends_iff (hp : loopBinding ∉ p.names) (hm : m.store.Ready scope)
    (hc : c.Rests scope p.block (m.world 0)) (hloc : c.At loc) {r : Except Failure Stepped} :
    (setting.step scope (.program p) loc).Ends (m.withFrames scope c.frames) r m' ↔
      (∃ mv m₁, (setting.advance scope p c).Ends m (.ok mv) m₁ ∧
        r = .ok ⟨mv.value, mv.location⟩ ∧ m' = m₁.withFrames scope mv.frames) ∨
      ∃ e m₁, (setting.advance scope p c).Ends m (.error e) m₁ ∧
        r = .error e ∧ m' = (m.withFrames scope c.frames).restored scope m₁ := by
  have hbody : Steady (setting.stepBody scope loc p.body) :=
    stepBlock_steady (invokeAt_steady setting setting.depth) scope loc p.block
  have hguarded : Steady (Setting.guarded scope (setting.stepBody scope loc p.body)) :=
    guarded_steady hbody
  rw [step_program hloc.not_done, ends_poll_bind_iff hguarded.map]
  cases r with
  | ok s =>
    rw [ends_map_ok_iff hguarded]
    simp only [ends_guarded_iff hbody, stepBody_ends_iff hp hm hc hloc]
    constructor
    · rintro ⟨s₀, rfl, m₁, ⟨mv, m₂, hmv, hs⟩ | ⟨e, he, -⟩, rfl⟩
      · obtain ⟨hr, hm'⟩ := (ends_settle_iff hloc).mp
          ((ends_map_ok_iff (settle_steady scope loc mv)).mpr ⟨s₀, rfl, hs⟩)
        exact .inl ⟨mv, m₂, hmv, hr, hm'⟩
      · cases he
    · rintro (⟨mv, m₁, hmv, hr, rfl⟩ | ⟨e, m₁, -, hr, -⟩)
      · obtain ⟨s₀, hs₀, hs⟩ := (ends_map_ok_iff (settle_steady scope loc mv)).mp
          ((ends_settle_iff hloc).mpr ⟨rfl, rfl⟩)
        cases hr
        exact ⟨s₀, hs₀, _, .inl ⟨mv, m₁, hmv, hs⟩, rfl⟩
      · cases hr
  | error e =>
    rw [ends_map_error_iff hguarded, ends_guarded_iff hbody]
    simp only [stepBody_ends_iff hp hm hc hloc]
    constructor
    · rintro ⟨m₁, ⟨mv, m₂, hmv, hs⟩ | ⟨e', he, h⟩, rfl⟩
      · obtain ⟨hr, -⟩ := (ends_settle_iff hloc).mp
          ((ends_map_error_iff (settle_steady scope loc mv)).mpr hs)
        cases hr
      · cases he
        exact .inr ⟨e, m₁, h, rfl, rfl⟩
    · rintro (⟨mv, m₁, -, hr, -⟩ | ⟨e', m₁, h, hr, rfl⟩)
      · cases hr
      · cases hr
        exact ⟨m₁, .inr ⟨e, rfl, h⟩, rfl⟩

theorem advance_ends_ok {mv : Moved Spot} (hp : loopBinding ∉ p.names) (hm : m.store.Ready scope)
    (hc : c.Rests scope p.block (m.world 0)) (h : (setting.advance scope p c).Ends m (.ok mv) m') :
    m'.store.Ready scope ∧ mv.Leads (Spot.Rests scope p.block (m'.world 0)) := by
  obtain ⟨used, h⟩ := h
  have h : setting.advance scope p c (m.world used) = .ok mv (m'.world 0) := h 0
  have hinv := invokeAt_spares setting setting.depth
  have hholds := (advanceBlock_holds hinv c p.block hp).ok hm.scope_lt h
  have hc : c.Rests scope p.block (m.world used) := hc
  exact ⟨hholds.ready hm, advanceBlock_rests hinv p.block hp hm.scope_lt hc h⟩

theorem Memory.withFrames_nil (m : Memory) (scope : ScopeId) : m.withFrames scope [] = m := by
  rw [withFrames, Store.withFrames_nil]

theorem LoopCheckpoint.restore_sameBindings (saved : LoopCheckpoint) (scope : ScopeId) (s : Store) :
    s.SameBindings (saved.restore scope s) := by
  rw [restore]
  split
  · exact s.sameBindings_delete_loops scope
  · have hstack (ref : Nat) : s.SameBindings (s.setStack ref saved.frames) :=
      ⟨rfl, fun _ => rfl, fun _ _ _ => rfl, rfl⟩
    exact (hstack _).trans (Store.sameBindings_set_loops _ scope _)
  · exact s.sameBindings_set_loops scope _

theorem stepsOut_of_finishes {n : Nat} {r : Except Failure Value} (hp : loopBinding ∉ p.names)
    (hm : m.store.Ready scope) (hc : c.Rests scope p.block (m.world 0)) (hloc : c.At loc)
    (h : Finishes (setting.advance scope p) n (setting.advance scope p c) m r m') (v : Value) :
    ∃ m'', setting.StepsOut scope (.program p) ⟨v, loc, m.withFrames scope c.frames⟩ r m'' ∧
      m''.written = m'.written ∧ m'.store.SameBindings m''.store := by
  induction n generalizing c m loc v with
  | zero =>
    obtain ⟨f, rfl, h⟩ := h
    have hstep := (step_ends_iff hp hm hc hloc).mpr (.inr ⟨f, m', h, rfl, rfl⟩)
    exact ⟨_, ⟨_, .refl, hloc.not_done, hstep⟩, rfl, LoopCheckpoint.restore_sameBindings _ scope _⟩
  | succ n ih =>
    obtain ⟨mv, m₁, h, hnext⟩ := h
    have hstep := (step_ends_iff hp hm hc hloc).mpr (.inl ⟨mv, m₁, h, rfl, rfl⟩)
    let b : Pause := ⟨mv.value, mv.location, m₁.withFrames scope mv.frames⟩
    have hto : setting.StepTo scope (.program p) ⟨v, loc, m.withFrames scope c.frames⟩ b :=
      ⟨hloc.not_done, hstep⟩
    obtain ⟨hm₁, hrests⟩ := advance_ends_ok hp hm hc h
    cases hmv : mv.next with
    | none =>
      rw [hmv] at hnext
      obtain ⟨-, rfl, rfl⟩ := hnext
      have hb : b = ⟨mv.value, .finished, m'⟩ := by
        simp only [b, Moved.location, Moved.frames, hmv, Memory.withFrames_nil]
      refine ⟨m', ⟨b, .single hto, ?_⟩, rfl, ⟨rfl, fun _ => rfl, fun _ _ _ => rfl, rfl⟩⟩
      rw [hb]
      exact ⟨rfl, rfl, rfl⟩
    | some c' =>
      rw [hmv] at hnext
      have hb : b = ⟨mv.value, 0 :: c'.path, m₁.withFrames scope c'.frames⟩ := by
        simp only [b, Moved.location, Moved.frames, hmv]
      obtain ⟨m'', ⟨b', hreach, hend⟩, hwritten, hsame⟩ :=
        ih hm₁ (hrests c' hmv) c'.at_path hnext mv.value
      exact ⟨m'', ⟨b', .head (hb ▸ hto) hreach, hend⟩, hwritten, hsame⟩

theorem reaches_of_done {n : Node} {a b : Pause} (hdone : a.location.done = true)
    (h : setting.Reaches scope n a b) : a = b := by
  obtain rfl | ⟨a', hto, -⟩ := h.cases_head
  · rfl
  · rw [hto.1] at hdone
    cases hdone

theorem completes_of_stepsOut {r : Except Failure Value} {a b : Pause} {m'' : Memory}
    (hp : loopBinding ∉ p.names) (h : setting.Reaches scope (.program p) a b)
    (hend : setting.EndsAt scope (.program p) b r m'') :
    ∀ c m, c.At a.location → a.memory = m.withFrames scope c.frames → m.store.Ready scope →
      c.Rests scope p.block (m.world 0) →
        ∃ m', Completes (setting.advance scope p) (setting.advance scope p c) m r m' ∧
          m''.written = m'.written ∧ m'.store.SameBindings m''.store := by
  induction h using Relation.ReflTransGen.head_induction_on with
  | refl =>
    intro c m hloc hmem hm hc
    cases r with
    | ok v =>
      -- at a place of the machine there is still something to do
      have hdone := hend.1
      rw [hloc.not_done] at hdone
      cases hdone
    | error f =>
      have hfail := hend.2
      rw [hmem, step_ends_iff hp hm hc hloc] at hfail
      obtain ⟨mv, m₁, -, hr, -⟩ | ⟨e, m₁, h, hr, rfl⟩ := hfail
      · cases hr
      · cases hr
        exact ⟨m₁, ⟨0, f, rfl, h⟩, rfl, LoopCheckpoint.restore_sameBindings _ scope _⟩
  | head hto hreach ih =>
    intro c m hloc hmem hm hc
    have hstep := hto.2
    rw [hmem, step_ends_iff hp hm hc hloc] at hstep
    obtain ⟨mv, m₁, h, hr, hmem'⟩ | ⟨e, m₁, -, hr, -⟩ := hstep
    · simp only [Except.ok.injEq, Stepped.mk.injEq] at hr
      obtain ⟨hvalue, hlocation⟩ := hr
      obtain ⟨hm₁, hrests⟩ := advance_ends_ok hp hm hc h
      cases hmv : mv.next with
      | none =>
        simp only [Moved.location, Moved.frames, hmv, Memory.withFrames_nil] at hlocation hmem'
        -- no step leads on from the end, so the steps have come to it here
        have hdone : Location.done Location.finished = true := rfl
        obtain rfl := reaches_of_done (hlocation ▸ hdone) hreach
        cases r with
        | ok v =>
          obtain ⟨-, rfl, rfl⟩ := hend
          refine ⟨m₁, ⟨1, mv, m₁, h, ?_⟩, congrArg Memory.written hmem', ?_⟩
          · rw [hmv]
            exact ⟨rfl, congrArg Except.ok hvalue, rfl⟩
          · rw [hmem']
            exact ⟨rfl, fun _ => rfl, fun _ _ _ => rfl, rfl⟩
        | error f =>
          have hdone' := hend.1
          rw [hlocation] at hdone'
          cases hdone'
      | some c' =>
        simp only [Moved.location, Moved.frames, hmv] at hlocation hmem'
        obtain ⟨m', ⟨n, hn⟩, hwritten, hsame⟩ :=
          ih c' m₁ (hlocation ▸ c'.at_path) hmem' hm₁ (hrests c' hmv)
        refine ⟨m', ⟨n + 1, mv, m₁, h, ?_⟩, hwritten, hsame⟩
        rw [hmv]
        exact hn
    · cases hr

end

/-- A program is stepped from its start as it is evaluated. The stores to begin with have the same
bindings but for those of loop stacks, whatever these are: none, a stack with frames of other loops,
or no stack at all. Then evaluation comes to a value exactly when steps lead to a location that is
over, and the value is that of the last step; it fails exactly when steps lead to one that fails in
the same way; and else neither of the two ends. The output is the same, and so are all bindings but
those of loop stacks. -/
theorem stepping_agrees_with_evaluation {setting : Setting} {scope : ScopeId} {p : Program}
    {shared : Nat → Prop} {s t : Store} (hhost : setting.host.IgnoresLoops)
    (hnames : loopBinding ∉ p.names) (halike : s.Alike shared t) (hready : t.Ready scope)
    (out : Array Bytes) :
    let start : Pause := ⟨.absent, .start, ⟨t, out⟩⟩
    (∀ r s' out', (setting.evaluate scope (.program p)).Ends ⟨s, out⟩ r ⟨s', out'⟩ →
      ∃ t', setting.StepsOut scope (.program p) start r ⟨t', out'⟩ ∧ s'.SameBindings t') ∧
    (∀ r t' out', setting.StepsOut scope (.program p) start r ⟨t', out'⟩ →
      ∃ s', (setting.evaluate scope (.program p)).Ends ⟨s, out⟩ r ⟨s', out'⟩ ∧
        s'.SameBindings t') ∧
    ((∀ r m', ¬ (setting.evaluate scope (.program p)).Ends ⟨s, out⟩ r m') ↔
      ∀ r m', ¬ setting.StepsOut scope (.program p) start r m') := by
  intro start
  have hpresent : p.block.isMissing = false := rfl
  have hrests : Spot.start.Rests scope p.block (Memory.world ⟨t, out⟩ 0) := Spot.rests_start hpresent
  have hmem : (⟨t, out⟩ : Memory) = Memory.withFrames ⟨t, out⟩ scope Spot.start.frames :=
    (Memory.withFrames_nil _ _).symm
  have hinv : setting.invoke.Indifferent shared := invokeAt_indifferent setting hhost setting.depth
  have hsteady : setting.invoke.Steady := invokeAt_steady setting setting.depth
  have hmeet (r : Except Failure Value) (out' : Array Bytes) :=
    @evalBlock_ends_iff_completes shared setting.host setting.invoke scope hhost hinv hsteady p.block
      hnames s t halike out out' r
  have hforth (r : Except Failure Value) (s' : Store) (out' : Array Bytes)
      (h : (setting.evaluate scope (.program p)).Ends ⟨s, out⟩ r ⟨s', out'⟩) :
      ∃ t', setting.StepsOut scope (.program p) start r ⟨t', out'⟩ ∧ s'.SameBindings t' := by
    obtain ⟨t', ⟨n, hn⟩, hR⟩ := (hmeet r out').1 s' h
    obtain ⟨⟨t'', out''⟩, hsteps, hwritten, hsame⟩ :=
      stepsOut_of_finishes hnames hready hrests Spot.at_start hn .absent
    cases hwritten
    rw [← hmem] at hsteps
    exact ⟨t'', hsteps, hR.toSameBindings.trans hsame⟩
  have hback (r : Except Failure Value) (t' : Store) (out' : Array Bytes)
      (h : setting.StepsOut scope (.program p) start r ⟨t', out'⟩) :
      ∃ s', (setting.evaluate scope (.program p)).Ends ⟨s, out⟩ r ⟨s', out'⟩ ∧
        s'.SameBindings t' := by
    obtain ⟨b, hreach, hend⟩ := h
    obtain ⟨⟨t₁, out₁⟩, hcompletes, hwritten, hsame⟩ :=
      completes_of_stepsOut hnames hreach hend .start ⟨t, out⟩ Spot.at_start hmem hready hrests
    cases hwritten
    obtain ⟨s', hs', hR⟩ := (hmeet r out').2 t₁ hcompletes
    exact ⟨s', hs', hR.toSameBindings.trans hsame⟩
  refine ⟨hforth, hback, fun h r m' hsteps => ?_, fun h r m' hends => ?_⟩
  · obtain ⟨s', hs', -⟩ := hback r m'.store m'.written hsteps
    exact h r _ hs'
  · obtain ⟨t', ht', -⟩ := hforth r m'.store m'.written hends
    exact h r _ ht'

/-- Two nested loops that count to four, stepped in a scope where the frame of another loop is left
and evaluated in one that has no loop stack. -/
theorem stepping_agrees_with_evaluation_nested :
    let x : Symbol := ⟨.nowhere, [120]⟩
    let count : Stmt := .set .nowhere (some x) (.call .nowhere
      (.symbol ⟨.nowhere, Primitive.add.name⟩) [.symbol x, .number .nowhere 1])
    let twice (s : Stmt) : Stmt := .times .nowhere (.number .nowhere 2) (.of .nowhere [s])
    let p : Program := ⟨.nowhere, [twice (twice count)]⟩
    let s := Store.empty.addRoot (.ofList [(Primitive.add.name, .native Primitive.add.native),
      (x.name, .integer 0)])
    let t := (s.addStack [.endless]).set 0 loopBinding (.loops 0)
    ∃ t', Setting.StepsOut ⟨primitives, 5⟩ 0 (.program p) ⟨.absent, .start, ⟨t, #[]⟩⟩
        (.ok (.integer 4)) ⟨t', #[]⟩ ∧ t'.lookup? 0 x.name = some (.integer 4) := by
  intro x count twice p s t
  have hnames : loopBinding ∉ p.names := by decide
  have hplain (id : ScopeId) (name : Name) (v : Value) (_ : name ≠ loopBinding)
      (hv : s.lookup? id name = some v) : v.Plain fun _ => False := by
    cases id with
    | zero =>
      have hmem := Bindings.mem_of_get?_ofList hv
      simp only [List.mem_cons, Prod.mk.injEq, List.not_mem_nil, or_false] at hmem
      obtain ⟨-, rfl⟩ | ⟨-, rfl⟩ := hmem <;> trivial
    | succ id => cases hv
  have hadd : s.SameBindings (s.addStack [.endless]) := ⟨rfl, fun _ => rfl, fun _ _ _ => rfl, rfl⟩
  have halike : s.Alike (fun _ => False) t :=
    { hadd.trans (Store.sameBindings_set_loops _ 0 _) with stack := nofun, plain := hplain }
  have hready : t.Ready 0 := ⟨by decide, fun ref href => by cases href; decide⟩
  have hrun : Setting.evaluate ⟨primitives, 5⟩ 0 (.program p) (Memory.world ⟨s, #[]⟩ 11) =
      reply (.ok (.integer 4)) (Memory.world ⟨s.set 0 x.name (.integer 4), #[]⟩ (0 + 1)) := by
    dsimp only [p, twice, count, s, x]
    cbv
  have hsteady : Steady (Setting.evaluate ⟨primitives, 5⟩ 0 (.program p)) :=
    evalBody_steady (invokeAt_steady _ _) 0 .absent p.body
  obtain ⟨used, -, hends⟩ := (hsteady _ _).endsIn hrun
  have hignores : primitives.IgnoresLoops := primitivesOn_ignoresLoops .unfailing
  obtain ⟨t', hsteps, hsame⟩ :=
    (stepping_agrees_with_evaluation hignores hnames halike hready #[]).1 _ _ _ ⟨used, hends⟩
  refine ⟨t', hsteps, ?_⟩
  rw [hsame.lookup 0 x.name (by decide)]
  rfl

end Stepwise
