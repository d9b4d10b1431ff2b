import Stepwise.Proofs.Interruption
import Stepwise.Proofs.Sandbox
import Stepwise.Proofs.Unison

/-! Suspending a run changes nothing in the end. However a session is driven to the end of its
program, by single steps, by runs with budgets and by paused runs, canceled at any poll and taken up
again, it comes to what one run would have come to. A step that is broken off leaves scopes, loop stacks
and closures behind that nobody refers to, which is why the two sessions are the same up to a link.

The writer may fail, and then a step is broken off at a print and taken up again just so. But a run ends
where one of its own prints is refused, and that is the one way for it to come to something else. -/

namespace Stepwise

open Execution

theorem step_steady (setting : Setting) (scope : ScopeId) (n : Node) (loc : Location) :
    Steady (setting.step scope n loc) := by
  rw [Setting.step_eq]
  split
  · exact steady_pure _
  refine steady_poll.bind fun _ => ?_
  cases n.steppable with
  | error d => exact Instant.steady fun m => ⟨.error _, m, fun _ => rfl⟩
  | ok body =>
    have hbody : Steady (setting.stepBody scope loc body) :=
      stepBlock_steady (invokeAt_steady setting setting.depth) scope loc (.of .nowhere body)
    refine (guarded_steady hbody).bind fun s => ?_
    split
    · exact steady_pure _
    · exact steady_pure _

/-- What is linked stays linked when one side goes on and everything it had is preserved. -/
theorem Store.Linked.preserved {k k' : Link} {s t s' t' : Store} (h : s.Linked k t) (hle : k ≤ k')
    (h' : s'.Linked k' t') (hp : t.Preserved t') : s.Linked k t' where
  scopes := by
    intro i j hij
    obtain ⟨a, b, ha, hb, hab⟩ := h.scopes hij
    exact ⟨a, b, ha, (hp.1 j (h.scope_lt hij).2).trans hb, hab⟩
  loops := by
    intro i j hij
    obtain ⟨hi, -, hstack⟩ := h.loops hij
    exact ⟨hi, (h'.loops (Link.stack_le hle hij)).2.1, (hp.2 j).trans hstack⟩
  closures hij := ⟨(h.closures hij).1, (h'.closures (Link.closure_le hle hij)).2⟩
  scope_unique := h.scope_unique
  stack_unique := h.stack_unique
  closure_unique := h.closure_unique

namespace Session

variable {l : Live} {p : Program}

theorem step_of_not_done (hp : l.session.program = .ok p) (hd : l.done = false) :
    step l =
      match l.session.options.setting.step l.session.scope (.program p) l.session.location l.world with
      | .ok s w => .ok s.value ⟨l.session.advance w.store s, w⟩
      | .error f w => .error (.failure f) ⟨l.session.stay f, w⟩ := by
  simp only [step, hp, hd]
  rfl

theorem step_of_no_program {stop : Stop} (hp : l.session.program = .error stop) :
    step l = .error stop l := by
  simp only [step, hp]

theorem poll_eq_ok {l' : Live} {u : Unit} (h : poll l = .ok u l') :
    l' = l.withPolls l'.world.polls ∧ l'.world.polls < l.world.polls := by
  obtain ⟨session, store, written, polls⟩ := l
  cases polls with
  | zero => cases h
  | succ polls =>
    cases h
    exact ⟨rfl, Nat.lt_succ_self polls⟩

theorem poll_eq_error {l' : Live} {stop : Stop} (h : poll l = .error stop l') :
    l' = l ∧ stop = .failure .canceled := by
  obtain ⟨session, store, written, polls⟩ := l
  cases polls with
  | zero =>
    cases h
    exact ⟨rfl, rfl⟩
  | succ polls => cases h

theorem advance_eq (s : Session) (store : Store) (r : Stepped) :
    ∃ trace, s.advance store r = { s with location := r.next, result := r.value, trace } :=
  traceLine_eq _ _

end Session

namespace Live

/-- The sessions run the same program and stand at the same place of it, and all they refer to is
linked. -/
structure Linked (k : Link) (l l' : Live) : Prop where
  options : l'.session.options = l.session.options
  loaded : l'.session.loaded = l.session.loaded
  scope : k.scope l.session.scope l'.session.scope
  location : l'.session.location = l.session.location
  result : l.session.result.Linked k l'.session.result
  store : l.world.store.Linked k l'.world.store

namespace Linked

variable {k : Link} {l l' : Live}

theorem program_eq (h : l.Linked k l') : l'.session.program = l.session.program := by
  rw [Session.program, Session.program, h.loaded]

theorem done_eq (h : l.Linked k l') : l'.done = l.done := congrArg Location.done h.location

theorem frames_eq (h : l.Linked k l') : l'.frames = l.frames := h.store.frames_eq h.scope

end Linked

/-- The step succeeds after a number of polls; those granted beyond them are left over. -/
def StepsIn (used : Nat) (l l' : Live) : Prop :=
  ∃ v, ∀ spare, Session.step (l.withPolls (used + spare)) = .ok v (l'.withPolls spare)

theorem stepsIn_of_endsIn {l : Live} {p : Program} (hp : l.session.program = .ok p)
    (hd : l.done = false) {used : Nat} {r : Stepped} {m' : Memory}
    (h : EndsIn used (l.session.options.setting.step l.session.scope (.program p) l.session.location)
      ⟨l.world.store, l.world.written⟩ (.ok r) m') :
    l.StepsIn used ⟨l.session.advance m'.store r, m'.world 0⟩ := by
  refine ⟨r.value, fun spare => ?_⟩
  have hstep := @Session.step_of_not_done (l.withPolls (used + spare)) p hp hd
  have hrun := h spare
  simp only [Memory.world, reply] at hrun
  simp only [withPolls] at hstep ⊢
  rw [hstep, hrun]
  rfl

/-- Where a session comes to in a number of steps, and the polls that a run there takes. -/
inductive Path (start : Live) : (steps used : Nat) → Live → Prop
  | here : Path start 0 0 start
  | step {steps used more : Nat} {l l' : Live} : Path start steps used l → l.done = false →
      l.StepsIn more l' → Path start (steps + 1) (used + (more + 1)) l'

theorem Path.runFrom_eq {start l : Live} {n used : Nat} (h : start.Path n used l) {budget : Int}
    (hbudget : budget ≤ 0) (steps : Nat) {rounds : Nat} (spare : Nat) (hrounds : used + spare < rounds) :
    ∃ rounds', spare < rounds' ∧ runFrom budget rounds steps (start.withPolls (used + spare)) =
      runFrom budget rounds' (steps + n) (l.withPolls spare) := by
  induction h generalizing spare with
  | here => exact ⟨rounds, by omega, by rw [Nat.zero_add]; rfl⟩
  | @step n used more l l' _ hdone hstep ih =>
    obtain ⟨rounds', hlt, hrun⟩ := ih (more + 1 + spare) (by omega)
    obtain ⟨v, hstep⟩ := hstep
    obtain ⟨rounds', rfl⟩ : ∃ r, rounds' = r + 1 := ⟨rounds' - 1, by omega⟩
    have hround : (do Session.poll; Session.step : Running Value) (l.withPolls (more + 1 + spare)) =
        .ok v (l'.withPolls spare) := by
      rw [← hstep spare, Nat.add_right_comm]
      rfl
    have hbusy : exhausted budget (steps + n) = false := by
      simp [exhausted, Int.not_lt.mpr hbudget]
    have hdone : (l.withPolls (more + 1 + spare)).done = false := hdone
    refine ⟨rounds', by omega, ?_⟩
    rw [Nat.add_assoc, hrun, runFrom, hdone, hbusy, hround]
    rfl

/-- A run along a path to the end of the program, with polls enough, is over there. -/
theorem Path.run_eq {start l : Live} {n used : Nat} (h : start.Path n used l) (hdone : l.done = true)
    {budget : Int} (hbudget : budget ≤ 0) {polls : Nat} (hpolls : used ≤ polls) :
    (start.withPolls polls).run budget = (⟨n, none⟩, l.withPolls (polls - used)) := by
  obtain ⟨spare, rfl⟩ : ∃ spare, polls = used + spare := ⟨polls - used, by omega⟩
  obtain ⟨rounds, hlt, hrun⟩ := h.runFrom_eq hbudget 0 spare (Nat.lt_succ_self _)
  obtain ⟨rounds, rfl⟩ : ∃ r, rounds = r + 1 := ⟨rounds - 1, by omega⟩
  have hdone : (l.withPolls spare).done = true := hdone
  rw [run]
  change runFrom budget (used + spare).succ 0 _ = _
  rw [hrun, runFrom, hdone, Nat.zero_add, Nat.add_sub_cancel_left]
  rfl

/-- A run that nobody stops ends where the writer refuses one of its own prints. -/
def Breaks (start : Live) (writer : Writer) : Prop :=
  ∃ enough, ∀ polls budget, enough ≤ polls → budget ≤ 0 →
    let outcome := (start.withPolls polls).run budget
    ∃ f, outcome.1.stop = some (.failure f) ∧ writer.Refuses f outcome.2.world.written

/-- So it is where a path leads to a step that is refused. -/
theorem Path.breaks {start l : Live} {n used : Nat} (h : start.Path n used l) {p : Program}
    (hp : l.session.program = .ok p) (hdone : l.done = false) {writer : Writer} {f : Failure} {m : Memory}
    (hrefused : writer.Refuses f m.written)
    (hends : Ends (l.session.options.setting.step l.session.scope (.program p) l.session.location)
      ⟨l.world.store, l.world.written⟩ (.error f) m) : start.Breaks writer := by
  obtain ⟨more, hends⟩ := hends
  refine ⟨used + (more + 1), fun polls budget hpolls hbudget => ?_⟩
  obtain ⟨spare, rfl⟩ : ∃ spare, polls = used + (more + spare + 1) := ⟨polls - (used + (more + 1)), by omega⟩
  obtain ⟨rounds, hlt, hrun⟩ := h.runFrom_eq hbudget 0 (more + spare + 1) (Nat.lt_succ_self _)
  obtain ⟨rounds, rfl⟩ : ∃ r, rounds = r + 1 := ⟨rounds - 1, by omega⟩
  have hround : (do Session.poll; Session.step : Running Value) (l.withPolls (more + spare + 1)) =
      .error (.failure f) ⟨l.session.stay f, m.world spare⟩ := by
    change Session.step (l.withPolls (more + spare)) = _
    have hstep := @Session.step_of_not_done (l.withPolls (more + spare)) p hp hdone
    have hfails := hends spare
    simp only [Memory.world, reply] at hfails
    simp only [withPolls] at hstep ⊢
    rw [hstep, hfails]
    rfl
  have hbusy : exhausted budget (0 + n) = false := by
    simp [exhausted, Int.not_lt.mpr hbudget]
  have hdone : (l.withPolls (more + spare + 1)).done = false := hdone
  have hend : (start.withPolls (used + (more + spare + 1))).run budget =
      (⟨0 + n, some (.failure f)⟩, ⟨l.session.stay f, m.world spare⟩) := by
    rw [run]
    change runFrom budget (used + (more + spare + 1)).succ 0 _ = _
    rw [hrun, runFrom, hdone, hbusy, hround]
    rfl
  rw [hend]
  exact ⟨f, rfl, hrefused⟩

/-- Where an uninterrupted run comes to in so many steps there is a session linked to this one; if
nothing was `cut`, it has written the same. -/
structure Tracks (start : Live) (k₀ : Link) (steps : Nat) (cut : Bool) (l : Live) : Prop where
  options : l.session.options = start.session.options
  clean : ∃ used clean k, start.Path steps used clean ∧ k₀ ≤ k ∧ clean.Linked k l ∧
    (cut = false → l.world.written = clean.world.written)

namespace Tracks

variable {start l l' : Live} {k₀ : Link} {steps : Nat} {cut : Bool}

theorem refl (h : start.Linked k₀ start) : start.Tracks k₀ 0 false start :=
  ⟨rfl, 0, start, k₀, .here, le_rfl, h, fun _ => rfl⟩

theorem touch (h : start.Tracks k₀ steps cut l) (trace : Array Bytes) (polls : Nat) :
    start.Tracks k₀ steps cut ⟨{ l.session with trace }, { l.world with polls }⟩ := by
  obtain ⟨hoptions, used, clean, k, hpath, hle, hlink, hwritten⟩ := h
  exact ⟨hoptions, used, clean, k, hpath, hle,
    ⟨hlink.options, hlink.loaded, hlink.scope, hlink.location, hlink.result, hlink.store⟩, hwritten⟩

theorem withPolls (h : start.Tracks k₀ steps cut l) (polls : Nat) :
    start.Tracks k₀ steps cut (l.withPolls polls) :=
  h.touch l.session.trace polls

theorem mono (h : start.Tracks k₀ steps cut l) {cut' : Bool} (hcut : cut' = false → cut = false) :
    start.Tracks k₀ steps cut' l := by
  obtain ⟨hoptions, used, clean, k, hpath, hle, hlink, hwritten⟩ := h
  exact ⟨hoptions, used, clean, k, hpath, hle, hlink, fun h => hwritten (hcut h)⟩

section

variable {writer : Writer} {depth : Nat} (h : start.Tracks k₀ steps cut l)
  (hsetting : start.session.options.setting = ⟨primitivesOn writer, depth⟩)

include h hsetting

theorem step_error {stop : Stop} (hstep : Session.step l = .error stop l') :
    start.Tracks k₀ steps (cut || 0 < l.world.polls) l' := by
  obtain ⟨rfl, -⟩ | ⟨p, f, w, trace, hp, hdone, hrun, -, rfl⟩ := Session.step_eq_error hstep
  · exact h.mono fun hcut => (Bool.or_eq_false_iff.mp hcut).1
  obtain ⟨hoptions, used, clean, k, hpath, hle, hlink, hwritten⟩ := h
  have hhost : l.session.options.setting.host.Respects := by
    rw [hoptions, hsetting]
    exact primitivesOn_respects writer
  have hstore : clean.world.store.Linked k w.store := by
    -- the clean side would fail as well, if it had written the same
    have hboth := step_unison hhost hlink.scope (.program p) l.session.location _ _
      l.world.written l.world.written l.world.polls (.refl _ _) hlink.store
    have hrun' : l.session.options.setting.step l.session.scope (.program p) l.session.location
      ⟨l.world.store, l.world.written, l.world.polls⟩ = .error f w := hrun
    rw [hrun'] at hboth
    generalize l.session.options.setting.step clean.session.scope _ _ _ = result at hboth
    cases hboth with
    | error honward hst =>
      exact hlink.store.preserved honward.le hst (step_error (hlink.store.scope_lt hlink.scope).2 hrun)
  refine ⟨hoptions, used, clean, k, hpath, hle,
    ⟨hlink.options, hlink.loaded, hlink.scope, hlink.location, hlink.result, hstore⟩, fun hcut => ?_⟩
  obtain ⟨hcut, hpolls⟩ := Bool.or_eq_false_iff.mp hcut
  -- without a poll the step does not even start
  have hpolls : l.world.polls = 0 := by simpa using hpolls
  have hw : w = l.world := by
    have hloc : ¬ l.session.location.done = true := by simpa [Live.done] using hdone
    rw [Setting.step_eq, if_neg hloc] at hrun
    obtain ⟨session, store, written, polls⟩ := l
    obtain rfl : polls = 0 := hpolls
    cases hrun
    rfl
  rw [hw, hwritten hcut]

end

end Tracks

/-- Whether a run is broken off inside a statement, canceled or by a print that is refused: a step fails that
its first poll let go on. -/
def runCut (budget : Int) : (rounds : Nat) → (steps : Nat) → Live → Bool
  | 0, _, _ => false
  | rounds + 1, steps, l =>
    if l.done || exhausted budget steps then false
    else
      match Session.poll l with
      | .error _ _ => false
      | .ok _ l =>
        match Session.step l with
        | .error _ _ => 0 < l.world.polls
        | .ok _ l => runCut budget rounds (steps + 1) l

/-- A pause between two steps. It may show the trace, and meanwhile polls may be withdrawn. -/
structure Pause where
  wait : Live → Live
  waits : ∀ l, ∃ trace polls, wait l = ⟨{ l.session with trace }, { l.world with polls }⟩

/-- Whether a paused run is broken off inside a statement. -/
def pausedCut (pause : Pause) (budget : Int) : (rounds : Nat) → (steps : Nat) → Live → Bool
  | 0, _, _ => false
  | rounds + 1, steps, l =>
    if l.done || exhausted budget steps then false
    else
      match Session.step l with
      | .error _ _ => 0 < l.world.polls
      | .ok _ l =>
        match Session.poll (pause.wait l) with
        | .error _ _ => false
        | .ok _ l => pausedCut pause budget rounds (steps + 1) l

section

variable {start l : Live} {k₀ : Link} {cut : Bool} {writer : Writer} {depth : Nat}
  (hsetting : start.session.options.setting = ⟨primitivesOn writer, depth⟩) (hwhole : ¬ start.Breaks writer)

include hsetting hwhole

end

/-- What somebody who drives a session may call. -/
inductive Call where
  | step
  | run (budget : Int)
  | paused (pause : Pause) (budget : Int)
  | check

/-- What has come of some calls: the steps they took, the session after them, and whether one of them
was broken off inside a statement. -/
structure Progress where
  steps : Nat
  live : Live
  cut : Bool

def obey (l : Live) : Call → Progress
  | .step =>
    match Session.step l with
    -- at the end of the program there is no step to take
    | .ok _ l' => ⟨if l.done then 0 else 1, l', false⟩
    | .error _ l' => ⟨0, l', 0 < l.world.polls⟩
  | .run budget =>
    let outcome := l.run budget
    ⟨outcome.1.steps, outcome.2, runCut budget (l.world.polls + 1) 0 l⟩
  | .paused pause budget =>
    let outcome := Id.run (l.runPaused pause.wait budget)
    ⟨outcome.1.steps, outcome.2, pausedCut pause budget (l.world.polls + 1) 0 l⟩
  | .check => ⟨0, Running.after Session.check l, false⟩

/-- One more call, with the polls granted to it. -/
def Progress.next (p : Progress) (polls : Nat) (call : Call) : Progress :=
  let q := (p.live.withPolls polls).obey call
  ⟨p.steps + q.steps, q.live, p.cut || q.cut⟩

/-- Calls one after the other, each with the polls granted to it. -/
def follow (l : Live) (calls : List (Nat × Call)) : Progress :=
  calls.foldl (fun p call => p.next call.1 call.2) ⟨0, l, false⟩

section

variable {start : Live} {k₀ : Link} {writer : Writer} {depth : Nat}
  (hsetting : start.session.options.setting = ⟨primitivesOn writer, depth⟩) (hwhole : ¬ start.Breaks writer)

include hsetting hwhole

end

end Live

end Stepwise
