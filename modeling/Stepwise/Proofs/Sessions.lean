import Mathlib
import Stepwise.Debugger
import Stepwise.Proofs.Coherence

/-! What can be done with a session, and what all of it leaves true: the location is a place in the
program, and the frames on the loop stack are those of the loops around it. -/

namespace Stepwise

open Execution

/-- The session that something done leaves behind, whether it went well or not. -/
def Running.after {α : Type} (x : Running α) (l : Live) : Live :=
  match x l with
  | .ok _ l => l
  | .error _ l => l

def Stop.isStale : Stop → Bool
  | .failure f => f.isStale
  | .noProgram | .outOfSteps => false

namespace Live

/-- Runs code in the scope of the program; the program itself stays where it is. -/
def prompt (setting : Setting) (code : Bytes) (l : Live) : Live :=
  match Program.read code with
  | .error _ => l
  | .ok p => { l with world := (setting.evaluate l.session.scope (.program p)).after l.world }

/-- The prompt of the debugger does this and writes a line. -/
theorem debugger_evaluate (code : Bytes) (d : Debugger) :
    ∃ line, d.evaluate code = Debugger.say line ⟨d.target, d.live.prompt Target.setting code⟩ := by
  obtain ⟨target, session, world⟩ := d
  rw [Debugger.evaluate, prompt]
  cases Program.read code with
  | error diagnostic => exact ⟨_, rfl⟩
  | ok p =>
    dsimp only
    cases he : Target.setting.evaluate session.scope (.program p) world with
    | ok v world' =>
      rw [after_ok he]
      exact ⟨_, rfl⟩
    | error f world' =>
      rw [after_error he]
      exact ⟨_, rfl⟩

inductive Action where
  | load (text : Bytes)
  | step
  | run (budget : Int)
  | check
  | evaluate
  | reset
  | prompt (setting : Setting) (code : Bytes)

def perform (l : Live) : Action → Live
  | .load text => l.load text
  | .step => Running.after Session.step l
  | .run budget => (l.run budget).2
  | .check => Running.after Session.check l
  | .evaluate => Running.after Session.evaluate l
  | .reset => l.reset
  | .prompt setting code => l.prompt setting code

/-- Something is done, and canceled after so many polls. -/
def Acts (l l' : Live) : Prop := ∃ polls action, l' = (l.withPolls polls).perform action

abbrev Reaches := Relation.ReflTransGen Acts

/-- What is true of a session with such options at all times. -/
structure Kept (o : SessionOptions) (l : Live) : Prop where
  options : l.session.options = o
  loaded : ∀ d, l.session.loaded = some d → d.tree = Program.read d.text
  ready : l.world.store.Ready l.session.scope
  place : (l.done = true ∨ l.session.location = .start) ∧ l.frames = [] ∨
    ∃ (p : Program) (c : Spot), l.session.program = .ok p ∧ p.body ≠ [] ∧
      l.session.location = 0 :: c.path ∧ c.Matches p l.session.scope l.world.store

end Live

namespace Session

variable {s : Session} {l l' : Live}

theorem program_proper {p : Program} (h : ∀ d, s.loaded = some d → d.tree = Program.read d.text)
    (hp : s.program = .ok p) : p.Proper := by
  rw [program] at hp
  split at hp
  · cases hp
  · next loaded hloaded =>
    rw [h loaded hloaded] at hp
    split at hp
    · next hread =>
      cases hp
      exact read_proper hread
    · cases hp

theorem not_stale_of_program_error {stop : Stop}
    (h : ∀ d, s.loaded = some d → d.tree = Program.read d.text)
    (hp : s.program = .error stop) : stop.isStale = false := by
  rw [program] at hp
  split at hp
  · cases hp
    rfl
  · next loaded hloaded =>
    rw [h loaded hloaded] at hp
    split at hp
    · cases hp
    · next d hread =>
      cases hp
      have hkind := read_error_kind hread
      cases hstale : d.cause.isStale with
      | false => simpa [Stop.isStale, Failure.isStale, Failure.diagnostic?] using hstale
      | true =>
        have hkind' := Cause.kind_of_isStale hstale
        rw [Diagnostic.kind, hkind'] at hkind
        cases hkind

theorem step_eq_ok {v : Value} (h : step l = .ok v l') :
    l' = l ∨ ∃ p s w trace, l.session.program = .ok p ∧ l.done = false ∧
      l.session.options.setting.step l.session.scope (.program p) l.session.location l.world =
        .ok s w ∧
      l' = ⟨{ l.session with location := s.next, result := s.value, trace }, w⟩ := by
  rw [step] at h
  split at h
  · cases h
  next p hp =>
  split at h
  · cases h
    exact .inl rfl
  next hd =>
  dsimp only at h
  split at h
  · next s w hstep =>
    cases h
    obtain ⟨trace, htrace⟩ := traceLine_eq { l.session with location := s.next, result := s.value }
      (l.session.location.text ++ utf8 " -> " ++ s.next.text ++ utf8 " = " ++ w.store.text s.value
        ++ [10])
    exact .inr ⟨p, s, w, trace, hp, by simpa using hd, hstep, by rw [advance, htrace]⟩
  · cases h

end Session

namespace Store

variable {scope : ScopeId} {s : Store}

theorem lookup?_clearLoops (s : Store) (scope : ScopeId) :
    (s.clearLoops scope).lookup? scope loopBinding = none := by
  simp only [clearLoops, lookup?, bindings, getElem?_delete, if_pos]
  cases s.scopes[scope]? with
  | none => rfl
  | some own => exact Bindings.get?_erase_self own.bindings loopBinding

theorem loops?_of_unbound (h : s.lookup? scope loopBinding = none) : s.loops? scope = none := by
  simp only [loops?, h]

theorem ready_of_no_loops (hscope : scope < s.scopes.size) (h : s.loops? scope = none) :
    s.Ready scope ∧ s.frames scope = [] := by
  refine ⟨⟨hscope, fun ref href => ?_⟩, by simp only [frames, h]⟩
  rw [h] at href
  cases href

theorem Ready.clearLoops (hs : s.Ready scope) :
    (s.clearLoops scope).Ready scope ∧ (s.clearLoops scope).frames scope = [] :=
  ready_of_no_loops (by simpa [Store.clearLoops, delete] using hs.scope_lt)
    (loops?_of_unbound (lookup?_clearLoops s scope))

end Store

/-- No scope of the session starts with a loop stack. -/
def SessionOptions.SeedsNoLoops (o : SessionOptions) : Prop :=
  ∀ ref, (loopBinding, .loops ref) ∉ o.seeds.entries

theorem SessionOptions.seedsNoLoops_of_unbound {o : SessionOptions}
    (ho : o.seeds.get? loopBinding = none) : o.SeedsNoLoops := by
  intro ref hmem
  have hne := List.lookup_eq_none_iff.mp ho _ hmem
  simp at hne

theorem SessionOptions.seedsNoLoops_of_scalar {o : SessionOptions}
    (ho : ∀ entry ∈ o.seeds.entries, entry.2.isScalar) : o.SeedsNoLoops := by
  intro ref hmem
  cases ho _ hmem

theorem SessionOptions.loops?_addScope {o : SessionOptions} (ho : o.SeedsNoLoops) (s : Store) :
    (o.addScope s).loops? s.nextScope = none := by
  rw [Option.eq_none_iff_forall_not_mem]
  intro ref href
  have hv := Store.loops?_eq_some_iff.mp href
  rw [addScope, Store.lookup?_extend, Store.nextScope, if_pos rfl] at hv
  obtain ⟨⟨name, v⟩, hmem, heq⟩ := List.mem_map.mp (Bindings.mem_of_get?_ofList hv)
  obtain ⟨rfl, hnull⟩ := Prod.mk.inj heq
  have hloops : v = .loops ref := by
    cases v with
    | absent => cases hnull
    | _ => exact hnull
  exact ho ref (hloops ▸ List.mem_mergeSort.mp hmem)

theorem SessionOptions.addScope_ready {o : SessionOptions} (ho : o.SeedsNoLoops) (s : Store) :
    (o.addScope s).Ready s.nextScope ∧ (o.addScope s).frames s.nextScope = [] :=
  Store.ready_of_no_loops (by simp [addScope, Store.extend, Store.nextScope]) (loops?_addScope ho s)

theorem evaluate_holds (setting : Setting) (scope : ScopeId) {p : Program} (hp : p.Proper) :
    Holds scope (setting.evaluate scope (.program p)) :=
  evalBody_holds (invokeAt_spares setting setting.depth) .absent p.body hp.not_mem_names

namespace Live

variable {o : SessionOptions} {l : Live}

namespace Kept

theorem rewound {session : Session} {w : World} (hoptions : session.options = o)
    (hloaded : ∀ d, session.loaded = some d → d.tree = Program.read d.text)
    (hlocation : session.location.done = true ∨ session.location = .start)
    (hstore : w.store.Ready session.scope ∧ w.store.frames session.scope = []) :
    Kept o ⟨session, w⟩ :=
  ⟨hoptions, hloaded, hstore.1, .inl ⟨hlocation, hstore.2⟩⟩

theorem withPolls (h : l.Kept o) (polls : Nat) : (l.withPolls polls).Kept o :=
  ⟨h.options, h.loaded, h.ready, h.place⟩

theorem world (h : l.Kept o) {w : World} (hready : w.store.Ready l.session.scope)
    (hframes : w.store.frames l.session.scope = l.frames) (trace : Array Bytes) :
    Kept o ⟨{ l.session with trace }, w⟩ := by
  refine ⟨h.options, h.loaded, hready, ?_⟩
  obtain ⟨hlocation, hnil⟩ | ⟨p, c, hp, hne, hlocation, hc⟩ := h.place
  · exact .inl ⟨hlocation, hframes.trans hnil⟩
  · exact .inr ⟨p, c, hp, hne, hlocation, hready, hc.fits, hframes.trans hc.frames⟩

theorem spot (h : l.Kept o) {p : Program} (hp : l.session.program = .ok p) (hd : l.done = false) :
    ∃ c : Spot, c.At l.session.location ∧ c.Matches p l.session.scope l.world.store := by
  obtain ⟨hdone | hstart, hframes⟩ | ⟨p', c, hp', -, hlocation, hc⟩ := h.place
  · rw [hd] at hdone
    cases hdone
  · exact ⟨.start, hstart ▸ Spot.at_start, h.ready, Spot.fits_start rfl, hframes⟩
  · rw [hp] at hp'
    cases hp'
    exact ⟨c, hlocation ▸ c.at_path, hc⟩

end Kept

theorem start_kept (ho : o.SeedsNoLoops) (w : World) : (o.start w).Kept o := by
  have hloaded (d : Loaded) (hd : none = some d) : d.tree = Program.read d.text := by cases hd
  exact .rewound rfl hloaded (.inr rfl) (SessionOptions.addScope_ready ho w.store)

theorem load_kept (h : l.Kept o) (text : Bytes) : (l.load text).Kept o := by
  have hloaded (d : Loaded) (hd : some ⟨text, Program.read text⟩ = some d) :
      d.tree = Program.read d.text := by
    obtain rfl := Option.some.inj hd
    rfl
  exact .rewound h.options hloaded (.inr rfl) h.ready.clearLoops

theorem reset_kept (ho : o.SeedsNoLoops) (h : l.Kept o) : l.reset.Kept o := by
  rw [reset]
  split
  · refine .rewound h.options h.loaded (.inr rfl) ?_
    rw [h.options]
    exact SessionOptions.addScope_ready ho l.world.store
  · exact .rewound h.options h.loaded (.inr rfl) h.ready.clearLoops
  · exact .rewound h.options h.loaded (.inr rfl) h.ready.clearLoops

theorem prompt_kept (h : l.Kept o) (setting : Setting) (code : Bytes) :
    (l.prompt setting code).Kept o := by
  rw [prompt]
  split
  · exact h
  · next p hread =>
    have hholds := evaluate_holds setting l.session.scope (read_proper hread) l.world h.ready.scope_lt
    exact h.world (hholds.ready h.ready) hholds.frames l.session.trace

theorem Kept.blames {l' : Live} {stop : Stop} (h : l.Kept o)
    (hstep : Session.step l = .error stop l') (hstale : stop.isStale = true) :
    o.setting.host.RepliesStale := by
  obtain ⟨-, hp⟩ | ⟨p, f, w, trace, hp, hd, hrun, rfl, -⟩ := Session.step_eq_error hstep
  · rw [Session.not_stale_of_program_error h.loaded hp] at hstale
    cases hstale
  · obtain ⟨c, hloc, hc⟩ := h.spot hp hd
    rw [h.options] at hrun
    exact (step_error_matches (Session.program_proper h.loaded hp) hc hloc hrun).2 hstale

end Live

namespace Running

variable {α β : Type} {I : Live → Prop}

/-- Whatever comes of it, the session it leaves is as it should be. -/
def Keeps (I : Live → Prop) (x : Running α) : Prop :=
  ∀ l : Live, I l → (∀ a l', x l = .ok a l' → I l') ∧ ∀ stop l', x l = .error stop l' → I l'

theorem Keeps.bind {x : Running α} {f : α → Running β} (hx : Keeps I x) (hf : ∀ a, Keeps I (f a)) :
    Keeps I (x >>= f) := by
  intro l h
  cases he : x l with
  | ok a l₁ =>
    rw [bind_ok he]
    exact hf a l₁ ((hx l h).1 a l₁ he)
  | error stop l₁ =>
    rw [bind_error he]
    constructor
    · rintro a l' ⟨⟩
    · rintro _ _ ⟨⟩
      exact (hx l h).2 stop l₁ he

theorem Keeps.after {x : Running α} (hx : Keeps I x) {l : Live} (h : I l) : I (Running.after x l) := by
  rw [Running.after]
  split
  · next he => exact (hx l h).1 _ _ he
  · next he => exact (hx l h).2 _ _ he

end Running

open Running

theorem step_keeps (o : SessionOptions) : Keeps (Live.Kept o) Session.step := by
  intro l h
  constructor
  · intro v l' hstep
    obtain rfl | ⟨p, s, w, trace, hp, hd, hrun, rfl⟩ := Session.step_eq_ok hstep
    · exact h
    obtain ⟨c, hloc, hc⟩ := h.spot hp hd
    have hproper := Session.program_proper h.loaded hp
    obtain ⟨hnext, hstore⟩ | ⟨c', hnext, hc', hne⟩ := step_ok_matches hproper hc hloc hrun
    · exact .rewound h.options h.loaded (.inl (by rw [hnext]; rfl)) hstore
    · exact ⟨h.options, h.loaded, hc'.ready, .inr ⟨p, c', hp, hne, hnext, hc'⟩⟩
  · intro stop l' hstep
    obtain ⟨rfl, -⟩ | ⟨p, f, w, trace, hp, hd, hrun, -, rfl⟩ := Session.step_eq_error hstep
    · exact h
    obtain ⟨c, hloc, hc⟩ := h.spot hp hd
    obtain ⟨hc', -⟩ := step_error_matches (Session.program_proper h.loaded hp) hc hloc hrun
    exact h.world hc'.ready (hc'.frames.trans hc.frames.symm) trace

theorem poll_keeps (o : SessionOptions) : Keeps (Live.Kept o) Session.poll := by
  intro l h
  have hworld (w : World) (hstore : w.store = l.world.store) : Live.Kept o ⟨l.session, w⟩ :=
    h.world (hstore ▸ h.ready) (by rw [hstore]; rfl) l.session.trace
  constructor
  · intro u l' hpoll
    rw [Session.poll] at hpoll
    split at hpoll
    · next w he =>
      cases hpoll
      exact hworld w (poll_ok_store he)
    · cases hpoll
  · intro stop l' hpoll
    rw [Session.poll] at hpoll
    split at hpoll
    · cases hpoll
    · next f w he =>
      cases hpoll
      exact hworld w (poll_error_store he)

theorem check_keeps (o : SessionOptions) : Keeps (Live.Kept o) Session.check := by
  intro l h
  have hworld (written : Array Bytes) : Live.Kept o ⟨l.session, { l.world with written }⟩ :=
    ⟨h.options, h.loaded, h.ready, h.place⟩
  rw [Session.check]
  split
  · constructor
    · rintro a l' ⟨⟩
    · rintro _ _ ⟨⟩
      exact h
  dsimp only
  split
  · constructor
    · rintro _ _ ⟨⟩
      exact hworld _
    · rintro stop l' ⟨⟩
  · constructor
    · rintro a l' ⟨⟩
    · rintro _ _ ⟨⟩
      exact hworld _

theorem evaluate_keeps (o : SessionOptions) : Keeps (Live.Kept o) Session.evaluate := by
  intro l h
  rw [Session.evaluate]
  split
  · constructor
    · rintro a l' ⟨⟩
    · rintro _ _ ⟨⟩
      exact h
  next p hp =>
  have hholds := evaluate_holds l.session.options.setting l.session.scope
    (Session.program_proper h.loaded hp)
  dsimp only
  split
  · next v store written polls he =>
    constructor
    · rintro _ _ ⟨⟩
      have hready := (hholds.ok h.ready.scope_lt he).ready h.ready
      exact .rewound h.options h.loaded (.inl rfl) hready.clearLoops
    · rintro stop l' ⟨⟩
  · next f w he =>
    constructor
    · rintro a l' ⟨⟩
    · rintro _ _ ⟨⟩
      have hholds := after_error he ▸ hholds l.world h.ready.scope_lt
      exact h.world (hholds.ready h.ready) hholds.frames l.session.trace

namespace Live

variable {o : SessionOptions} {l : Live}

theorem runFrom_keeps {I : Live → Prop} (hpoll : Keeps I Session.poll) (hstep : Keeps I Session.step)
    (budget : Int) (rounds steps : Nat) (h : I l) : I (runFrom budget rounds steps l).2 := by
  induction rounds generalizing steps l with
  | zero => exact h
  | succ rounds ih =>
    have hround := hpoll.bind (fun _ => hstep) l h
    rw [runFrom]
    split
    · exact h
    split
    · exact h
    split
    · next he => exact ih (steps + 1) (hround.1 _ _ he)
    · next he => exact hround.2 _ _ he

theorem perform_kept (ho : o.SeedsNoLoops) (h : l.Kept o) (action : Action) :
    (l.perform action).Kept o := by
  cases action with
  | load text => exact load_kept h text
  | step => exact (step_keeps o).after h
  | run budget => exact runFrom_keeps (poll_keeps o) (step_keeps o) budget _ 0 h
  | check => exact (check_keeps o).after h
  | evaluate => exact (evaluate_keeps o).after h
  | reset => exact reset_kept ho h
  | prompt setting code => exact prompt_kept h setting code

theorem reaches_kept_of_seeds (ho : o.SeedsNoLoops) {w : World} (h : (o.start w).Reaches l) :
    l.Kept o := by
  induction h with
  | refl => exact start_kept ho w
  | tail _ hacts ih =>
    obtain ⟨polls, action, rfl⟩ := hacts
    exact perform_kept ho (ih.withPolls polls) action

theorem reaches_kept (ho : o.seeds.get? loopBinding = none) {w : World}
    (h : (o.start w).Reaches l) : l.Kept o :=
  reaches_kept_of_seeds (SessionOptions.seedsNoLoops_of_unbound ho) h

end Live

/-- The indices below the program. A location that has none stands for the first statement. -/
def Location.within (loc : Location) : Location :=
  match loc.below with
  | [] => [0]
  | path => path

/-- Whatever has been done with a session, and wherever it was canceled: at the start and at the end of
its program no frames are left; on the way its location leads to a statement or to an empty block, and
the loops it goes through have their frames, the outermost on top. Without a program, or with one that
has no statements, a session is never on the way. So no step finds a location stale, unless a native
says so. -/
theorem location_and_loops_agree {o : SessionOptions} (ho : o.seeds.get? loopBinding = none)
    {w : World} {l : Live} (h : (o.start w).Reaches l) :
    (l.done = true ∨ l.session.location = .start → l.frames = []) ∧
    (∀ stop, l.session.program = .error stop → l.done = false → l.session.location = .start) ∧
    (∀ p, l.session.program = .ok p → l.done = false →
      (p.body = [] → l.session.location = .start) ∧
      (p.body ≠ [] → (Node.program p).Itinerary l.session.location.within l.frames)) ∧
    ∀ polls stop l', Session.step (l.withPolls polls) = .error stop l' → stop.isStale = true →
      o.setting.host.RepliesStale := by
  have h := Live.reaches_kept ho h
  refine ⟨fun hend => ?_, fun stop hp hd => ?_, fun p hp hd => ?_,
    fun polls stop l' => (h.withPolls polls).blames⟩
  · obtain ⟨-, hframes⟩ | ⟨p, c, -, -, hlocation, -⟩ := h.place
    · exact hframes
    · rw [Live.done, hlocation] at hend
      obtain hdone | hstart := hend
      · cases hdone
      · cases hstart
  · obtain ⟨hdone | hstart, -⟩ | ⟨p, c, hp', -⟩ := h.place
    · rw [hd] at hdone
      cases hdone
    · exact hstart
    · rw [hp] at hp'
      cases hp'
  · have hproper := Session.program_proper h.loaded hp
    obtain ⟨hdone | hstart, hframes⟩ | ⟨p', c, hp', hne, hlocation, hc⟩ := h.place
    · rw [hd] at hdone
      cases hdone
    · refine ⟨fun _ => hstart, fun hne => ?_⟩
      have hfits : Spot.start.Fits p.block := Spot.fits_start rfl
      rw [hstart, hframes]
      exact hfits.itinerary hproper hne
    · rw [hp] at hp'
      cases hp'
      refine ⟨fun hnil => (hne hnil).elim, fun _ => ?_⟩
      have hframes : l.frames = c.frames := hc.frames
      rw [hlocation, hframes]
      exact hc.fits.itinerary hproper hne

/-- Two nested loops, inside both of them after the first step: the outer one is in its first round, the
inner one in its second. -/
theorem location_and_loops_agree_nested :
    let o : SessionOptions := ⟨⟨primitives, 5⟩, 0, .location, .empty, false⟩
    let start := (o.start ⟨Store.empty.addTopLevel, #[], 0⟩).load
      (utf8 "times 2 times 3 (print 1) end end")
    let l := (start.withPolls 9).perform .step
    l.session.location = [0, 0, 1, 0, 1, 0] ∧
      l.frames = [.counted 2, (LoopFrame.counted 3).next] ∧
      (∃ p, l.session.program = .ok p ∧ (Node.program p).Itinerary [0, 1, 0, 1, 0] l.frames) ∧
      ∀ polls stop l', Session.step (l.withPolls polls) = .error stop l' → stop.isStale = false := by
  intro o start l
  have hlocation : l.session.location = [0, 0, 1, 0, 1, 0] := by
    dsimp only [l, start, o]
    cbv
  have hframes : l.frames = [.counted 2, (LoopFrame.counted 3).next] := by
    dsimp only [l, start, o]
    cbv
  have hdone : l.done = false := by
    rw [Live.done, hlocation]
    rfl
  have hstart : l.session.location ≠ .start := by
    rw [hlocation]
    exact List.cons_ne_nil _ _
  have hreach : (o.start ⟨Store.empty.addTopLevel, #[], 0⟩).Reaches l :=
    .tail (.single ⟨0, .load _, rfl⟩) ⟨9, .step, rfl⟩
  obtain ⟨-, hnone, hpath, hstep⟩ := location_and_loops_agree rfl hreach
  refine ⟨hlocation, hframes, ?_, fun polls stop l' he => ?_⟩
  · cases hp : l.session.program with
    | error stop => exact (hstart (hnone stop hp hdone)).elim
    | ok p =>
      obtain ⟨hempty, hitinerary⟩ := hpath p hp hdone
      have hitinerary := hitinerary fun hnil => hstart (hempty hnil)
      rw [hlocation] at hitinerary
      exact ⟨p, rfl, hitinerary⟩
  · cases hstale : stop.isStale with
    | false => rfl
    | true => exact (primitives_not_repliesStale (hstep polls stop l' he hstale)).elim

end Stepwise
