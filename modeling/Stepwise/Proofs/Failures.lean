import Stepwise.Proofs.Inspection
import Stepwise.Proofs.Keeping
import Stepwise.Proofs.Sessions

/-! What can fail among scalars and primitives, whether a program is evaluated, checked or stepped
through in a session. If the program meets some terms, the primitives fail as the terms permit and
nothing else is around to be called, then all failures are permitted, and no location is to blame. -/

namespace Stepwise

open Execution

/-- Scalars and natives are all that a scope and those around it hold. -/
def Store.HoldsScalars (s : Store) (scope : ScopeId) : Prop :=
  ∀ i ∈ s.chain scope, ∀ x v, s.lookup? i x = some v → v.isScalar = true

theorem holdsScalars_topLevel : Store.empty.addTopLevel.HoldsScalars 0 := by
  intro i hi x v hv
  obtain rfl : i = 0 := List.mem_singleton.mp hi
  have hbound : (Bindings.ofList (Primitive.all.map fun p => (p.name, .native p.native))).get? x =
      some v := hv
  obtain ⟨p, -, hp⟩ := List.mem_map.mp (Bindings.mem_of_get?_ofList hbound)
  cases hp
  rfl

def Realm.around (t : Terms) (s : Store) (scope : ScopeId) : Realm where
  terms := t
  home i := i = scope ∨ s.scopes.size ≤ i
  held _ := True
  frame _ := True
  counted _ := trivial
  endless _ := trivial
  next _ := trivial

theorem upholds_around {s : Store} {scope : ScopeId} (h : s.HoldsScalars scope) (t : Terms) :
    (Realm.around t s scope).Upholds s where
  bound i hi j hj x v hv := by
    obtain rfl | hi := hi
    · exact Realm.admits_of_isScalar (h j hj x v hv)
    · rw [Store.chain, Array.getElem?_eq_none hi] at hj
      cases hj
  framed _ _ _ _ := trivial
  nextScope i hi := .inr hi
  nextStack _ _ := trivial

theorem evaluate_blames (setting : Setting) (scope : ScopeId) (p : Program) :
    BlamesHost setting.host (setting.evaluate scope (.program p)) :=
  (blames_executes (invokeAt_blames setting setting.depth) scope).evalBody .absent p.body
    fun _ _ => trivial

theorem not_stale {f : Failure} (h : f.isStale = true → primitives.RepliesStale) : f.isStale = false := by
  cases hstale : f.isStale with
  | false => rfl
  | true => exact (primitives_not_repliesStale (h hstale)).elim

/-- Whatever the primitives refuse where a run may fail is permitted. -/
def Terms.AllowsPrimitives (t : Terms) : Prop :=
  ∀ n s scope args written f span, t.sites span → (primitives n s scope args written).result = .error f →
    (f.placedAt span).Permitted t

theorem Terms.AllowsPrimitives.keeps {r : Realm} (h : r.terms.AllowsPrimitives) :
    primitives.Keeps r := by
  intro n s scope args written _ _ _
  exact ⟨fun v hv => Realm.admits_of_isScalar (primitivesOn_isScalar hv), h n s scope args written⟩

/-- The failure is permitted, and no location is to blame for it. -/
structure Failure.Due (t : Terms) (f : Failure) : Prop where
  permitted : f.Permitted t
  current : f.isStale = false

section Runs

variable {r : Realm} {p : Program} {setting : Setting} {scope : ScopeId} {w : World}

theorem evaluate_due (hhost : setting.host = primitives) (hallows : r.terms.AllowsPrimitives)
    (hp : Stmt.AllMeet r.terms p.body) (hscope : r.home scope) (hw : r.Upholds w.store) :
    r.Upholds ((setting.evaluate scope (.program p)).after w).store ∧
      ∀ f w', setting.evaluate scope (.program p) w = .error f w' → f.Due r.terms := by
  have hkeeps : setting.host.Keeps r := hhost ▸ hallows.keeps
  obtain ⟨hafter, -, herror⟩ := hkeeps.judges.evaluate hscope hp w hw
  refine ⟨hafter, fun f w' h => ⟨herror f w' h, ?_⟩⟩
  exact not_stale (hhost ▸ evaluate_blames setting scope p w f w' h)

theorem step_permitted (hhost : setting.host = primitives) (hallows : r.terms.AllowsPrimitives)
    (hp : Stmt.AllMeet r.terms p.body) (hscope : r.home scope) (hw : r.Upholds w.store)
    (loc : Location) :
    r.Upholds ((setting.step scope (.program p) loc).after w).store ∧
      ∀ f w', setting.step scope (.program p) loc w = .error f w' → f.Permitted r.terms := by
  have hkeeps : setting.host.Keeps r := hhost ▸ hallows.keeps
  obtain ⟨hafter, -, herror⟩ := hkeeps.judges.step hscope hp loc w hw
  exact ⟨hafter, herror⟩

theorem check_due {g : Ground} {t : Terms} (hhost : g.host = primitives)
    (hallows : t.AllowsPrimitives) (hp : Stmt.AllMeet t p.body) {f : Failure} {c : CheckState}
    (h : check g (.program p) .initial = .error f c) : f.Due t := by
  have hmaintains : t.Maintains g (CheckState.Meets t) (Failure.Due t) :=
    { scopes := fun _ _ hc => ⟨hc.waiting, hc.visited⟩
      wait := fun hc hw => hc.wait hw
      visit := fun hc hs => hc.visit hs
      write := fun hc _ => ⟨hc.waiting, hc.visited⟩
      body := fun hc hw => hc.waiting _ hw
      fail := fun {cause span} hstale hpermits => by
        refine ⟨?_, hstale⟩
        rintro d ⟨⟩
        exact hpermits
      native := fun {n s i args written f span} hspan hreply => by
        rw [hhost] at hreply
        refine ⟨hallows n s i args written f span hspan hreply, not_stale fun hstale => ?_⟩
        rw [Failure.isStale_placedAt] at hstale
        exact ⟨n, s, i, args, written, f, hreply, hstale⟩ }
  have hn : (Node.program p).Meets t := hp
  exact ((Checking.keeps_check hmaintains hn .initial (.initial _)).2 f c h).2

end Runs

/-- The session stops for a failure that is due, or for none. -/
def Stop.Due (t : Terms) : Stop → Prop
  | .failure f => f.Due t
  | .noProgram | .outOfSteps => True

namespace Live

/-- What is done with a session that has one source text. -/
def Action.IsOn (source : Bytes) : Action → Prop
  | .load text => text = source
  | .prompt _ _ => False
  | .step | .run _ | .check | .evaluate | .reset => True

def ActsOn (source : Bytes) (l l' : Live) : Prop :=
  ∃ polls action, Action.IsOn source action ∧ l' = (l.withPolls polls).perform action

abbrev ReachesOn (source : Bytes) := Relation.ReflTransGen (ActsOn source)

/-- The session is at home in the realm, and has loaded nothing but this text. -/
structure Follows (r : Realm) (source : Bytes) (l : Live) : Prop where
  home : r.home l.session.scope
  store : r.Upholds l.world.store
  loaded : ∀ d, l.session.loaded = some d → d.text = source ∧ d.tree = Program.read source

namespace Follows

variable {r : Realm} {source : Bytes} {l l' : Live} {p : Program}

theorem congr (h : l.Follows r source) (hscope : l'.session.scope = l.session.scope)
    (hloaded : l'.session.loaded = l.session.loaded) (hstore : r.Upholds l'.world.store) :
    l'.Follows r source :=
  ⟨hscope ▸ h.home, hstore, hloaded ▸ h.loaded⟩

theorem program_eq (h : l.Follows r source) (hread : Program.read source = .ok p) {q : Program}
    (hq : l.session.program = .ok q) : q = p := by
  rw [Session.program] at hq
  split at hq
  · cases hq
  · next d hd =>
    rw [(h.loaded d hd).2, hread] at hq
    cases hq
    rfl

theorem stop_of_program (h : l.Follows r source) (hread : Program.read source = .ok p) {stop : Stop}
    (hstop : l.session.program = .error stop) : stop = .noProgram := by
  rw [Session.program] at hstop
  split at hstop
  · cases hstop
    rfl
  · next d hd =>
    rw [(h.loaded d hd).2, hread] at hstop
    cases hstop

end Follows

section Sessions

variable {o : SessionOptions} {r : Realm} {source : Bytes} {p : Program} {l : Live}

structure Sound (o : SessionOptions) (r : Realm) (source : Bytes) (l : Live) : Prop where
  kept : l.Kept o
  follows : l.Follows r source

/-- What such a session is made in: its text can be read, and its realm is one for the program. -/
structure Serves (o : SessionOptions) (r : Realm) (source : Bytes) (p : Program) : Prop where
  read : Program.read source = .ok p
  host : o.setting.host = primitives
  meets : Stmt.AllMeet r.terms p.body
  allows : r.terms.AllowsPrimitives
  root : r.home o.root
  seeds : ∀ entry ∈ o.seeds.entries, entry.2.isScalar = true

namespace Serves

theorem seedsNoLoops (h : Serves o r source p) : o.SeedsNoLoops :=
  fun _ hmem => by cases h.seeds _ hmem

theorem addScope (h : Serves o r source p) {s : Store} (hs : r.Upholds s) :
    r.Upholds (o.addScope s) := by
  refine hs.extend h.root fun x v hv => Realm.admits_of_isScalar ?_
  obtain ⟨⟨name, v'⟩, hmem, heq⟩ := List.mem_map.mp (Bindings.mem_of_get?_ofList hv)
  obtain ⟨-, rfl⟩ := Prod.mk.inj heq
  have hscalar := h.seeds _ (List.mem_mergeSort.mp hmem)
  cases v' with
  | function | loops => cases hscalar
  | _ => rfl

theorem start (h : Serves o r source p) {w : World} (hw : r.Upholds w.store) :
    (o.start w).Sound o r source where
  kept := start_kept h.seedsNoLoops w
  follows := by
    have hloaded (d : Loaded) (hd : none = some d) :
        d.text = source ∧ d.tree = Program.read source := by cases hd
    exact ⟨hw.nextScope _ (Nat.le_refl _), h.addScope hw, hloaded⟩

/-- For what is done with such a session it is enough to look at its scope, its store and its text. -/
theorem keeps {α : Type} {x : Running α} (hkept : Running.Keeps (Kept o) x)
    (hfollows : ∀ l, l.Sound o r source → (Running.after x l).Follows r source) :
    Running.Keeps (Sound o r source) x := by
  intro l h
  have hafter := hfollows l h
  constructor
  · intro a l' hx
    rw [Running.after, hx] at hafter
    exact ⟨(hkept l h.kept).1 a l' hx, hafter⟩
  · intro stop l' hx
    rw [Running.after, hx] at hafter
    exact ⟨(hkept l h.kept).2 stop l' hx, hafter⟩

theorem step_keeps (h : Serves o r source p) : Running.Keeps (Sound o r source) Session.step := by
  refine keeps (Stepwise.step_keeps o) fun l hl => ?_
  have hrun {q : Program} (hq : l.session.program = .ok q) {w : World}
      (hw : (o.setting.step l.session.scope (.program q) l.session.location).after l.world = w) :
      r.Upholds w.store := by
    obtain rfl := hl.follows.program_eq h.read hq
    exact hw ▸ (step_permitted h.host h.allows h.meets hl.follows.home hl.follows.store _).1
  cases hstep : Session.step l with
  | ok v l' =>
    rw [Running.after, hstep]
    obtain rfl | ⟨q, s, w, trace, hq, -, hs, rfl⟩ := Session.step_eq_ok hstep
    · exact hl.follows
    · rw [hl.kept.options] at hs
      exact hl.follows.congr rfl rfl (hrun hq (after_ok hs))
  | error stop l' =>
    rw [Running.after, hstep]
    obtain ⟨rfl, -⟩ | ⟨q, f, w, trace, hq, -, hs, -, rfl⟩ := Session.step_eq_error hstep
    · exact hl.follows
    · rw [hl.kept.options] at hs
      exact hl.follows.congr rfl rfl (hrun hq (after_error hs))

theorem poll_keeps : Running.Keeps (Sound o r source) Session.poll := by
  refine keeps (Stepwise.poll_keeps o) fun l hl => ?_
  rw [Running.after, Session.poll]
  cases he : Execution.poll l.world with
  | ok u w => exact hl.follows.congr rfl rfl (poll_ok_store he ▸ hl.follows.store)
  | error f w => exact hl.follows.congr rfl rfl (poll_error_store he ▸ hl.follows.store)

theorem evaluate_keeps (h : Serves o r source p) :
    Running.Keeps (Sound o r source) Session.evaluate := by
  refine keeps (Stepwise.evaluate_keeps o) fun l hl => ?_
  rw [Running.after, Session.evaluate]
  cases hq : l.session.program with
  | error stop => exact hl.follows
  | ok q =>
    obtain rfl := hl.follows.program_eq h.read hq
    have hafter := (evaluate_due h.host h.allows h.meets hl.follows.home hl.follows.store).1
    rw [← hl.kept.options] at hafter
    dsimp only
    cases he : l.session.options.setting.evaluate l.session.scope (.program q) l.world with
    | ok v w =>
      rw [after_ok he] at hafter
      exact hl.follows.congr rfl rfl (hafter.delete _ _)
    | error f w =>
      rw [after_error he] at hafter
      exact hl.follows.congr rfl rfl hafter

theorem check_keeps : Running.Keeps (Sound o r source) Session.check := by
  refine keeps (Stepwise.check_keeps o) fun l hl => ?_
  rw [Running.after, Session.check]
  cases l.session.program with
  | error stop => exact hl.follows
  | ok q =>
    dsimp only
    cases Stepwise.check ⟨l.session.options.setting.host, l.world.store, l.session.scope⟩ (.program q)
      .initial <;> exact hl.follows.congr rfl rfl hl.follows.store

theorem perform (h : Serves o r source p) {l : Live} (hl : l.Sound o r source) {action : Action}
    (haction : action.IsOn source) : (l.perform action).Sound o r source := by
  cases action with
  | load text =>
    refine ⟨load_kept hl.kept text, hl.follows.home, hl.follows.store.delete _ _, fun d hd => ?_⟩
    obtain rfl : text = source := haction
    obtain rfl := Option.some.inj hd
    exact ⟨rfl, rfl⟩
  | step => exact h.step_keeps.after hl
  | run budget => exact runFrom_keeps poll_keeps h.step_keeps budget _ 0 hl
  | check => exact check_keeps.after hl
  | evaluate => exact h.evaluate_keeps.after hl
  | reset =>
    have hkept := reset_kept h.seedsNoLoops hl.kept
    refine ⟨hkept, ?_⟩
    rw [Live.perform, reset] at *
    split
    · refine ⟨hl.follows.store.nextScope _ (Nat.le_refl _), ?_, hl.follows.loaded⟩
      dsimp only
      rw [hl.kept.options]
      exact h.addScope hl.follows.store
    · exact hl.follows.congr rfl rfl (hl.follows.store.delete _ _)
    · exact hl.follows.congr rfl rfl (hl.follows.store.delete _ _)
  | prompt setting code => cases haction

theorem reaches (h : Serves o r source p) {w : World} (hw : r.Upholds w.store) {l : Live}
    (hreach : (o.start w).ReachesOn source l) : l.Sound o r source := by
  induction hreach with
  | refl => exact h.start hw
  | tail _ hacts ih =>
    obtain ⟨polls, action, haction, rfl⟩ := hacts
    exact h.perform ⟨ih.kept.withPolls polls, ih.follows.congr rfl rfl ih.follows.store⟩ haction

theorem stop_of_program (h : Serves o r source p) {l : Live} (hl : l.Sound o r source) {stop : Stop}
    (hstop : l.session.program = .error stop) : stop.Due r.terms := by
  obtain rfl := hl.follows.stop_of_program h.read hstop
  trivial

theorem step_stop (h : Serves o r source p) {l : Live} (hl : l.Sound o r source) {stop : Stop} {l' : Live}
    (hstep : Session.step l = .error stop l') : stop.Due r.terms := by
  obtain ⟨-, hq⟩ | ⟨q, f, w, trace, hq, -, hs, rfl, -⟩ := Session.step_eq_error hstep
  · exact h.stop_of_program hl hq
  · obtain rfl := hl.follows.program_eq h.read hq
    rw [hl.kept.options] at hs
    have hpermitted := (step_permitted h.host h.allows h.meets hl.follows.home hl.follows.store _).2 f w hs
    exact ⟨hpermitted, not_stale fun hstale => h.host ▸ hl.kept.blames hstep hstale⟩

theorem evaluate_stop (h : Serves o r source p) {l : Live} (hl : l.Sound o r source) {stop : Stop}
    {l' : Live} (hrun : Session.evaluate l = .error stop l') : stop.Due r.terms := by
  rw [Session.evaluate] at hrun
  cases hq : l.session.program with
  | error s =>
    simp only [hq] at hrun
    cases hrun
    exact h.stop_of_program hl hq
  | ok q =>
    simp only [hq] at hrun
    split at hrun
    · cases hrun
    · next f w he =>
      cases hrun
      obtain rfl := hl.follows.program_eq h.read hq
      rw [hl.kept.options] at he
      exact (evaluate_due h.host h.allows h.meets hl.follows.home hl.follows.store).2 f w he

theorem check_stop (h : Serves o r source p) {l : Live} (hl : l.Sound o r source) {stop : Stop}
    {l' : Live} (hcheck : Session.check l = .error stop l') : stop.Due r.terms := by
  rw [Session.check] at hcheck
  cases hq : l.session.program with
  | error s =>
    simp only [hq] at hcheck
    cases hcheck
    exact h.stop_of_program hl hq
  | ok q =>
    simp only [hq] at hcheck
    split at hcheck
    · cases hcheck
    · next f c he =>
      cases hcheck
      obtain rfl := hl.follows.program_eq h.read hq
      exact check_due (hl.kept.options ▸ h.host) h.allows h.meets he

theorem poll_stop {l l' : Live} {stop : Stop} (h : Session.poll l = .error stop l') :
    stop.Due r.terms := by
  obtain ⟨session, store, written, polls⟩ := l
  cases polls with
  | zero =>
    cases h
    exact ⟨permitted_canceled, rfl⟩
  | succ polls => cases h

/-- A run stops as one of its steps does, or it is canceled or out of steps. -/
theorem runFrom_stop (h : Serves o r source p) (budget : Int) (rounds steps : Nat) {l : Live}
    (hl : l.Sound o r source) {stop : Stop} (hstop : (runFrom budget rounds steps l).1.stop = some stop) :
    stop.Due r.terms := by
  induction rounds generalizing steps l with
  | zero =>
    cases hstop
    exact ⟨permitted_canceled, rfl⟩
  | succ rounds ih =>
    rw [runFrom] at hstop
    split at hstop
    · cases hstop
    split at hstop
    · cases hstop
      trivial
    split at hstop
    · next he =>
      have hround := Running.Keeps.bind (poll_keeps (o := o)) (fun _ => h.step_keeps) l hl
      exact ih (steps + 1) (hround.1 _ _ he) hstop
    · next he =>
      cases hstop
      obtain hpoll | ⟨⟨⟩, l₁, hpoll, hstep⟩ := bind_eq_error he
      · exact poll_stop hpoll
      · exact h.step_stop ((poll_keeps l hl).1 _ _ hpoll) hstep

end Serves

end Sessions

end Live

end Stepwise
