import Stepwise.Proofs.Failures
import Stepwise.Proofs.Suspension
import Stepwise.Proofs.Trails

/-! How many steps a program takes. Stepped from its front until a step leaves it, a part of a program
takes one step for each unit that the trail of its evaluation costs: ways into branches and loops are
part of the step they lead to, and a step that leaves several blocks at once is the last one of each. -/

namespace Stepwise

open Execution

variable {host : Host} {invoke : Invoke} {scope : ScopeId} {m m' : Memory} {v : Value} {trail : Trail}
  {polls left : Nat}

theorem World.exists_memory (w : World) : ∃ m polls, w = Memory.world m polls :=
  ⟨⟨w.store, w.written⟩, w.polls, rfl⟩

theorem world_of_pure {α : Type} {a b : α}
    (h : (pure a : Execution α) (m.world polls) = .ok b (m'.world left)) : a = b ∧ m' = m := by
  obtain ⟨hab, hw⟩ := EStateM.Result.ok.inj h
  exact ⟨hab, (world_inj hw).1.symm⟩

theorem world_of_poll {w : World} (h : poll (m.world polls) = .ok () w) : ∃ more, w = m.world more := by
  cases polls with
  | zero => cases h
  | succ more =>
    cases h
    exact ⟨more, rfl⟩

theorem finishes_leave {κ : Type} {step : κ → Execution (Moved κ)} (v : Value) (m : Memory) :
    Finishes step 1 (pure ⟨v, none⟩) m (.ok v) m :=
  finishes_pure_iff.mpr ⟨0, rfl, rfl, rfl, rfl⟩

/-- What costs one and leaves a part at once is one step. -/
theorem finishes_landmark {κ : Type} {step : κ → Execution (Moved κ)} {u : Value} {l : Landmark}
    (hl : l.cost = 1) (h : (pure (u, [l]) : Execution (Value × Trail)) (m.world polls) =
      .ok (v, trail) (m'.world left)) :
    Finishes step trail.cost (pure ⟨u, none⟩) m (.ok v) m' := by
  obtain ⟨hv, rfl⟩ := world_of_pure h
  cases hv
  rw [Trail.cost_cons, hl]
  exact finishes_leave _ _

/-- What is run before the first step of a machine takes no step. -/
theorem finishes_after {κ α : Type} {step : κ → Execution (Moved κ)} {y : Execution α}
    {f : α → Execution (Moved κ)} {a : α} {w : World} (hy : Steady y) (hf : ∀ a, Steady (f a))
    (h : y (m.world polls) = .ok a w) :
    ∃ m₁ left, w = m₁.world left ∧ ∀ {n r m'}, Finishes step n (f a) m₁ r m' →
      Finishes step n (y >>= f) m r m' := by
  obtain ⟨used, m₁, hends, hw⟩ := (hy m polls).endsIn_of_ok h
  exact ⟨m₁, w.polls, hw, fun hrest => (finishes_bind_iff hy hf).mpr (.inl ⟨a, m₁, ⟨used, hends⟩, hrest⟩)⟩

/-- From its front the block takes a step for each unit that the trail of its evaluation costs. -/
def Block.TakesItsTrail (host : Host) (invoke : Invoke) (scope : ScopeId) (b : Block) : Prop :=
  ∀ {m m' : Memory} {v : Value} {trail : Trail} {polls left : Nat},
    walkBlock host invoke scope b (m.world polls) = .ok (v, trail) (m'.world left) →
      Finishes (advanceBlock unmarked host invoke scope · b) trail.cost
        (advanceBlock unmarked host invoke scope .start b) m (.ok v) m'

/-- The way into a branch is part of the first step in it. -/
theorem finishes_branch {outer : Position → Execution (Moved Position)} {block : Block}
    {into : Spot → Position} (hinv : invoke.Steady)
    (hstep : ∀ c, outer (into c) =
      Moved.within into leaveBranch <$> advanceBlock unmarked host invoke scope c block) {n : Nat}
    (h : Finishes (advanceBlock unmarked host invoke scope · block) n
      (advanceBlock unmarked host invoke scope .start block) m (.ok v) m') :
    Finishes outer n
      (Moved.within into leaveBranch <$> advanceBlock unmarked host invoke scope .start block)
      m (.ok v) m' := by
  have hsteady (c : Spot) : Steady (advanceBlock unmarked host invoke scope c block) :=
    advanceBlock_steady (steady_pure _) hinv c block
  exact (finishes_within_iff hsteady hstep (hsteady .start)).mpr
    (.inl ⟨n, 0, v, m', rfl, h, rfl, rfl, rfl⟩)

/-- Each round of a loop takes the steps of its body. -/
theorem finishes_loop {outer : Position → Execution (Moved Position)} {block : Block}
    (hinv : invoke.Steady)
    (hstep : ∀ frame (c : Spot), outer (c.inLoop frame) =
      advanceRound unmarked host invoke scope block frame c)
    (hblock : block.TakesItsTrail host invoke scope) (rounds : Nat) {frame : LoopFrame}
    (hd : frame.done = false) {last : Value}
    (h : walkLoop (walkBlock host invoke scope block) rounds frame last (m.world polls) =
      .ok (v, trail) (m'.world left)) :
    Finishes outer trail.cost (advanceRound unmarked host invoke scope block frame .start) m (.ok v) m' := by
  have hsteady (c : Spot) : Steady (advanceBlock unmarked host invoke scope c block) :=
    advanceBlock_steady (steady_pure _) hinv c block
  induction rounds generalizing frame last m polls trail with
  | zero => cases h
  | succ rounds ih =>
    rw [walkLoop, if_neg (by simp [hd])] at h
    obtain ⟨⟨⟩, w, hpoll, h⟩ := bind_eq_ok h
    obtain ⟨⟨v₁, first⟩, w₁, hround, h⟩ := bind_eq_ok h
    obtain ⟨rest, rfl, hrest⟩ := via_eq_ok h
    obtain ⟨more, rfl⟩ := world_of_poll hpoll
    obtain ⟨m₁, left₁, rfl⟩ := w₁.exists_memory
    rw [advanceRound, finishes_within_iff hsteady (hstep frame) (hsteady .start), Trail.cost_append]
    refine .inl ⟨first.cost, rest.cost, v₁, _, rfl, hblock hround, ?_⟩
    cases hd' : frame.next.done with
    | true =>
      -- the last step of the last round leaves the loop as well
      rw [leaveRound, if_pos hd']
      cases rounds with
      | zero => cases hrest
      | succ rounds =>
        rw [walkLoop, if_pos hd'] at hrest
        obtain ⟨hv, rfl⟩ := world_of_pure hrest
        cases hv
        exact ⟨rfl, rfl, rfl⟩
    | false =>
      rw [leaveRound, if_neg (by simp [hd'])]
      change Finishes outer rest.cost (outer (Spot.start.inLoop frame.next)) _ _ _
      rw [hstep]
      exact ih hd' hrest

theorem finishes_conditional (hinv : invoke.Steady) {span : Span} {condition : Expr}
    {thenBlock elseBlock : Block} (hthen : thenBlock.TakesItsTrail host invoke scope)
    (helse : elseBlock.TakesItsTrail host invoke scope)
    (h : walkStmt host invoke scope (.branch span condition thenBlock elseBlock) (m.world polls) =
      .ok (v, trail) (m'.world left)) :
    Finishes (advanceStmt unmarked host invoke scope · (.branch span condition thenBlock elseBlock))
      trail.cost
      (advanceStmt unmarked host invoke scope .entry (.branch span condition thenBlock elseBlock))
      m (.ok v) m' := by
  cases hc : condition.isMissing || thenBlock.isMissing with
  | true =>
    rw [walkStmt, if_pos hc] at h
    cases h
  | false =>
    rw [walkStmt, if_neg (by simp [hc])] at h
    obtain ⟨c, w, hcondition, h⟩ := bind_eq_ok h
    have hsteady (b : Block) (s : Spot) : Steady (advanceBlock unmarked host invoke scope s b) :=
      advanceBlock_steady (steady_pure _) hinv s b
    rw [advanceStmt_branch_entry hc]
    obtain ⟨m₁, left₁, rfl, hgo⟩ := finishes_after (evalExpr_steady hinv scope condition)
      (fun v => steady_compositional.advanceBranch (hsteady thenBlock) (hsteady elseBlock)
        v.isTruthy .start) hcondition
    apply hgo
    cases htruthy : c.isTruthy with
    | true =>
      rw [if_pos htruthy] at h
      obtain ⟨rest, rfl, hwalk⟩ := via_eq_ok h
      rw [advanceBranch, if_pos rfl, Trail.cost_entrance]
      exact finishes_branch hinv (advanceStmt_inBranch hc true) (hthen hwalk)
    | false =>
      rw [if_neg (by simp [htruthy])] at h
      rw [advanceBranch, if_neg (by simp)]
      cases he : elseBlock.isMissing with
      | true =>
        rw [if_pos he] at h
        rw [if_pos rfl]
        exact finishes_landmark rfl h
      | false =>
        rw [if_neg (by simp [he])] at h
        obtain ⟨rest, rfl, hwalk⟩ := via_eq_ok h
        rw [if_neg (by simp), Trail.cost_entrance]
        exact finishes_branch hinv (advanceStmt_inElse hc he) (helse hwalk)

theorem finishes_times (hinv : invoke.Steady) {span : Span} {count : Expr} {body : Block}
    (hbody : body.TakesItsTrail host invoke scope)
    (h : walkStmt host invoke scope (.times span count body) (m.world polls) =
      .ok (v, trail) (m'.world left)) :
    Finishes (advanceStmt unmarked host invoke scope · (.times span count body)) trail.cost
      (advanceStmt unmarked host invoke scope .entry (.times span count body)) m (.ok v) m' := by
  rw [walkStmt] at h
  obtain ⟨frame, w, hstart, h⟩ := bind_eq_ok h
  obtain ⟨rest, rfl, hloop⟩ := via_eq_ok h
  cases hb : body.isMissing with
  | true =>
    rw [startLoop.eq_def, if_pos hb] at hstart
    cases hstart
  | false =>
    -- the way into the first round belongs to the first step of its body
    let enter (frame : LoopFrame) : Execution (Moved Position) :=
      if frame.done then pure ⟨.absent, none⟩
      else do
        unmarked
        advanceRound unmarked host invoke scope body frame .start
    have hsteady (frame : LoopFrame) : Steady (enter frame) := by
      dsimp only [enter]
      split
      · exact steady_pure _
      · exact (advanceBlock_steady (steady_pure _) hinv .start body).map
    rw [advanceStmt_times_entry hb]
    obtain ⟨m₁, left₁, rfl, hgo⟩ := finishes_after (startLoop_steady scope span count body) hsteady hstart
    apply hgo
    dsimp only [enter]
    cases hd : frame.done with
    | true =>
      rw [walkLoop, if_pos hd] at hloop
      obtain ⟨hv, rfl⟩ := world_of_pure hloop
      cases hv
      rw [if_pos rfl, if_pos rfl]
      exact finishes_leave .absent m'
    | false =>
      rw [if_neg (by simp), if_neg (by simp), Trail.cost_entrance]
      exact finishes_loop hinv (advanceStmt_inLoop hb) hbody _ hd hloop

mutual

theorem finishes_stmt (hinv : invoke.Steady) (s : Stmt) {m m' : Memory} {v : Value} {trail : Trail}
    {polls left : Nat}
    (h : walkStmt host invoke scope s (m.world polls) = .ok (v, trail) (m'.world left)) :
    Finishes (advanceStmt unmarked host invoke scope · s) trail.cost
      (advanceStmt unmarked host invoke scope .entry s) m (.ok v) m' := by
  cases s with
  | missing | set | call =>
    rw [walkStmt] at h
    obtain ⟨u, w, hrun, h⟩ := bind_eq_ok h
    rw [advanceStmt_atomic rfl, map_eq_pure_bind]
    obtain ⟨m₁, left₁, rfl, hgo⟩ := finishes_after (evalStmt_steady hinv scope _)
      (fun v => steady_pure (⟨v, none⟩ : Moved Position)) hrun
    exact hgo (finishes_landmark rfl h)
  | branch span condition thenBlock elseBlock =>
    exact finishes_conditional hinv (finishes_block hinv thenBlock) (finishes_block hinv elseBlock) h
  | times span count body => exact finishes_times hinv (finishes_block hinv body) h

theorem finishes_block (hinv : invoke.Steady) (b : Block) {m m' : Memory} {v : Value} {trail : Trail}
    {polls left : Nat}
    (h : walkBlock host invoke scope b (m.world polls) = .ok (v, trail) (m'.world left)) :
    Finishes (advanceBlock unmarked host invoke scope · b) trail.cost
      (advanceBlock unmarked host invoke scope .start b) m (.ok v) m' := by
  cases b with
  | missing => exact finishes_landmark rfl h
  | of sp body =>
    cases body with
    | nil => exact finishes_landmark rfl h
    | cons stmt rest =>
      exact finishes_body hinv 0 .absent (stmt :: rest) (by simp) (Nat.zero_add _).symm
        (fun j p => by rw [Nat.zero_add]; rfl) h

/-- The end of a list of statements; `outer` is the machine of the whole list. -/
theorem finishes_body {outer : Spot → Execution (Moved Spot)} {count : Nat} (hinv : invoke.Steady)
    (index : Nat) (last : Value) (body : List Stmt) (hne : body ≠ []) (hcount : count = index + body.length)
    (hstep : ∀ j p, outer ⟨index + j, p⟩ =
      advanceAt unmarked host invoke scope ⟨index + j, p⟩ count j body)
    {m m' : Memory} {v : Value} {trail : Trail} {polls left : Nat}
    (h : walkBody host invoke scope last body (m.world polls) = .ok (v, trail) (m'.world left)) :
    Finishes outer trail.cost (outer ⟨index, .entry⟩) m (.ok v) m' := by
  cases body with
  | nil => exact (hne rfl).elim
  | cons stmt rest =>
    have hsteady (p : Position) : Steady (advanceStmt unmarked host invoke scope p stmt) :=
      advanceStmt_steady (steady_pure _) hinv p stmt
    have hhere := outer_here hstep
    rw [walkBody] at h
    obtain ⟨⟨u, first⟩, w, hstmt, h⟩ := bind_eq_ok h
    obtain ⟨more, rfl, hrest⟩ := via_eq_ok h
    obtain ⟨m₁, left₁, rfl⟩ := w.exists_memory
    rw [hhere, finishes_within_iff hsteady hhere (hsteady .entry), Trail.cost_append]
    refine .inl ⟨first.cost, more.cost, u, m₁, rfl, finishes_stmt hinv stmt hstmt, ?_⟩
    cases rest with
    | nil =>
      obtain ⟨hv, rfl⟩ := world_of_pure hrest
      cases hv
      rw [leaveStmt, if_pos (by simp [hcount])]
      exact ⟨rfl, rfl, rfl⟩
    | cons stmt' rest =>
      rw [leaveStmt, if_neg (by simp only [hcount, List.length_cons]; omega)]
      have hcount' : count = index + 1 + (stmt' :: rest).length := by
        rw [hcount, List.length_cons]
        omega
      exact finishes_body hinv (index + 1) u (stmt' :: rest) (by simp) hcount' (outer_rest hstep) hrest

end

namespace Live

variable {setting : Setting} {scope : ScopeId} {p : Program} {c : Spot} {m m' : Memory} {l : Live}

/-- Between two steps: the session stands at a place of its program, and its frames are those of the loops
around that place. -/
structure StandsAt (l : Live) (setting : Setting) (scope : ScopeId) (p : Program) (c : Spot) (m : Memory) :
    Prop where
  program : l.session.program = .ok p
  setting_eq : l.session.options.setting = setting
  scope_eq : l.session.scope = scope
  location : c.At l.session.location
  memory : (⟨l.world.store, l.world.written⟩ : Memory) = m.withFrames scope c.frames
  ready : m.store.Ready scope
  rests : c.Rests scope p.block (m.world 0)

theorem StandsAt.step (hp : loopBinding ∉ p.names) (h : l.StandsAt setting scope p c m) {mv : Moved Spot}
    {m₁ : Memory} (hadvance : (setting.advance scope p c).Ends m (.ok mv) m₁) :
    ∃ used l', l.StepsIn used l' ∧ (mv.next = none → l'.done = true) ∧
      ∀ c', mv.next = some c' → l'.StandsAt setting scope p c' m₁ := by
  obtain ⟨hprogram, rfl, rfl, hlocation, hmemory, hready, hrests⟩ := h
  obtain ⟨used, hends⟩ := (step_ends_iff hp hready hrests hlocation).mpr (.inl ⟨mv, m₁, hadvance, rfl, rfl⟩)
  rw [← hmemory] at hends
  have hsteps := stepsIn_of_endsIn hprogram hlocation.not_done hends
  obtain ⟨trace, hadvanced⟩ := l.session.advance_eq (m₁.withFrames l.session.scope mv.frames).store
    ⟨mv.value, mv.location⟩
  rw [hadvanced] at hsteps
  obtain ⟨hready₁, hleads⟩ := advance_ends_ok hp hready hrests hadvance
  refine ⟨used, _, hsteps, fun hnone => ?_, fun c' hc' => ?_⟩
  · simp only [Live.done, Moved.location, hnone]
    rfl
  · refine ⟨hprogram, rfl, rfl, ?_, ?_, hready₁, hleads c' hc'⟩
    · simp only [Moved.location, hc']
      exact c'.at_path
    · simp only [Moved.frames, hc']
      rfl

/-- A run on from a place takes as many steps as the machine does from there. -/
theorem StandsAt.path (hp : loopBinding ∉ p.names) {n : Nat} {v : Value}
    (hn : Finishes (setting.advance scope p) n (setting.advance scope p c) m (.ok v) m') {start : Live}
    {k used : Nat} (hpath : start.Path k used l) (h : l.StandsAt setting scope p c m) :
    ∃ used' l', start.Path (k + n) used' l' ∧ l'.done = true := by
  induction n generalizing l c m k used with
  | zero =>
    obtain ⟨f, hf, -⟩ := hn
    cases hf
  | succ n ih =>
    obtain ⟨mv, m₁, hadvance, hnext⟩ := hn
    obtain ⟨more, l', hstep, hover, hon⟩ := h.step hp hadvance
    have hpath' := hpath.step h.location.not_done hstep
    cases hmv : mv.next with
    | none =>
      rw [hmv] at hnext
      obtain ⟨rfl, -, -⟩ := hnext
      exact ⟨_, l', hpath', hover hmv⟩
    | some c' =>
      rw [hmv] at hnext
      rw [Nat.add_comm n, ← Nat.add_assoc]
      exact ih hnext hpath' (hon c' hmv)

end Live

/-- What the store binds leads to no loop stack: scalars, natives, and functions that do not spell the name
loops are kept under. -/
def Store.IsPlain (s : Store) : Prop :=
  ∀ i x v, x ≠ loopBinding → s.lookup? i x = some v → v.Plain fun _ => False

theorem isPlain_topLevel : Store.empty.addTopLevel.IsPlain := by
  intro i x v hx hv
  cases i with
  | zero => exact Value.plain_of_isScalar (holdsScalars_topLevel 0 (by decide) x v hv)
  | succ i => cases hv

theorem Store.IsPlain.alike {s : Store} (h : s.IsPlain) : s.Alike (fun _ => False) s where
  size := rfl
  chain _ := rfl
  lookup _ _ _ := rfl
  closures := rfl
  stack := nofun
  plain := h

/-- A store with a namespace of scalars is plain if it was before. -/
theorem Store.IsPlain.addScope {s : Store} (h : s.IsPlain) {o : SessionOptions}
    (hseeds : ∀ entry ∈ o.seeds.entries, entry.2.isScalar) : (o.addScope s).IsPlain := by
  intro i x v hx hv
  rw [SessionOptions.addScope, Store.lookup?_extend] at hv
  split at hv
  · obtain ⟨⟨y, u⟩, hmem, hentry⟩ := List.mem_map.mp (Bindings.mem_of_get?_ofList hv)
    cases hentry
    exact (Value.plain_of_isScalar (hseeds _ (List.mem_mergeSort.mp hmem))).orNull
  · exact h i x v hx hv

namespace Live

/-- A session in front of the first statement of its text. Its store may bind any scalars and natives, and
functions that have been read. -/
structure AtStart (l : Live) (text : Bytes) : Prop where
  loaded : l.session.loaded = some ⟨text, Program.read text⟩
  location : l.session.location = .start
  ready : l.world.store.Ready l.session.scope
  plain : l.world.store.IsPlain

theorem atStart_load {l : Live} (hready : l.world.store.Ready l.session.scope)
    (hplain : l.world.store.IsPlain) (text : Bytes) : (l.load text).AtStart text where
  loaded := rfl
  location := rfl
  ready := hready.clearLoops.1
  plain i x v hx hv := by
    have hlookup : (l.world.store.clearLoops l.session.scope).lookup? i x = some v := hv
    rw [Store.clearLoops, Store.lookup?_delete_of_ne hx] at hlookup
    exact hplain i x v hx hlookup

/-- So is a new session whose scope holds scalars, once it has a text. -/
theorem atStart_start {o : SessionOptions} {w : World} (hplain : w.store.IsPlain)
    (hseeds : ∀ entry ∈ o.seeds.entries, entry.2.isScalar) (text : Bytes) :
    ((o.start w).load text).AtStart text :=
  have hnoLoops : o.SeedsNoLoops := SessionOptions.seedsNoLoops_of_scalar hseeds
  atStart_load (l := o.start w) (SessionOptions.addScope_ready hnoLoops w.store).1
    (hplain.addScope hseeds) text

end Live

theorem Session.evaluate_eq_ok {l l' : Live} {v : Value} (h : Session.evaluate l = .ok v l') :
    ∃ p w, l.session.program = .ok p ∧
      l.session.options.setting.evaluate l.session.scope (.program p) l.world = .ok v w := by
  rw [evaluate] at h
  split at h
  · cases h
  · next p hp =>
    dsimp only at h
    split at h
    · next u store written polls hrun =>
      cases h
      exact ⟨p, _, hp, hrun⟩
    · cases h

namespace Live.AtStart

variable {l : Live} {text : Bytes} {p : Program}

theorem read_eq (h : l.AtStart text) (hp : l.session.program = .ok p) : Program.read text = .ok p := by
  rw [Session.program, h.loaded] at hp
  dsimp only at hp
  split at hp
  · next hread =>
    cases hp
    exact hread
  · cases hp

theorem path {writer : Writer} (h : l.AtStart text)
    (hhost : l.session.options.setting.host = primitivesOn writer)
    (hp : l.session.program = .ok p) {polls : Nat} {v : Value} {trail : Trail} {w : World}
    (hwalk : l.session.options.setting.walk l.session.scope p (l.withPolls polls).world =
      .ok (v, trail) w) :
    ∃ used l', l.Path trail.cost used l' ∧ l'.done = true := by
  let setting := l.session.options.setting
  let scope := l.session.scope
  let m : Memory := ⟨l.world.store, l.world.written⟩
  have hnames : loopBinding ∉ p.names := (read_proper (h.read_eq hp)).not_mem_names
  have hignores : setting.host.IgnoresLoops := hhost ▸ primitivesOn_ignoresLoops writer
  have hinv : setting.invoke.Indifferent fun _ => False :=
    invokeAt_indifferent setting hignores setting.depth
  have hlock (c : Spot) : InLockstep (fun _ => False)
      (advanceBlock unmarked setting.host setting.invoke scope c p.block) (setting.advance scope p c) :=
    advanceBlock_lockstep hignores hinv c p.block hnames
  obtain ⟨m', left, rfl⟩ := w.exists_memory
  have hplain : Finishes (advanceBlock unmarked setting.host setting.invoke scope · p.block) trail.cost
      (advanceBlock unmarked setting.host setting.invoke scope .start p.block) m (.ok v) m' :=
    finishes_block (invokeAt_steady setting setting.depth) p.block hwalk
  -- the session's own steps leave a loop stack behind, which changes nothing else
  obtain ⟨t', hmarked, -⟩ := hplain.transfer hlock (advance_steady setting scope p) (hlock .start)
    (advance_steady setting scope p .start) h.plain.alike
  have hstands : l.StandsAt setting scope p .start m :=
    ⟨hp, rfl, rfl, h.location ▸ Spot.at_start, (m.withFrames_nil scope).symm, h.ready,
      Spot.rests_start rfl⟩
  obtain ⟨used, last, hpath, hdone⟩ := hstands.path hnames hmarked .here
  exact ⟨used, last, Nat.zero_add trail.cost ▸ hpath, hdone⟩

end Live.AtStart

/-- A text that is evaluated is run, with no budget, in as many steps as the trail of the evaluation costs:
one for each `set` and call, one for each loop with no round to run, one for each `if` with no branch to
take, one each time a block without statements is run, and none for a way into a branch or a loop. Each
step that succeeds, from any location, runs one statement at most. -/
theorem run_takes_what_the_trail_costs {l l' : Live} {text : Bytes} {polls : Nat} {v : Value}
    {writer : Writer} (hhost : l.session.options.setting.host = primitivesOn writer) (hstart : l.AtStart text)
    (heval : Session.evaluate (l.withPolls polls) = .ok v l') :
    let setting := l.session.options.setting
    let scope := l.session.scope
    ∃ p trail w, Program.read text = .ok p ∧
      setting.walk scope p (l.withPolls polls).world = .ok (v, trail) w ∧
      (∃ enough, ∀ budget ≤ 0, ∀ polls ≥ enough,
        ((l.withPolls polls).run budget).1 = ⟨trail.cost, none⟩) ∧
      ∀ loc w s w', setting.step scope (.program p) loc w = .ok s w' →
        ∃ trail, setting.tread scope (.program p) loc w = .ok (s, trail) w' ∧ trail.statements ≤ 1 := by
  intro setting scope
  obtain ⟨p, w, hprogram, hrun⟩ := Session.evaluate_eq_ok heval
  obtain ⟨trail, hwalk⟩ := Setting.exists_walk hrun
  obtain ⟨used, last, hpath, hdone⟩ := hstart.path hhost hprogram hwalk
  refine ⟨p, trail, w, hstart.read_eq hprogram, hwalk, ⟨used, fun budget hbudget polls hpolls => ?_⟩, ?_⟩
  · rw [hpath.run_eq hdone hbudget hpolls]
  · intro loc w s w' hstep
    obtain ⟨trail, htread, hcost⟩ := Setting.exists_tread hstep
    refine ⟨trail, htread, trail.statements_le_cost.trans ?_⟩
    rw [hcost]
    split <;> omega

/-- Six steps: one for the `set`, one for each of three rounds with nothing to run, one for the loop with no
round and one for the condition with no branch. -/
theorem run_takes_what_the_trail_costs_nested :
    let o : SessionOptions := ⟨⟨primitives, 5⟩, 0, .location, .ofList [(utf8 "on", .boolean false)], false⟩
    let text := utf8 "times 2 if on times 3 end else set on true end end end " ++
      utf8 "times 0 (print on) end if false (print on) end"
    let l := (o.start ⟨Store.empty.addTopLevel, #[], 0⟩).load text
    l.AtStart text ∧
      ∃ l', Session.evaluate (l.withPolls 20) = .ok .null l' ∧
        ∃ enough, ∀ polls ≥ enough, ((l.withPolls polls).run 0).1 = ⟨6, none⟩ := by
  intro o text l
  have hseeds (entry : Name × Value) (h : entry ∈ o.seeds.entries) : entry.2.isScalar := by
    obtain rfl := List.mem_singleton.mp h
    rfl
  have hstart : l.AtStart text := Live.atStart_start isPlain_topLevel hseeds text
  have hvalue : resultOf? (Session.evaluate (l.withPolls 20)) = some .null := by
    dsimp only [l, text, o]
    cbv
  have hcost : (Program.read text).toOption.bind (fun p =>
      (resultOf? (o.setting.walk l.session.scope p (l.withPolls 20).world)).map fun r => r.2.cost) =
        some 6 := by
    dsimp only [l, text, o]
    cbv
  obtain ⟨l', heval⟩ := resultOf?_eq_some hvalue
  obtain ⟨p, trail, w, hread, hwalk, ⟨enough, hrun⟩, -⟩ :=
    run_takes_what_the_trail_costs rfl hstart heval
  have htrail : trail.cost = 6 := by
    have hwalk : o.setting.walk l.session.scope p (l.withPolls 20).world = .ok (.null, trail) w := hwalk
    rw [hread] at hcost
    simpa [Except.toOption, hwalk, resultOf?] using hcost
  refine ⟨hstart, l', heval, enough, fun polls hpolls => ?_⟩
  rw [hrun 0 (Int.le_refl 0) polls hpolls, htrail]

end Stepwise
