import Stepwise.Proofs.Coverage

/-! What a run comes to, computed. From one task the run goes on to others, and everything it reaches is
found in this way. So the statements that a run executes can be listed, and where the listing comes to an
end, so can everything else that it does. -/

namespace Stepwise

open Execution

/-- A task that a run comes to at a moment. -/
structure Waypoint where
  fresh : Bool
  task : Task
  moment : Moment

def onOk {α β : Type} (result : EStateM.Result Failure World α) (next : α → World → List β) : List β :=
  match result with
  | .ok a w => next a w
  | .error _ _ => []

def isOk {ε σ α : Type} : EStateM.Result ε σ α → Bool
  | .ok _ _ => true
  | .error _ _ => false

theorem isOk_iff {ε σ α : Type} {result : EStateM.Result ε σ α} :
    isOk result = true ↔ ∃ a s, result = .ok a s := by
  cases result with
  | ok a s => exact ⟨fun _ => ⟨a, s, rfl⟩, fun _ => rfl⟩
  | error => exact ⟨nofun, nofun⟩

theorem mem_onOk {α β : Type} {result : EStateM.Result Failure World α} {next : α → World → List β}
    {b : β} (h : b ∈ onOk result next) : ∃ a w, result = .ok a w ∧ b ∈ next a w := by
  cases result with
  | ok a w => exact ⟨a, w, rfl, h⟩
  | error => cases h

namespace Run

def entry (m : Moment) (f : Value) (vs : List Value) (w : World) : List Waypoint :=
  match m.left, f with
  | left + 1, .function c =>
    if vs.length = c.literal.arity then
      onOk (poll w) fun _ w => onOk (openScope c vs w) fun id w => [⟨true, .closure c, left, id, w⟩]
    else []
  | _, _ => []

/-- What the run goes on to from a task. -/
def following (r : Run) (fresh : Bool) (m : Moment) : Task → List Waypoint
  | .body [] => []
  | .body (s :: rest) =>
    ⟨fresh, .stmt s, m⟩ :: onOk (r.stmt m s) fun _ w => [⟨fresh, .body rest, m.at w⟩]
  | .stmt s =>
    match s with
    | .missing | .set _ none _ => []
    | .set _ (some _) e => [⟨fresh, .expr e, m⟩]
    | .branch _ c t e =>
      ⟨fresh, .expr c, m⟩ :: onOk (r.expr m c) fun v w =>
        [⟨fresh, .block (if v.isTruthy then t else e), m.at w⟩]
    | .times span count b =>
      (match count with
        | .symbol s => [⟨fresh, .expr (.symbol s), m⟩]
        | _ => []) ++
        onOk (r.startLoop m span count b) fun frame w => [⟨fresh, .loop b frame, m.at w⟩]
    | .call span callee args => [⟨fresh, .expr (.call span callee args), m⟩]
  | .block .missing => []
  | .block (.of _ body) => [⟨fresh, .body body, m⟩]
  | .loop b frame =>
    if frame.done then []
    else onOk (poll m.world) fun _ w =>
      ⟨fresh, .block b, m.at w⟩ :: onOk (r.block (m.at w) b) fun _ w =>
        [⟨false, .loop b frame.next, m.at w⟩]
  | .expr (.call _ callee args) =>
    ⟨fresh, .expr callee, m⟩ :: onOk (r.expr m callee) fun f w =>
      ⟨fresh, .args args, m.at w⟩ :: onOk (r.args (m.at w) args) fun vs w => entry m f vs w
  | .expr _ => []
  | .args [] => []
  | .args (e :: es) =>
    ⟨fresh, .expr e, m⟩ :: onOk (r.expr m e) fun _ w => [⟨fresh, .args es, m.at w⟩]
  | .closure c => [⟨fresh, .block c.literal.body, m⟩]

variable {r : Run} {fresh : Bool} {m : Moment} {q : Waypoint}

theorem reached_of_mem_entry {span : Span} {callee : Expr} {args : List Expr} {f : Value}
    {vs : List Value} {w₁ w₂ : World} (h : r.Reached fresh (.expr (.call span callee args)) m)
    (hf : r.expr m callee = .ok f w₁) (hvs : r.args (m.at w₁) args = .ok vs w₂)
    (hq : q ∈ entry m f vs w₂) : r.Reached q.fresh q.task q.moment := by
  unfold entry at hq
  split at hq
  · next left c hleft =>
    split at hq
    · next harity =>
      obtain ⟨⟨⟩, w₃, hpoll, hq⟩ := mem_onOk hq
      obtain ⟨id, w₄, hopen, hq⟩ := mem_onOk hq
      obtain rfl := List.mem_singleton.mp hq
      exact h.enter hleft hf hvs harity hpoll hopen
    · cases hq
  · cases hq

theorem reached_of_mem_following_stmt {s : Stmt} (h : r.Reached fresh (.stmt s) m)
    (hq : q ∈ r.following fresh m (.stmt s)) : r.Reached q.fresh q.task q.moment := by
  cases s with
  | missing => cases hq
  | set span target e =>
    cases target with
    | none => cases hq
    | some x =>
      obtain rfl := List.mem_singleton.mp hq
      exact h.value
  | branch span c t e =>
    obtain rfl | hq := List.mem_cons.mp hq
    · exact h.condition
    · obtain ⟨v, w, hc, hq⟩ := mem_onOk hq
      obtain rfl := List.mem_singleton.mp hq
      cases htruthy : v.isTruthy with
      | true => exact h.thenBlock hc htruthy
      | false => exact h.elseBlock hc htruthy
  | times span count b =>
    obtain hq | hq := List.mem_append.mp hq
    · cases count with
      | symbol s =>
        obtain rfl := List.mem_singleton.mp hq
        exact h.count
      | _ => cases hq
    · obtain ⟨frame, w, hstart, hq⟩ := mem_onOk hq
      obtain rfl := List.mem_singleton.mp hq
      exact h.loop hstart
  | call span callee args =>
    obtain rfl := List.mem_singleton.mp hq
    exact h.call

theorem reached_of_mem_following {t : Task} (h : r.Reached fresh t m) (hq : q ∈ r.following fresh m t) :
    r.Reached q.fresh q.task q.moment := by
  cases t with
  | body stmts =>
    cases stmts with
    | nil => cases hq
    | cons s rest =>
      obtain rfl | hq := List.mem_cons.mp hq
      · exact h.first
      · obtain ⟨v, w, hs, hq⟩ := mem_onOk hq
        obtain rfl := List.mem_singleton.mp hq
        exact h.next hs
  | stmt s => exact reached_of_mem_following_stmt h hq
  | block b =>
    cases b with
    | missing => cases hq
    | of span body =>
      obtain rfl := List.mem_singleton.mp hq
      exact h.block
  | loop b frame =>
    rw [following] at hq
    split at hq
    · cases hq
    · next hdone =>
      have hdone : frame.done = false := by simpa using hdone
      obtain ⟨⟨⟩, w, hpoll, hq⟩ := mem_onOk hq
      obtain rfl | hq := List.mem_cons.mp hq
      · exact h.pass hdone hpoll
      · obtain ⟨v, w', hb, hq⟩ := mem_onOk hq
        obtain rfl := List.mem_singleton.mp hq
        exact h.again hdone hpoll hb
  | expr e =>
    cases e with
    | call span callee args =>
      obtain rfl | hq := List.mem_cons.mp hq
      · exact h.callee
      · obtain ⟨f, w, hf, hq⟩ := mem_onOk hq
        obtain rfl | hq := List.mem_cons.mp hq
        · exact h.args hf
        · obtain ⟨vs, w', hvs, hq⟩ := mem_onOk hq
          exact reached_of_mem_entry h hf hvs hq
    | _ => cases hq
  | args es =>
    cases es with
    | nil => cases hq
    | cons e es =>
      obtain rfl | hq := List.mem_cons.mp hq
      · exact h.arg
      · obtain ⟨v, w, he, hq⟩ := mem_onOk hq
        obtain rfl := List.mem_singleton.mp hq
        exact h.nextArg he
  | closure c =>
    obtain rfl := List.mem_singleton.mp hq
    exact h.inside

/-- What the run comes to in so many steps. -/
def frontier (r : Run) : Nat → List Waypoint
  | 0 => [⟨true, .body r.program.body, r.origin⟩]
  | n + 1 => (r.frontier n).flatMap fun p => r.following p.fresh p.moment p.task

theorem reached_of_mem_frontier (n : Nat) {p : Waypoint} (hp : p ∈ r.frontier n) :
    r.Reached p.fresh p.task p.moment := by
  induction n generalizing p with
  | zero =>
    obtain rfl := List.mem_singleton.mp hp
    exact .start
  | succ n ih =>
    obtain ⟨q, hq, hp⟩ := List.mem_flatMap.mp hp
    exact reached_of_mem_following (ih hq) hp

/-- The run comes to nothing else. -/
theorem Reached.mem_frontier {t : Task} (h : r.Reached fresh t m) : ∃ n, ⟨fresh, t, m⟩ ∈ r.frontier n := by
  have hnext {fresh fresh' : Bool} {t t' : Task} {m m' : Moment}
      (h : ∃ n, ⟨fresh, t, m⟩ ∈ r.frontier n) (hmem : ⟨fresh', t', m'⟩ ∈ r.following fresh m t) :
      ∃ n, ⟨fresh', t', m'⟩ ∈ r.frontier n := by
    obtain ⟨n, hn⟩ := h
    exact ⟨n + 1, List.mem_flatMap.mpr ⟨_, hn, hmem⟩⟩
  induction h with
  | start => exact ⟨0, List.mem_singleton.mpr rfl⟩
  | first _ ih => exact hnext ih (by simp [following])
  | next _ hs ih => exact hnext ih (by simp [following, hs, onOk])
  | block _ ih => exact hnext ih (by simp [following])
  | value _ ih => exact hnext ih (by simp [following])
  | condition _ ih => exact hnext ih (by simp [following])
  | thenBlock _ hc htruthy ih => exact hnext ih (by simp [following, hc, htruthy, onOk])
  | elseBlock _ hc htruthy ih => exact hnext ih (by simp [following, hc, htruthy, onOk])
  | count _ ih => exact hnext ih (by simp [following])
  | loop _ hstart ih => exact hnext ih (by simp [following, hstart, onOk])
  | pass _ hdone hpoll ih => exact hnext ih (by simp [following, hdone, hpoll, onOk])
  | again _ hdone hpoll hb ih => exact hnext ih (by simp [following, hdone, hpoll, hb, onOk])
  | call _ ih => exact hnext ih (by simp [following])
  | callee _ ih => exact hnext ih (by simp [following])
  | args _ hf ih => exact hnext ih (by simp [following, hf, onOk])
  | arg _ ih => exact hnext ih (by simp [following])
  | nextArg _ hu ih => exact hnext ih (by simp [following, hu, onOk])
  | enter _ hleft hf hvs harity hpoll hopen ih =>
    exact hnext ih (by simp [following, entry, hleft, hf, hvs, harity, hpoll, hopen, onOk])
  | inside _ ih => exact hnext ih (by simp [following])

/-- What the run comes to in less than so many steps. -/
def explored (r : Run) (n : Nat) : List Waypoint := (List.range n).flatMap r.frontier

theorem reached_of_mem_explored {n : Nat} {p : Waypoint} (hp : p ∈ r.explored n) :
    r.Reached p.fresh p.task p.moment := by
  obtain ⟨k, -, hp⟩ := List.mem_flatMap.mp hp
  exact reached_of_mem_frontier k hp

theorem frontier_eq_nil {n k : Nat} (h : r.frontier n = []) (hk : n ≤ k) : r.frontier k = [] := by
  induction hk with
  | refl => exact h
  | step _ ih => rw [frontier, ih, List.flatMap_nil]

theorem Reached.mem_explored {n : Nat} (hn : r.frontier n = []) {t : Task} (h : r.Reached fresh t m) :
    ⟨fresh, t, m⟩ ∈ r.explored n := by
  obtain ⟨k, hk⟩ := h.mem_frontier
  have hlt : k < n := by
    by_contra hle
    rw [frontier_eq_nil hn (Nat.le_of_not_lt hle)] at hk
    cases hk
  exact List.mem_flatMap.mpr ⟨k, List.mem_range.mpr hlt, hk⟩

/-- Where the statements start that the run is seen to execute, and whether it does so in a first
pass. -/
def executions (r : Run) (n : Nat) : List (Bool × Int) :=
  (r.explored n).filterMap fun p =>
    match p.task with
    | .stmt s => some (p.fresh, s.span.start)
    | _ => none

theorem executed_of_mem_executions {source : Bytes} (hread : Program.read source = .ok r.program)
    (hhost : r.setting.host = primitives) (hns : r.start.store.IsNamespace r.scope) {n : Nat}
    {fresh : Bool} {s : Stmt} (hs : s ∈ r.program.stmts)
    (h : (fresh, s.span.start) ∈ r.executions n) : r.Executed fresh s := by
  obtain ⟨⟨fresh', task, m⟩, hp, hsome⟩ := List.mem_filterMap.mp h
  have hreach := reached_of_mem_explored hp
  cases task with
  | stmt s' =>
    obtain ⟨rfl, hstart⟩ := Prod.mk.inj (Option.some.inj hsome)
    have hs' := hreach.mem_stmts hhost hns
    obtain rfl := List.inj_on_of_nodup_map (Program.read_starts_nodup hread) hs' hs hstart
    exact ⟨m, hreach⟩
  | _ => cases hsome

/-- The run ends and is seen to execute every statement; in a first pass, if that is asked for. -/
def isLive (r : Run) (first : Bool) (n : Nat) : Bool :=
  isOk (r.setting.evaluate r.scope (.program r.program) r.start) &&
    r.program.stmts.all fun s =>
      (r.executions n).any fun e => (e.1 || !first) && e.2 == s.span.start

theorem isLive_sound {source : Bytes} (hread : Program.read source = .ok r.program)
    (hhost : r.setting.host = primitives) (hns : r.start.store.IsNamespace r.scope) {first : Bool}
    {n : Nat} (h : r.isLive first n = true) :
    r.Ends ∧ ∀ s ∈ r.program.stmts, ∃ fresh, (first = true → fresh = true) ∧ r.Executed fresh s := by
  obtain ⟨hends, hall⟩ := Bool.and_eq_true_iff.mp h
  refine ⟨isOk_iff.mp hends, fun s hs => ?_⟩
  obtain ⟨⟨fresh, start⟩, hmem, he⟩ := List.any_eq_true.mp (List.all_eq_true.mp hall s hs)
  obtain ⟨hfirst, rfl⟩ : (first = true → fresh = true) ∧ start = s.span.start := by
    simpa [or_iff_not_imp_right] using he
  exact ⟨fresh, hfirst, executed_of_mem_executions hread hhost hns hs hmem⟩

/-- The names that the run is seen to set to functions, with their numbers of parameters. -/
def functionsSet (r : Run) (n : Nat) : List (Name × Nat) :=
  (r.explored n).filterMap fun p =>
    match p.task with
    | .stmt (.set _ (some x) e) =>
      match r.expr p.moment e with
      | .ok (.function c) _ => some (x.name, c.literal.arity)
      | _ => none
    | _ => none

/-- What the bodies of functions are seen to find outside of their scopes. -/
def foundOutside (r : Run) (n : Nat) : List (Name × Value) :=
  (r.explored n).filterMap fun p =>
    match p.task with
    | .expr (.symbol s) =>
      if p.moment.scope = r.scope ∨ (p.moment.world.store.lookup? p.moment.scope s.name).isSome then none
      else (p.moment.world.store.get? p.moment.scope s.name).map (s.name, ·)
    | _ => none

def isFunctionOf (params : Nat) : Value → Bool
  | .function c => c.literal.arity == params
  | _ => false

/-- The run is seen to its end, and to keep to the numbers of parameters. -/
def keepsArities (r : Run) (n : Nat) : Bool :=
  (r.frontier n).isEmpty && (r.functionsSet n).all fun f =>
    (r.foundOutside n).all fun v => f.1 != v.1 || isFunctionOf f.2 v.2

theorem keepsArities_sound {n : Nat} (h : r.keepsArities n = true) : r.KeepsArities := by
  obtain ⟨hend, hall⟩ := Bool.and_eq_true_iff.mp h
  have hend : r.frontier n = [] := List.isEmpty_iff.mp hend
  rintro x params v ⟨fresh, m, span, s, e, c, w, hset, rfl, he, rfl⟩ ⟨fresh', m', s', hsymbol, hname, hne,
    hlookup, hget⟩
  have hf : (s.name, c.literal.arity) ∈ r.functionsSet n :=
    List.mem_filterMap.mpr ⟨_, hset.mem_explored hend, by simp only [he]⟩
  have hv : (s.name, v) ∈ r.foundOutside n := by
    refine List.mem_filterMap.mpr ⟨_, hsymbol.mem_explored hend, ?_⟩
    simp [hname, hne, hlookup, hget]
  have hpair := List.all_eq_true.mp (List.all_eq_true.mp hall _ hf) _ hv
  cases v with
  | function c' => exact ⟨c', rfl, by simpa [isFunctionOf] using hpair⟩
  | _ => simp [isFunctionOf] at hpair

/-- The run of a source in a scope of its own inside the top level. -/
def ofSource (source : Bytes) (depth polls : Nat) : Run where
  setting := ⟨primitives, depth⟩
  program := (Program.read source).toOption.getD default
  scope := 1
  start := ⟨Store.empty.addTopLevel.extend 0 .empty, #[], polls⟩

variable {source : Bytes} {depth polls : Nat}

theorem ofSource_isNamespace :
    (ofSource source depth polls).start.store.IsNamespace (ofSource source depth polls).scope :=
  isNamespace_topLevel.extend (by simp)

theorem read_ofSource (depth polls : Nat) (h : (Program.read source).toOption.isSome) :
    Program.read source = .ok (ofSource source depth polls).program := by
  rw [ofSource]
  cases hp : Program.read source with
  | ok p => rfl
  | error d =>
    rw [hp] at h
    cases h

end Run

end Stepwise
