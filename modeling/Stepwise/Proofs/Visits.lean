import Stepwise.Proofs.Coverage
import Stepwise.Proofs.Findings

/-! The visit of a body by the check, next to the run. Where the check knows the scopes that the run
comes to a body in, and the run comes to every statement of the body while the loops around it are in
their first pass, the check gets through the body and knows the scopes the run leaves it with. -/

namespace Stepwise

open Execution Finding

/-- What a scratch scope knows to be a function, the run sets to such a function. -/
def CheckState.Justified (c : CheckState) (r : Run) : Prop :=
  ∀ i x l, (c.bindings i).get? x = some (.known (.function l)) → r.SetsFunction x l.literal.arity

namespace CheckState

variable {c c' : CheckState} {r : Run} {S : ScratchId} {t : Task}

theorem Justified.of_scopes (h : c.Justified r) (hs : c'.scopes = c.scopes) : c'.Justified r := by
  intro i x l hl
  rw [bindings_congr (c := c) (by rw [hs])] at hl
  exact h i x l hl

theorem Justified.set (h : c.Justified r) (hS : S < c.scopes.size) {x : Name} {f : Finding}
    (hf : ∀ l, f = .known (.function l) → r.SetsFunction x l.literal.arity) :
    (c.set S x f).Justified r := by
  intro i y l hl
  by_cases hi : i = S
  · subst hi
    rw [get?_set hS] at hl
    split at hl
    · next hy =>
      cases hl
      exact hy ▸ hf l rfl
    · exact h i y l hl
  · rw [bindings_congr (getElem?_set_of_ne hi c x f)] at hl
    exact h i y l hl

theorem Justified.extend (h : c.Justified r) {b : Bindings Finding} (outer : List ScratchId)
    (hb : ∀ x f, b.get? x = some f → f = .unknown) : (c.extend outer b).Justified r := by
  intro i x l hl
  obtain hi | rfl | hi := Nat.lt_trichotomy i c.scopes.size
  · rw [bindings_congr (getElem?_extend_of_lt hi outer b)] at hl
    exact h i x l hl
  · rw [bindings_extend_new] at hl
    cases hb x _ hl
  · have hnone : (c.extend outer b).scopes[i]? = none := by
      rw [Array.getElem?_eq_none_iff, size_extend]
      exact hi
    rw [bindings, hnone] at hl
    cases hl

theorem Justified.leave (h : c.Justified r) (hS : S < c.scopes.size) (inner : ScratchId) :
    (c.leave S inner).Justified r := by
  intro i x l hl
  by_cases hi : i = S
  · subst hi
    rw [CheckState.leave, get?_forgetAll hS] at hl
    split at hl
    · cases hl
    · exact h i x l hl
  · rw [CheckState.leave, bindings_congr (getElem?_forgetAll_of_ne hi c _)] at hl
    exact h i x l hl

theorem get?_extend_new (h : c.Rooted S) (b : Bindings Finding) (ground : Ground) (x : Name) :
    (c.extend (c.chain S) b).get? ground c.scopes.size x = (b.get? x).or (c.get? ground S x) := by
  rw [get?_eq, get?_eq, find_extend_new h, Option.or_assoc]

end CheckState

namespace Run

variable {r : Run} {functions : Name → Nat → Prop} {c c' : CheckState} {S : ScratchId} {m : Moment}
  {M : Moments} {t : Task} {w : World}

/-- What the check knows of a scope after it has visited a part of the body there. -/
theorem Known.visited (h : r.Known functions c S m) (hv : c.Visited S t c') (hc : c.Rooted S)
    (hsame : ∀ x, x ∉ t.assigned → SameAt m.scope x m.world.store w.store)
    (hnew : ∀ x, x ∈ t.assigned → ∀ v, w.store.get? m.scope x = some v →
      ∃ f, (c'.bindings S).get? x = some f ∧ f.Covers v) : r.Known functions c' S (m.at w) := by
  refine ⟨fun x v hget => ?_, h.minds⟩
  rw [m.at_scope, m.at_world] at hget ⊢
  by_cases hx : x ∈ t.assigned
  · obtain ⟨f, hf, hcovers⟩ := hnew x hx v hget
    exact ⟨f, CheckState.get?_eq_of_bound (hv.rooted hc).1 r.ground hf, .inl hcovers⟩
  · obtain ⟨hget', hlookup⟩ := hsame x hx
    rw [hv.get?_kept hc r.ground hx, hlookup]
    exact h.agrees x v (hget' ▸ hget)

theorem Known.of_store (h : r.Known functions c S m) (hw : w.store = m.world.store) :
    r.Known functions c S (m.at w) :=
  h.of_scopes rfl fun x => by
    rw [hw]
    exact ⟨rfl, rfl⟩

theorem Known.clouded (h : r.Known functions c S m) (hv : c.Visited S t c') (hc : c.Rooted S)
    (hsame : ∀ x, x ∉ t.assigned → SameAt m.scope x m.world.store w.store)
    (hclouded : ∀ x ∈ t.assigned, (c'.bindings S).get? x = some .unknown) :
    r.Known functions c' S (m.at w) :=
  h.visited hv hc hsame fun x hx _ _ => ⟨.unknown, hclouded x hx, trivial⟩

theorem Known.extend (h : r.Known functions c S m) (hc : c.Rooted S) :
    r.Known functions (c.extend (c.chain S) .empty) c.scopes.size m := by
  refine ⟨fun x v hget => ?_, h.minds⟩
  rw [CheckState.get?_extend_new hc]
  exact h.agrees x v hget

/-- A part of the program that the check comes to, with moments at which the run comes to it in scopes
that the check knows. -/
structure Watched (r : Run) (functions : Name → Nat → Prop) (t : Task) (M : Moments) (c : CheckState)
    (S : ScratchId) : Prop where
  rooted : c.Rooted S
  justified : c.Justified r
  reached : ∀ m, M m → r.Reached true t m
  known : ∀ m, M m → r.Known functions c S m

structure Passes (r : Run) (t : Task) (c : CheckState) (S : ScratchId) (c' : CheckState) : Prop where
  visited : c.Visited S t c'
  justified : c'.Justified r

/-- The check gets through a block wherever it is watched. -/
def BlockQuiet (r : Run) (functions : Name → Nat → Prop) (b : Block) (M : Moments) : Prop :=
  ∀ {c : CheckState} {S : ScratchId}, r.Watched functions (.block b) M c S →
    ∃ f c', checkBlock r.ground S b c = .ok f c' ∧ r.Passes (.block b) c S c'

/-- The check gets through a statement, and knows the scopes that the run leaves it with. -/
def StmtQuiet (r : Run) (functions : Name → Nat → Prop) (s : Stmt) (M : Moments) (c : CheckState)
    (S : ScratchId) : Prop :=
  ∃ f c', checkStmt r.ground S s c = .ok f c' ∧ r.Passes (.stmt s) c S c' ∧
    ∀ m v w, M m → r.stmt m s = .ok v w → r.Known functions c' S (m.at w)

theorem count_quiet {span : Span} {count : Expr} {b : Block} {frame : LoopFrame}
    (hreach : r.Reached true (.stmt (.times span count b)) m) (h : r.Known functions c S m)
    (hstart : r.startLoop m span count b = .ok frame w) :
    b.isMissing = false ∧ checkCount r.ground S span count c = .ok () c := by
  rw [startLoop, Stepwise.startLoop.eq_def] at hstart
  obtain ⟨-, hstart⟩ | ⟨hpresent, hstart⟩ := ite_eq_ok hstart
  · exact (fail_ne_ok hstart).elim
  refine ⟨by simpa using hpresent, ?_⟩
  cases count with
  | symbol s =>
    obtain ⟨u, w₁, hu, hstart⟩ := bind_eq_ok hstart
    obtain ⟨f, hf, hcovers⟩ := lookup_covers hreach.count h hu
    rw [checkCount, checkExpr, bind_ok hf]
    cases f with
    | unknown => rfl
    | known u' =>
      obtain rfl | ⟨l, l', -, rfl, -⟩ := hcovers.cases
      · cases u with
        | integer n => rfl
        | _ => exact (fail_ne_ok hstart).elim
      · exact (fail_ne_ok hstart).elim
  | forever | number => rfl
  | _ => exact (fail_ne_ok hstart).elim

/-- The check visits a block in a scope of its own, and knows nothing of what it assigns afterwards. -/
theorem branch_quiet {b : Block} (hblock : r.BlockQuiet functions b M)
    (hw : r.Watched functions (.block b) M c S) :
    ∃ c', Checking.branch S (fun inner => checkBlock r.ground inner b) c = .ok () c' ∧
      r.Passes (.block b) c S c' ∧ ∀ x ∈ b.assigned, (c'.bindings S).get? x = some .unknown := by
  have hinner : r.Watched functions (.block b) M (c.extend (c.chain S) .empty) c.scopes.size :=
    ⟨hw.rooted.extend .empty, hw.justified.extend _ (by simp), hw.reached,
      fun m hm => (hw.known m hm).extend hw.rooted⟩
  obtain ⟨f, c₁, hcheck, hpasses⟩ := hblock hinner
  obtain ⟨hvisited, hunknown⟩ := hpasses.visited.leave hw.rooted.1
  have hsize : S < c₁.scopes.size :=
    Nat.lt_of_lt_of_le (Nat.lt_trans hw.rooted.1 (by simp)) hpasses.visited.size
  refine ⟨c₁.leave S c.scopes.size, ?_, ⟨hvisited, hpasses.justified.leave hsize _⟩, hunknown⟩
  exact bind_ok hcheck

theorem Watched.expr (hhost : r.setting.host = primitives) (hns : r.start.store.IsNamespace r.scope)
    {e : Expr} (hw : r.Watched functions (.expr e) M c S) {m₀ : Moment} (hm₀ : M m₀) {v₀ : Value}
    {w₀ : World} (he₀ : r.expr m₀ e = .ok v₀ w₀) :
    ∃ f c', checkExpr r.ground S e c = .ok f c' ∧ r.Passes (.expr e) c S c' ∧
      ∀ m v w, M m → r.expr m e = .ok v w → f.Covers v ∧ r.Known functions c' S (m.at w) := by
  obtain ⟨f, c', hcheck, hvisited, hscopes, -⟩ :=
    checkExpr_covers hhost hns e hw.rooted (hw.reached m₀ hm₀) (hw.known m₀ hm₀) he₀
  refine ⟨f, c', hcheck, ⟨hvisited, hw.justified.of_scopes hscopes⟩, fun m v w hm he => ?_⟩
  obtain ⟨f', c'', hcheck', -, -, hcovers⟩ :=
    checkExpr_covers hhost hns e hw.rooted (hw.reached m hm) (hw.known m hm) he
  cases hcheck.symm.trans hcheck'
  obtain ⟨own, hfits, -⟩ := (hw.reached m hm).confines hhost hns
  exact ⟨hcovers, (hw.known m hm).of_scopes hscopes (hfits.expr_same he)⟩

theorem set_quiet (hhost : r.setting.host = primitives) (hns : r.start.store.IsNamespace r.scope)
    {span : Span} {x : Symbol} {e : Expr} (hw : r.Watched functions (.stmt (.set span (some x) e)) M c S)
    {m₀ : Moment} (hm₀ : M m₀) {v₀ : Value} {w₀ : World}
    (hs₀ : r.stmt m₀ (.set span (some x) e) = .ok v₀ w₀) :
    r.StmtQuiet functions (.set span (some x) e) M c S := by
  obtain ⟨u₀, w₁, hpresent, he₀, -, -⟩ := set_cases hs₀
  obtain ⟨f, c₁, hcheck, hpasses, hcovers⟩ := Watched.expr hhost hns
    ⟨hw.rooted, hw.justified, fun m hm => (hw.reached m hm).value, hw.known⟩ hm₀ he₀
  have hvisited := hpasses.visited.assign hw.rooted.1 span x f.orNull
  have hS : S < c₁.scopes.size := (hpasses.visited.rooted hw.rooted).1
  refine ⟨f.orNull, c₁.set S x.name f.orNull, ?_, ⟨hvisited, ?_⟩, fun m v w hm hs => ?_⟩
  · rw [checkStmt, if_neg (by simp [hpresent])]
    exact (bind_ok hcheck).trans rfl
  · refine hpasses.justified.set hS fun l hl => ?_
    obtain rfl : f = .known (.function l) := by
      cases f with
      | unknown => cases hl
      | known u => cases u <;> cases hl; rfl
    obtain ⟨l', rfl, harity⟩ := (hcovers m₀ u₀ w₁ hm₀ he₀).1
    exact ⟨true, m₀, span, x, e, l', w₁, hw.reached m₀ hm₀, rfl, he₀, harity⟩
  · obtain ⟨u, w₁, -, he, rfl, rfl⟩ := set_cases hs
    obtain ⟨own, hfits, -⟩ := (hw.reached m hm).confines hhost hns
    obtain ⟨own', hevolves, -, -⟩ :=
      expr_lands hhost e (callsLand hhost m.left) (hfits.part Task.value_partOf) he
    have hlt : m.scope < w₁.store.scopes.size :=
      Nat.lt_of_lt_of_le (hfits.confined.lt hfits.live) hevolves.size
    refine (hw.known m hm).visited hvisited hw.rooted (fun y hy => hfits.stmt_same hs hy) ?_
    intro y hy v hget
    obtain rfl : y = x.name := by simpa [Task.assigned, Stmt.assigned] using hy
    obtain rfl : u.orNull = v := Option.some.inj ((Store.get?_set_self hlt _ _).symm.trans hget)
    refine ⟨f.orNull, ?_, (hcovers m u w₁ hm he).1.orNull⟩
    rw [CheckState.get?_set hS, if_pos rfl]

theorem call_quiet (hhost : r.setting.host = primitives) (hns : r.start.store.IsNamespace r.scope)
    {span : Span} {callee : Expr} {args : List Expr}
    (hw : r.Watched functions (.stmt (.call span callee args)) M c S)
    {m₀ : Moment} (hm₀ : M m₀) {v₀ : Value} {w₀ : World}
    (hs₀ : r.stmt m₀ (.call span callee args) = .ok v₀ w₀) :
    r.StmtQuiet functions (.call span callee args) M c S := by
  have hexpr (m : Moment) : r.stmt m (.call span callee args) = r.expr m (.call span callee args) := by
    rw [stmt, evalStmt, expr]
  obtain ⟨f, c₁, hcheck, hpasses, hcovers⟩ := Watched.expr hhost hns
    ⟨hw.rooted, hw.justified, fun m hm => (hw.reached m hm).call, hw.known⟩ hm₀ (hexpr m₀ ▸ hs₀)
  exact ⟨f, c₁, by rw [checkStmt, hcheck], ⟨hpasses.visited.part Task.call_partOf (List.Subset.refl _),
    hpasses.justified⟩, fun m v w hm hs => (hcovers m v w hm (hexpr m ▸ hs)).2⟩

theorem times_quiet (hhost : r.setting.host = primitives) (hns : r.start.store.IsNamespace r.scope)
    {span : Span} {count : Expr} {b : Block}
    (hblock : r.BlockQuiet functions b (r.firstPass span count b M))
    (hw : r.Watched functions (.stmt (.times span count b)) M c S)
    {m₀ : Moment} (hm₀ : M m₀) {v₀ : Value} {w₀ : World}
    (hs₀ : r.stmt m₀ (.times span count b) = .ok v₀ w₀) :
    r.StmtQuiet functions (.times span count b) M c S := by
  obtain ⟨frame, w₁, hstart, -⟩ := times_cases hs₀
  obtain ⟨hpresent, hcount⟩ := count_quiet (hw.reached m₀ hm₀) (hw.known m₀ hm₀) hstart
  have hround : r.Watched functions (.block b) (r.firstPass span count b M) c S := by
    refine ⟨hw.rooted, hw.justified, ?_, ?_⟩
    · rintro _ ⟨m, frame, w, w', hm, hstart, hdone, hpoll, rfl⟩
      exact ((hw.reached m hm).loop hstart).pass hdone hpoll
    · rintro _ ⟨m, frame, w, w', hm, hstart, hdone, hpoll, rfl⟩
      exact (hw.known m hm).of_store ((poll_ok_store hpoll).trans (by rw [startLoop_world hstart]))
  obtain ⟨c', hbranch, hpasses, hclouded⟩ := branch_quiet hblock hround
  have hvisited : c.Visited S (.stmt (.times span count b)) c' :=
    hpasses.visited.part Task.round_partOf (by simp [Task.assigned, Stmt.assigned])
  refine ⟨.unknown, c', ?_, ⟨hvisited, hpasses.justified⟩, fun m v w hm hs => ?_⟩
  · rw [checkStmt, if_neg (by simp [hpresent])]
    exact (bind_ok hcount).trans ((bind_ok hbranch).trans rfl)
  · obtain ⟨own, hfits, -⟩ := (hw.reached m hm).confines hhost hns
    refine (hw.known m hm).clouded hvisited hw.rooted (fun x hx => hfits.stmt_same hs hx) ?_
    intro x hx
    exact hclouded x (by simpa [Task.assigned, Stmt.assigned] using hx)

theorem else_quiet {b : Block} {rest : Unit → Checking Finding}
    (hblock : r.BlockQuiet functions b M) (hw : r.Watched functions (.block b) M c S) :
    ∃ c', (if !b.isMissing then
        Checking.branch S (fun inner => checkBlock r.ground inner b) >>= rest else rest ()) c = rest () c' ∧
      r.Passes (.block b) c S c' ∧ ∀ x ∈ b.assigned, (c'.bindings S).get? x = some .unknown := by
  cases b with
  | missing => exact ⟨c, rfl, ⟨CheckState.visited_refl S c rfl, hw.justified⟩, by simp [Block.assigned]⟩
  | of span body =>
    obtain ⟨c', hbranch, hpasses⟩ := branch_quiet hblock hw
    exact ⟨c', bind_ok hbranch, hpasses⟩

theorem conditional_quiet (hhost : r.setting.host = primitives)
    (hns : r.start.store.IsNamespace r.scope) {span : Span} {condition : Expr} {t b : Block}
    (hthen : r.BlockQuiet functions t (r.decided true condition M))
    (helse : r.BlockQuiet functions b (r.decided false condition M))
    (hw : r.Watched functions (.stmt (.branch span condition t b)) M c S)
    {m₀ : Moment} (hm₀ : M m₀) {v₀ : Value} {w₀ : World}
    (hs₀ : r.stmt m₀ (.branch span condition t b) = .ok v₀ w₀) :
    r.StmtQuiet functions (.branch span condition t b) M c S := by
  obtain ⟨hcondition, ht, u₀, w₁, he₀, -⟩ := branch_cases hs₀
  obtain ⟨f, c₁, hcheck, hpasses, hcovers⟩ := Watched.expr hhost hns
    ⟨hw.rooted, hw.justified, fun m hm => (hw.reached m hm).condition, hw.known⟩ hm₀ he₀
  have hrooted₁ := hpasses.visited.rooted hw.rooted
  have hthenWatched : r.Watched functions (.block t) (r.decided true condition M) c₁ S := by
    refine ⟨hrooted₁, hpasses.justified, ?_, ?_⟩
    · rintro _ ⟨m, v, w, hm, he, htruthy, rfl⟩
      exact (hw.reached m hm).thenBlock he htruthy
    · rintro _ ⟨m, v, w, hm, he, -, rfl⟩
      exact (hcovers m v w hm he).2
  obtain ⟨c₂, hbranch, hpasses₂, hclouded₂⟩ := branch_quiet hthen hthenWatched
  have helseWatched : r.Watched functions (.block b) (r.decided false condition M) c₂ S := by
    refine ⟨hpasses₂.visited.rooted hrooted₁, hpasses₂.justified, ?_, ?_⟩
    · rintro _ ⟨m, v, w, hm, he, htruthy, rfl⟩
      exact (hw.reached m hm).elseBlock he htruthy
    · rintro _ ⟨m, v, w, hm, he, -, rfl⟩
      exact (hcovers m v w hm he).2.clouded hpasses₂.visited hrooted₁ (fun _ _ => ⟨rfl, rfl⟩)
        hclouded₂
  obtain ⟨c₃, helse, hpasses₃, hclouded₃⟩ := else_quiet helse helseWatched
  have hblocks : c₁.Visited S (.stmt (.branch span condition t b)) c₃ :=
    hpasses₂.visited.trans hpasses₃.visited hrooted₁.1 Task.then_partOf Task.else_partOf
      (by simp [Task.assigned, Stmt.assigned])
  have hvisited : c.Visited S (.stmt (.branch span condition t b)) c₃ :=
    hpasses.visited.trans hblocks hw.rooted.1 Task.condition_partOf (.refl _)
      (List.subset_append_right _ _)
  refine ⟨.unknown, c₃, ?_, ⟨hvisited, hpasses₃.justified⟩, fun m v w hm hs => ?_⟩
  · rw [checkStmt, if_neg (by simp [hcondition, ht])]
    exact (bind_ok hcheck).trans ((bind_ok hbranch).trans helse)
  · obtain ⟨own, hfits, -⟩ := (hw.reached m hm).confines hhost hns
    refine (hw.known m hm).clouded hvisited hw.rooted (fun x hx => hfits.stmt_same hs hx) ?_
    intro x hx
    by_cases hb : x ∈ b.assigned
    · exact hclouded₃ x hb
    · rw [hpasses₃.visited.kept x hb]
      have hx : x ∈ t.assigned ∨ x ∈ b.assigned := by simpa [Task.assigned, Stmt.assigned] using hx
      exact hclouded₂ x (hx.resolve_right hb)

mutual

/-- The check gets through a statement that the run executes, as all those in it. -/
theorem checkStmt_quiet (hends : r.Ends) (hhost : r.setting.host = primitives)
    (hns : r.start.store.IsNamespace r.scope) (s : Stmt) {M : Moments} {c : CheckState} {S : ScratchId}
    (hlive : ∀ q ∈ s.occasions r M, ∃ m, q.2 m) (hw : r.Watched functions (.stmt s) M c S) :
    r.StmtQuiet functions s M c S := by
  obtain ⟨m₀, hm₀⟩ := hlive _ (s.occasions_head r M)
  obtain ⟨v₀, w₀, hs₀⟩ := (hw.reached m₀ hm₀).completes hends
  cases s with
  | missing =>
    rw [stmt, evalStmt] at hs₀
    exact (fail_ne_ok hs₀).elim
  | set span target value =>
    cases target with
    | none =>
      rw [stmt, evalStmt] at hs₀
      exact (fail_ne_ok hs₀).elim
    | some x => exact set_quiet hhost hns hw hm₀ hs₀
  | branch span condition thenBlock elseBlock =>
    rw [Stmt.occasions] at hlive
    exact conditional_quiet hhost hns
      (checkBlock_quiet hends hhost hns thenBlock fun q hq => hlive q (by simp [hq]))
      (checkBlock_quiet hends hhost hns elseBlock fun q hq => hlive q (by simp [hq])) hw hm₀ hs₀
  | times span count body =>
    rw [Stmt.occasions] at hlive
    exact times_quiet hhost hns
      (checkBlock_quiet hends hhost hns body fun q hq => hlive q (by simp [hq])) hw hm₀ hs₀
  | call span callee args => exact call_quiet hhost hns hw hm₀ hs₀
termination_by structural s

theorem checkBlock_quiet (hends : r.Ends) (hhost : r.setting.host = primitives)
    (hns : r.start.store.IsNamespace r.scope) (b : Block) {M : Moments}
    (hlive : ∀ q ∈ b.occasions r M, ∃ m, q.2 m) : r.BlockQuiet functions b M := by
  intro c S hw
  cases b with
  | missing => exact ⟨.known .absent, c, rfl, CheckState.visited_refl S c rfl, hw.justified⟩
  | of span body =>
    rw [Block.occasions] at hlive
    obtain ⟨f, c', hbody, hpasses⟩ := checkBody_quiet hends hhost hns body (.known .absent) hlive
      ⟨hw.rooted, hw.justified, fun m hm => (hw.reached m hm).block, hw.known⟩
    rw [checkBlock]
    exact ⟨f, c', hbody, hpasses.visited.part Task.body_partOf (List.Subset.refl _), hpasses.justified⟩
termination_by structural b

theorem checkBody_quiet (hends : r.Ends) (hhost : r.setting.host = primitives)
    (hns : r.start.store.IsNamespace r.scope) (body : List Stmt) (last : Finding) {M : Moments}
    {c : CheckState} {S : ScratchId} (hlive : ∀ q ∈ Stmt.occasionsOf r M body, ∃ m, q.2 m)
    (hw : r.Watched functions (.body body) M c S) :
    ∃ f c', checkBody r.ground S last body c = .ok f c' ∧ r.Passes (.body body) c S c' := by
  cases body with
  | nil => exact ⟨last, c, rfl, CheckState.visited_refl S c rfl, hw.justified⟩
  | cons s rest =>
    rw [Stmt.occasionsOf] at hlive
    have hcounted : r.Watched functions (.stmt s) M { c with visited := c.visited.push s } S :=
      ⟨hw.rooted, hw.justified, fun m hm => (hw.reached m hm).first,
        fun m hm => ⟨(hw.known m hm).agrees, (hw.known m hm).minds⟩⟩
    obtain ⟨f, c₁, hfirst, hpasses₁, hknown⟩ := checkStmt_quiet hends hhost hns s
      (fun q hq => hlive q (List.mem_append_left _ hq)) hcounted
    have hvisited₁ := hpasses₁.visited.of_visit
    have hrest : r.Watched functions (.body rest) (r.after s M) c₁ S := by
      refine ⟨hvisited₁.rooted hw.rooted, hpasses₁.justified, ?_, ?_⟩
      · rintro _ ⟨m, v, w, hm, hs, rfl⟩
        exact (hw.reached m hm).next hs
      · rintro _ ⟨m, v, w, hm, hs, rfl⟩
        exact hknown m v w hm hs
    obtain ⟨g, c₂, hbody, hpasses₂⟩ := checkBody_quiet hends hhost hns rest f
      (fun q hq => hlive q (List.mem_append_right _ hq)) hrest
    refine ⟨g, c₂, ?_, hvisited₁.trans hpasses₂.visited hw.rooted.1 Task.first_partOf
      Task.next_partOf ?_, hpasses₂.justified⟩
    · rw [checkBody]
      exact (bind_ok rfl).trans ((bind_ok hfirst).trans hbody)
    · simp only [Task.assigned, Stmt.assignedIn]
      exact List.Subset.refl _
termination_by structural body

end

end Run

end Stepwise
