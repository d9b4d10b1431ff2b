import Stepwise.Proofs.Confinement

/-! Where a run executes the statements of its program. Every statement, at its place in the program,
goes with the moments at which it is executed while all loops around it in its body are in their first
pass. In a program that has been read no statement stands at two places, so a statement that the run
reaches in this way has such a moment at its own place. -/

namespace Stepwise

open Execution

/-- Moments at which a part of the program is before the run. -/
abbrev Moments := Moment → Prop

namespace Run

/-- The moments at which a statement has just been executed. -/
def after (r : Run) (s : Stmt) (M : Moments) : Moments := fun m' =>
  ∃ m v w, M m ∧ r.stmt m s = .ok v w ∧ m' = m.at w

/-- The moments at which a condition has just been found true, or false. -/
def decided (r : Run) (truthy : Bool) (c : Expr) (M : Moments) : Moments := fun m' =>
  ∃ m v w, M m ∧ r.expr m c = .ok v w ∧ v.isTruthy = truthy ∧ m' = m.at w

/-- The moments at which the first pass of a loop begins. -/
def firstPass (r : Run) (span : Span) (count : Expr) (b : Block) (M : Moments) : Moments := fun m' =>
  ∃ m frame w w', M m ∧ r.startLoop m span count b = .ok frame w ∧ frame.done = false ∧
    poll w = .ok () w' ∧ m' = m.at w'

/-- The moments at which a function has just been entered. -/
def called (r : Run) (l : Literal) : Moments := fun m =>
  ∃ c, c.literal = l ∧ r.Reached true (.closure c) m

end Run

mutual

/-- The statements of a tree with the moments at which they are executed in a first pass. -/
def Expr.occasions (r : Run) : Expr → List (Stmt × Moments)
  | .call _ callee args => callee.occasions r ++ Expr.occasionsOf r args
  | .function span params body => body.occasions r (r.called ⟨span, params, body⟩)
  | .missing | .symbol _ | .number _ _ | .boolean _ _ | .null _ | .string _ _ | .forever _ => []

def Expr.occasionsOf (r : Run) : List Expr → List (Stmt × Moments)
  | [] => []
  | e :: es => e.occasions r ++ Expr.occasionsOf r es

def Block.occasions (r : Run) (M : Moments) : Block → List (Stmt × Moments)
  | .missing => []
  | .of _ body => Stmt.occasionsOf r M body

def Stmt.occasions (r : Run) (M : Moments) : Stmt → List (Stmt × Moments)
  | .missing => [(.missing, M)]
  | .set span target value => (.set span target value, M) :: value.occasions r
  | .branch span condition thenBlock elseBlock =>
    (.branch span condition thenBlock elseBlock, M) ::
      (condition.occasions r ++ (thenBlock.occasions r (r.decided true condition M) ++
        elseBlock.occasions r (r.decided false condition M)))
  | .times span count body =>
    (.times span count body, M) ::
      (count.occasions r ++ body.occasions r (r.firstPass span count body M))
  | .call span callee args =>
    (.call span callee args, M) :: (callee.occasions r ++ Expr.occasionsOf r args)

def Stmt.occasionsOf (r : Run) (M : Moments) : List Stmt → List (Stmt × Moments)
  | [] => []
  | s :: rest => s.occasions r M ++ Stmt.occasionsOf r (r.after s M) rest

end

theorem Stmt.occasions_head (r : Run) (M : Moments) (s : Stmt) : (s, M) ∈ s.occasions r M := by
  cases s <;> rw [Stmt.occasions] <;> exact List.mem_cons_self

section Places

variable {r : Run}

mutual

theorem Expr.occasions_fst (e : Expr) : (e.occasions r).map Prod.fst = e.stmts := by
  cases e with
  | call span callee args =>
    rw [Expr.occasions, Expr.stmts, List.map_append, callee.occasions_fst, Expr.occasionsOf_fst args]
  | function span params body => rw [Expr.occasions, Expr.stmts, body.occasions_fst]
  | missing | symbol | number | boolean | null | string | forever =>
    rw [Expr.occasions, Expr.stmts, List.map_nil]
termination_by structural e

theorem Expr.occasionsOf_fst (es : List Expr) :
    (Expr.occasionsOf r es).map Prod.fst = Expr.stmtsOf es := by
  cases es with
  | nil => rfl
  | cons e es =>
    rw [Expr.occasionsOf, Expr.stmtsOf, List.map_append, e.occasions_fst, Expr.occasionsOf_fst es]
termination_by structural es

theorem Block.occasions_fst (b : Block) {M : Moments} :
    (b.occasions r M).map Prod.fst = b.stmts := by
  cases b with
  | missing => rfl
  | of span body => rw [Block.occasions, Block.stmts, Stmt.occasionsOf_fst body]
termination_by structural b

theorem Stmt.occasions_fst (s : Stmt) {M : Moments} : (s.occasions r M).map Prod.fst = s.stmts := by
  cases s with
  | missing => rfl
  | set span target value =>
    rw [Stmt.occasions, Stmt.stmts, List.map_cons, value.occasions_fst]
  | branch span condition thenBlock elseBlock =>
    rw [Stmt.occasions, Stmt.stmts, List.map_cons, List.map_append, List.map_append,
      condition.occasions_fst, thenBlock.occasions_fst, elseBlock.occasions_fst]
  | times span count body =>
    rw [Stmt.occasions, Stmt.stmts, List.map_cons, List.map_append, count.occasions_fst,
      body.occasions_fst]
  | call span callee args =>
    rw [Stmt.occasions, Stmt.stmts, List.map_cons, List.map_append, callee.occasions_fst,
      Expr.occasionsOf_fst args]
termination_by structural s

theorem Stmt.occasionsOf_fst (body : List Stmt) {M : Moments} :
    (Stmt.occasionsOf r M body).map Prod.fst = Stmt.stmtsOf body := by
  cases body with
  | nil => rfl
  | cons s rest =>
    rw [Stmt.occasionsOf, Stmt.stmtsOf, List.map_append, s.occasions_fst, Stmt.occasionsOf_fst rest]
termination_by structural body

end

variable {l : Literal} {names : List Name}

mutual

/-- The statements of a function of a tree are statements of the tree. -/
theorem Expr.occasions_nested (e : Expr) {around : List Name} (h : (l, names) ∈ e.functions around) :
    l.body.occasions r (r.called l) ⊆ e.occasions r := by
  cases e with
  | call span callee args =>
    rw [Expr.functions] at h
    rw [Expr.occasions]
    obtain h | h := List.mem_append.mp h
    · exact List.subset_append_of_subset_left _ (callee.occasions_nested h)
    · exact List.subset_append_of_subset_right _ (Expr.occasionsOf_nested args h)
  | function span params body =>
    rw [Expr.functions] at h
    rw [Expr.occasions]
    obtain h | h := List.mem_cons.mp h
    · cases h
      exact List.Subset.refl _
    · exact body.occasions_nested h
  | missing | symbol | number | boolean | null | string | forever =>
    rw [Expr.functions] at h
    cases h
termination_by structural e

theorem Expr.occasionsOf_nested (es : List Expr) {around : List Name}
    (h : (l, names) ∈ Expr.functionsOf around es) :
    l.body.occasions r (r.called l) ⊆ Expr.occasionsOf r es := by
  cases es with
  | nil => cases h
  | cons e es =>
    rw [Expr.functionsOf] at h
    rw [Expr.occasionsOf]
    obtain h | h := List.mem_append.mp h
    · exact List.subset_append_of_subset_left _ (e.occasions_nested h)
    · exact List.subset_append_of_subset_right _ (Expr.occasionsOf_nested es h)
termination_by structural es

theorem Block.occasions_nested (b : Block) {around : List Name} {M : Moments}
    (h : (l, names) ∈ b.functions around) : l.body.occasions r (r.called l) ⊆ b.occasions r M := by
  cases b with
  | missing => cases h
  | of span body =>
    rw [Block.functions] at h
    rw [Block.occasions]
    exact Stmt.occasionsOf_nested body h
termination_by structural b

theorem Stmt.occasions_nested (s : Stmt) {around : List Name} {M : Moments}
    (h : (l, names) ∈ s.functions around) : l.body.occasions r (r.called l) ⊆ s.occasions r M := by
  cases s with
  | missing => cases h
  | set span target value =>
    rw [Stmt.functions] at h
    rw [Stmt.occasions]
    exact List.subset_cons_of_subset _ (value.occasions_nested h)
  | branch span condition thenBlock elseBlock =>
    rw [Stmt.functions] at h
    rw [Stmt.occasions]
    refine List.subset_cons_of_subset _ ?_
    obtain h | h := List.mem_append.mp h
    · exact List.subset_append_of_subset_left _ (condition.occasions_nested h)
    · refine List.subset_append_of_subset_right _ ?_
      obtain h | h := List.mem_append.mp h
      · exact List.subset_append_of_subset_left _ (thenBlock.occasions_nested h)
      · exact List.subset_append_of_subset_right _ (elseBlock.occasions_nested h)
  | times span count body =>
    rw [Stmt.functions] at h
    rw [Stmt.occasions]
    refine List.subset_cons_of_subset _ ?_
    obtain h | h := List.mem_append.mp h
    · exact List.subset_append_of_subset_left _ (count.occasions_nested h)
    · exact List.subset_append_of_subset_right _ (body.occasions_nested h)
  | call span callee args =>
    rw [Stmt.functions] at h
    rw [Stmt.occasions]
    refine List.subset_cons_of_subset _ ?_
    obtain h | h := List.mem_append.mp h
    · exact List.subset_append_of_subset_left _ (callee.occasions_nested h)
    · exact List.subset_append_of_subset_right _ (Expr.occasionsOf_nested args h)
termination_by structural s

theorem Stmt.occasionsOf_nested (body : List Stmt) {around : List Name} {M : Moments}
    (h : (l, names) ∈ Stmt.functionsOf around body) :
    l.body.occasions r (r.called l) ⊆ Stmt.occasionsOf r M body := by
  cases body with
  | nil => cases h
  | cons s rest =>
    rw [Stmt.functionsOf] at h
    rw [Stmt.occasionsOf]
    obtain h | h := List.mem_append.mp h
    · exact List.subset_append_of_subset_left _ (s.occasions_nested h)
    · exact List.subset_append_of_subset_right _ (Stmt.occasionsOf_nested rest h)
termination_by structural body

end

end Places

namespace Run

variable {r : Run}

def origin (r : Run) : Moment := ⟨r.setting.depth, r.scope, r.start⟩

def occasions (r : Run) : List (Stmt × Moments) := Stmt.occasionsOf r (· = r.origin) r.program.body

/-- A task stands at a place of the program, and a fresh one is before the run at that place. -/
def Placed (r : Run) (fresh : Bool) (m : Moment) : Task → Prop
  | .body stmts => ∃ M : Moments, (fresh = true → M m) ∧ Stmt.occasionsOf r M stmts ⊆ r.occasions
  | .stmt s => ∃ M : Moments, (fresh = true → M m) ∧ s.occasions r M ⊆ r.occasions
  | .block b => ∃ M : Moments, (fresh = true → M m) ∧ b.occasions r M ⊆ r.occasions
  | .loop b frame => ∃ M : Moments, (fresh = true → frame.done = false →
      ∀ w, poll m.world = .ok () w → M (m.at w)) ∧ b.occasions r M ⊆ r.occasions
  | .expr e => e.occasions r ⊆ r.occasions
  | .args es => Expr.occasionsOf r es ⊆ r.occasions
  | .closure c => c.literal.body.occasions r (r.called c.literal) ⊆ r.occasions

/-- A run stays at places of the program. -/
theorem Reached.placed (hhost : r.setting.host = primitives) (hns : r.start.store.IsNamespace r.scope)
    {fresh : Bool} {t : Task} {m : Moment} (h : r.Reached fresh t m) : r.Placed fresh m t := by
  have hfits {fresh : Bool} {t : Task} {m : Moment} (h : r.Reached fresh t m) := h.confines hhost hns
  induction h with
  | start => exact ⟨(· = r.origin), fun _ => rfl, List.Subset.refl _⟩
  | first _ ih =>
    obtain ⟨M, hM, hsub⟩ := ih
    rw [Stmt.occasionsOf, List.append_subset] at hsub
    exact ⟨M, hM, hsub.1⟩
  | next _ hs ih =>
    obtain ⟨M, hM, hsub⟩ := ih
    rw [Stmt.occasionsOf, List.append_subset] at hsub
    exact ⟨_, fun hfresh => ⟨_, _, _, hM hfresh, hs, rfl⟩, hsub.2⟩
  | block _ ih =>
    obtain ⟨M, hM, hsub⟩ := ih
    rw [Block.occasions] at hsub
    exact ⟨M, hM, hsub⟩
  | value _ ih =>
    obtain ⟨M, -, hsub⟩ := ih
    rw [Stmt.occasions] at hsub
    exact (List.cons_subset.mp hsub).2
  | condition _ ih =>
    obtain ⟨M, -, hsub⟩ := ih
    rw [Stmt.occasions] at hsub
    exact (List.append_subset.mp (List.cons_subset.mp hsub).2).1
  | thenBlock _ hc htruthy ih =>
    obtain ⟨M, hM, hsub⟩ := ih
    rw [Stmt.occasions] at hsub
    have hblocks := List.append_subset.mp (List.append_subset.mp (List.cons_subset.mp hsub).2).2
    exact ⟨_, fun hfresh => ⟨_, _, _, hM hfresh, hc, htruthy, rfl⟩, hblocks.1⟩
  | elseBlock _ hc htruthy ih =>
    obtain ⟨M, hM, hsub⟩ := ih
    rw [Stmt.occasions] at hsub
    have hblocks := List.append_subset.mp (List.append_subset.mp (List.cons_subset.mp hsub).2).2
    exact ⟨_, fun hfresh => ⟨_, _, _, hM hfresh, hc, htruthy, rfl⟩, hblocks.2⟩
  | count _ ih =>
    obtain ⟨M, -, hsub⟩ := ih
    rw [Stmt.occasions] at hsub
    exact (List.append_subset.mp (List.cons_subset.mp hsub).2).1
  | loop _ hstart ih =>
    obtain ⟨M, hM, hsub⟩ := ih
    rw [Stmt.occasions] at hsub
    refine ⟨_, fun hfresh hdone w hpoll => ⟨_, _, _, w, hM hfresh, hstart, hdone, hpoll, rfl⟩,
      (List.append_subset.mp (List.cons_subset.mp hsub).2).2⟩
  | pass _ hdone hpoll ih =>
    obtain ⟨M, hM, hsub⟩ := ih
    exact ⟨M, fun hfresh => hM hfresh hdone _ hpoll, hsub⟩
  | again _ _ _ _ ih =>
    -- a later pass is not fresh, so it is at the place but at none of the moments
    obtain ⟨M, -, hsub⟩ := ih
    exact ⟨M, nofun, hsub⟩
  | call _ ih =>
    obtain ⟨M, -, hsub⟩ := ih
    rw [Stmt.occasions] at hsub
    rw [Placed, Expr.occasions]
    exact (List.cons_subset.mp hsub).2
  | callee _ ih =>
    rw [Placed, Expr.occasions] at ih
    exact (List.append_subset.mp ih).1
  | args _ _ ih =>
    rw [Placed, Expr.occasions] at ih
    exact (List.append_subset.mp ih).2
  | arg _ ih =>
    rw [Placed, Expr.occasionsOf] at ih
    exact (List.append_subset.mp ih).1
  | nextArg _ _ ih =>
    rw [Placed, Expr.occasionsOf] at ih
    exact (List.append_subset.mp ih).2
  | enter h hleft hf hvs harity hpoll hopen _ =>
    -- the place is where the function is written, and not where it is called
    obtain ⟨own, -, hentered⟩ := hfits (h.enter hleft hf hvs harity hpoll hopen)
    exact Stmt.occasionsOf_nested r.program.body hentered.written
  | inside h ih =>
    refine ⟨_, fun hfresh => ⟨_, rfl, ?_⟩, ih⟩
    subst hfresh
    exact h

theorem Reached.mem_stmts (hhost : r.setting.host = primitives)
    (hns : r.start.store.IsNamespace r.scope) {fresh : Bool} {s : Stmt} {m : Moment}
    (h : r.Reached fresh (.stmt s) m) : s ∈ r.program.stmts := by
  obtain ⟨M, -, hsub⟩ := h.placed hhost hns
  have hmem := List.mem_map_of_mem (f := Prod.fst) (hsub (s.occasions_head r M))
  rwa [occasions, Stmt.occasionsOf_fst] at hmem

/-- Every statement of the program has a moment at its place, if each of them is executed in a first
pass. -/
theorem occasions_nonempty (hhost : r.setting.host = primitives)
    (hns : r.start.store.IsNamespace r.scope) (hnodup : r.program.stmts.Nodup)
    (hlive : ∀ s ∈ r.program.stmts, r.Executed true s) :
    ∀ q ∈ r.occasions, ∃ m, q.2 m := by
  have hfst : r.occasions.map Prod.fst = r.program.stmts := Stmt.occasionsOf_fst r.program.body
  rintro ⟨s, M⟩ hq
  obtain ⟨m, hm⟩ := hlive s (hfst ▸ List.mem_map_of_mem hq)
  obtain ⟨M', hM', hsub⟩ := hm.placed hhost hns
  have hq' : (s, M') ∈ r.occasions := hsub (s.occasions_head r M')
  have heq := List.inj_on_of_nodup_map (hfst ▸ hnodup) hq hq' rfl
  exact ⟨m, congrArg Prod.snd heq ▸ hM' rfl⟩

end Run

end Stepwise
