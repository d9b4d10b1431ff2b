import Stepwise.Proofs.Inspection

/-! The tour of a check. It leads through the statements of a tree, each of them once: first those outside of
the bodies of functions, in the order in which they are written, then the bodies of the functions in turn.
The tree alone says where it goes; what the check finds on the way only says how far it gets. -/

namespace Stepwise

open Checking

mutual

/-- The functions of a tree that are not written in the body of another one, in their order. -/
def Expr.literals : Expr → List Literal
  | .call _ callee args => callee.literals ++ Expr.literalsOf args
  | .function span params body => [⟨span, params, body⟩]
  | .missing | .symbol _ | .number _ _ | .boolean _ _ | .null _ | .string _ _ | .forever _ => []

def Expr.literalsOf : List Expr → List Literal
  | [] => []
  | e :: es => e.literals ++ Expr.literalsOf es

end

mutual

def Block.literals : Block → List Literal
  | .missing => []
  | .of _ body => Stmt.literalsOf body

def Stmt.literals : Stmt → List Literal
  | .missing => []
  | .set _ _ value => value.literals
  | .branch _ condition thenBlock elseBlock =>
    condition.literals ++ (thenBlock.literals ++ elseBlock.literals)
  | .times _ count body => count.literals ++ body.literals
  | .call _ callee args => callee.literals ++ Expr.literalsOf args

def Stmt.literalsOf : List Stmt → List Literal
  | [] => []
  | s :: rest => s.literals ++ Stmt.literalsOf rest

end

mutual

/-- The statements of a tree that are not in the body of a function: one before those inside of it, a branch
before the other, and the body of a loop once. -/
def Block.outside : Block → List Stmt
  | .missing => []
  | .of _ body => Stmt.outsideOf body

/-- The statements inside of another one. -/
def Stmt.inside : Stmt → List Stmt
  | .branch _ _ thenBlock elseBlock => thenBlock.outside ++ elseBlock.outside
  | .times _ _ body => body.outside
  | .missing | .set _ _ _ | .call _ _ _ => []

def Stmt.outsideOf : List Stmt → List Stmt
  | [] => []
  | s :: rest => s :: (s.inside ++ Stmt.outsideOf rest)

end

namespace Visit

def functions (visits : List Visit) : Nat := visits.countP fun visit => visit.node.type? == some .function

theorem functions_append (xs ys : List Visit) : functions (xs ++ ys) = functions xs + functions ys :=
  List.countP_append

theorem functions_enter {n : Node} (hn : (n.type? == some .function) = false) (depth : Nat)
    (below : List Visit) : functions (enter (fun _ => true) depth n below) = functions below := by
  rw [enter, if_pos rfl, functions, List.countP_cons, hn]
  rfl

theorem functions_symbols (depth : Nat) (syms : List Symbol) :
    functions (symbols (fun _ => true) depth syms) = 0 := by
  induction syms with
  | nil => rfl
  | cons s syms ih =>
    rw [symbols, List.flatMap_cons, functions_append, ← symbols, ih, functions_enter rfl]
    rfl

theorem functions_params? (depth : Nat) (ps : Option Params) :
    functions (params? (fun _ => true) depth ps) = 0 := by
  cases ps with
  | none => rfl
  | some ps => rw [params?, params, functions_enter rfl, functions_symbols]

end Visit

/-- How many functions there are in a function, with itself. -/
def Literal.size (l : Literal) : Nat := Visit.functions (Visit.block (fun _ => true) 0 l.body) + 1

def Literal.sizes (ls : List Literal) : Nat := (ls.map Literal.size).sum

namespace Literal

@[simp] theorem sizes_nil : sizes [] = 0 := rfl

@[simp] theorem sizes_cons (l : Literal) (ls : List Literal) : sizes (l :: ls) = l.size + sizes ls := by
  simp [sizes]

@[simp] theorem sizes_append (ls ls' : List Literal) : sizes (ls ++ ls') = sizes ls + sizes ls' := by
  simp [sizes]

end Literal

namespace Visit

mutual

/-- All functions of a tree are in those that are not written in the body of another one. -/
theorem functions_expr (depth : Nat) (e : Expr) :
    functions (expr (fun _ => true) depth e) = Literal.sizes e.literals := by
  cases e with
  | missing | symbol | number | boolean | null | string | forever => rfl
  | call span callee args =>
    rw [expr, functions_enter rfl, functions_append, functions_expr (depth + 1) callee,
      functions_exprs (depth + 1) args, Expr.literals, Literal.sizes_append]
  | function span params body =>
    rw [expr, enter, if_pos rfl, functions, List.countP_cons, ← functions, functions_append,
      functions_params?, functions_block (depth + 1) body, Expr.literals, Literal.sizes_cons, Literal.size,
      functions_block 0 body, Nat.zero_add]
    rfl
termination_by structural e

theorem functions_exprs (depth : Nat) (es : List Expr) :
    functions (exprs (fun _ => true) depth es) = Literal.sizes (Expr.literalsOf es) := by
  cases es with
  | nil => rfl
  | cons e es =>
    rw [exprs, functions_append, functions_expr depth e, functions_exprs depth es, Expr.literalsOf,
      Literal.sizes_append]
termination_by structural es

theorem functions_block (depth : Nat) (b : Block) :
    functions (block (fun _ => true) depth b) = Literal.sizes b.literals := by
  cases b with
  | missing => rfl
  | of span body =>
    rw [block, functions_enter rfl, functions_stmts (depth + 1) body, Block.literals]
termination_by structural b

theorem functions_stmt (depth : Nat) (s : Stmt) :
    functions (stmt (fun _ => true) depth s) = Literal.sizes s.literals := by
  cases s with
  | missing => rfl
  | set span target value =>
    rw [stmt, functions_enter rfl, functions_append, functions_symbols,
      functions_expr (depth + 1) value, Stmt.literals, Nat.zero_add]
  | branch span condition thenBlock elseBlock =>
    rw [stmt, functions_enter rfl, functions_append, functions_append,
      functions_expr (depth + 1) condition, functions_block (depth + 1) thenBlock,
      functions_block (depth + 1) elseBlock, Stmt.literals, Literal.sizes_append, Literal.sizes_append,
      Nat.add_assoc]
  | times span count body =>
    rw [stmt, functions_enter rfl, functions_append, functions_expr (depth + 1) count,
      functions_block (depth + 1) body, Stmt.literals, Literal.sizes_append]
  | call span callee args =>
    rw [stmt, functions_enter rfl, functions_append, functions_expr (depth + 1) callee,
      functions_exprs (depth + 1) args, Stmt.literals, Literal.sizes_append]
termination_by structural s

theorem functions_stmts (depth : Nat) (body : List Stmt) :
    functions (stmts (fun _ => true) depth body) = Literal.sizes (Stmt.literalsOf body) := by
  cases body with
  | nil => rfl
  | cons s rest =>
    rw [stmts, functions_append, functions_stmt depth s, functions_stmts depth rest, Stmt.literalsOf,
      Literal.sizes_append]
termination_by structural body

end

end Visit

theorem Literal.size_eq (l : Literal) : l.size = sizes l.body.literals + 1 :=
  congrArg (· + 1) (Visit.functions_block 0 l.body)

theorem Literal.eq_nil_of_sizes {ls : List Literal} (h : sizes ls = 0) : ls = [] := by
  cases ls with
  | nil => rfl
  | cons l ls =>
    rw [sizes_cons, size_eq] at h
    omega

theorem Program.literalCount_eq (p : Program) :
    (Node.program p).literalCount = Literal.sizes (Stmt.literalsOf p.body) :=
  (Visit.functions_enter rfl 0 _).trans (Visit.functions_stmts 1 p.body)

/-- The functions of a queue in the order of their turns. Those in the body of one queue up when it has its
turn. -/
def Literal.inTurn : List Literal → List Literal
  | [] => []
  | l :: rest => l :: inTurn (rest ++ l.body.literals)
termination_by queue => sizes queue
decreasing_by
  rw [sizes_append, sizes_cons, size_eq]
  omega

/-- The statements in the bodies of functions that have their turns. -/
def Literal.tour (queue : List Literal) : List Stmt := (inTurn queue).flatMap fun l => l.body.outside

/-- Through the statements outside of the bodies of functions, and then through the bodies in turn. -/
def Program.tour (p : Program) : List Stmt :=
  Stmt.outsideOf p.body ++ Literal.tour (Stmt.literalsOf p.body)

namespace Literal

@[simp] theorem tour_nil : tour [] = [] := by
  rw [tour, inTurn, List.flatMap_nil]

theorem tour_cons (l : Literal) (queue : List Literal) :
    tour (l :: queue) = l.body.outside ++ tour (queue ++ l.body.literals) := by
  rw [tour, inTurn, List.flatMap_cons, ← tour]

/-- What the bodies of functions have for statements, in functions of their own as well. -/
def stmtsIn (ls : List Literal) : List Stmt := ls.flatMap fun l => l.body.stmts

theorem stmtsIn_append (ls ls' : List Literal) : stmtsIn (ls ++ ls') = stmtsIn ls ++ stmtsIn ls' :=
  List.flatMap_append

end Literal

section

open Literal

theorem perm_exchange {α : Type} (as bs cs ds : List α) :
    ((as ++ bs) ++ (cs ++ ds)).Perm ((as ++ cs) ++ (bs ++ ds)) := by
  rw [List.append_assoc, List.append_assoc]
  exact (List.perm_append_comm_assoc bs cs ds).append_left as

mutual

theorem Expr.stmts_perm (e : Expr) : e.stmts.Perm (stmtsIn e.literals) := by
  cases e with
  | missing | symbol | number | boolean | null | string | forever => exact .refl _
  | call span callee args =>
    rw [Expr.stmts, Expr.literals, stmtsIn_append]
    exact callee.stmts_perm.append (Expr.stmtsOf_perm args)
  | function span params body =>
    rw [Expr.stmts, Expr.literals, stmtsIn, List.flatMap_singleton]

theorem Expr.stmtsOf_perm (es : List Expr) : (Expr.stmtsOf es).Perm (stmtsIn (Expr.literalsOf es)) := by
  cases es with
  | nil => exact .refl _
  | cons e es =>
    rw [Expr.stmtsOf, Expr.literalsOf, stmtsIn_append]
    exact e.stmts_perm.append (Expr.stmtsOf_perm es)

end

mutual

/-- The statements of a tree are those outside of the bodies of functions and those in the bodies. -/
theorem Block.stmts_perm (b : Block) : b.stmts.Perm (b.outside ++ stmtsIn b.literals) := by
  cases b with
  | missing => exact .refl _
  | of span body =>
    rw [Block.stmts, Block.outside, Block.literals]
    exact Stmt.stmtsOf_perm body

theorem Stmt.stmts_perm (s : Stmt) : s.stmts.Perm (s :: (s.inside ++ stmtsIn s.literals)) := by
  cases s with
  | missing => exact .refl _
  | set span target value =>
    rw [Stmt.stmts, Stmt.inside, Stmt.literals]
    exact value.stmts_perm.cons _
  | branch span condition thenBlock elseBlock =>
    rw [Stmt.stmts, Stmt.inside, Stmt.literals, stmtsIn_append, stmtsIn_append]
    refine .cons _ ?_
    have hblocks := (thenBlock.stmts_perm.append elseBlock.stmts_perm).trans (perm_exchange _ _ _ _)
    exact (condition.stmts_perm.append hblocks).trans (List.perm_append_comm_assoc _ _ _)
  | times span count body =>
    rw [Stmt.stmts, Stmt.inside, Stmt.literals, stmtsIn_append]
    refine .cons _ ?_
    exact (count.stmts_perm.append body.stmts_perm).trans (List.perm_append_comm_assoc _ _ _)
  | call span callee args =>
    rw [Stmt.stmts, Stmt.inside, Stmt.literals, stmtsIn_append]
    exact (callee.stmts_perm.append (Expr.stmtsOf_perm args)).cons _

theorem Stmt.stmtsOf_perm (body : List Stmt) :
    (Stmt.stmtsOf body).Perm (Stmt.outsideOf body ++ stmtsIn (Stmt.literalsOf body)) := by
  cases body with
  | nil => exact .refl _
  | cons s rest =>
    rw [Stmt.stmtsOf, Stmt.outsideOf, Stmt.literalsOf, stmtsIn_append]
    exact (s.stmts_perm.append (Stmt.stmtsOf_perm rest)).trans (perm_exchange (s :: s.inside) _ _ _)

end

/-- A tour of the bodies of functions leads through all that is written in them. -/
theorem Literal.tour_perm (queue : List Literal) : (tour queue).Perm (stmtsIn queue) := by
  induction queue using inTurn.induct with
  | case1 =>
    rw [tour_nil]
    exact .refl _
  | case2 l rest ih =>
    rw [stmtsIn_append] at ih
    rw [tour_cons, stmtsIn, List.flatMap_cons, ← stmtsIn]
    have hrest : (tour (rest ++ l.body.literals)).Perm (stmtsIn l.body.literals ++ stmtsIn rest) :=
      ih.trans List.perm_append_comm
    refine (hrest.append_left l.body.outside).trans ?_
    rw [← List.append_assoc]
    exact l.body.stmts_perm.symm.append_right _

theorem Program.tour_perm (p : Program) : p.tour.Perm p.stmts :=
  ((Literal.tour_perm _).append_left _).trans (Stmt.stmtsOf_perm p.body).symm

end

namespace CheckState

def literals (c : CheckState) : List Literal := c.waiting.toList.map Waiting.literal

end CheckState

namespace Checking

variable {α β : Type} {g : Ground} {stmts stmts' : List Stmt} {ls ls' : List Literal}
  {c c' c'' : CheckState}

/-- However the check ends, the statements it visits are the first of `stmts`. When it passes, they are all of
them, and the functions it puts off are `ls`. -/
def Tours (stmts : List Stmt) (ls : List Literal) (x : Checking α) : Prop :=
  ∀ c, match x c with
    | .ok _ c' => c'.visited.toList = c.visited.toList ++ stmts ∧ c'.literals = c.literals ++ ls
    | .error _ c' => c'.visited.toList <+: c.visited.toList ++ stmts

theorem Tours.ok {x : Checking α} {a : α} (h : Tours stmts ls x) (hx : x c = .ok a c') :
    c'.visited.toList = c.visited.toList ++ stmts ∧ c'.literals = c.literals ++ ls := by
  have hc := h c
  rwa [hx] at hc

theorem Tours.error {x : Checking α} {f : Failure} (h : Tours stmts ls x) (hx : x c = .error f c') :
    c'.visited.toList <+: c.visited.toList ++ stmts := by
  have hc := h c
  rwa [hx] at hc

theorem Tours.bind {x : Checking α} {f : α → Checking β} (hx : Tours stmts ls x)
    (hf : ∀ a, Tours stmts' ls' (f a)) : Tours (stmts ++ stmts') (ls ++ ls') (x >>= f) := by
  intro c
  cases h : x c with
  | ok a c₁ =>
    obtain ⟨hvisited, hliterals⟩ := hx.ok h
    have hrest := hf a c₁
    rw [hvisited, hliterals, List.append_assoc, List.append_assoc] at hrest
    rwa [bind_ok h]
  | error e c₁ =>
    rw [bind_error h]
    exact (hx.error h).trans ⟨stmts', List.append_assoc _ _ _⟩

/-- The check visits no statement, and puts some functions off. -/
abbrev Defers (ls : List Literal) (x : Checking α) : Prop := Tours [] ls x

theorem Defers.bind {x : Checking α} {f : α → Checking β} (hx : Defers ls x)
    (hf : ∀ a, Tours stmts ls' (f a)) : Tours stmts (ls ++ ls') (x >>= f) :=
  Tours.bind hx hf

/-- The check goes nowhere and puts nothing off. -/
abbrev Stays (x : Checking α) : Prop := Defers [] x

theorem tours_throw (f : Failure) : Tours stmts ls (throw f : Checking α) :=
  fun _ => List.prefix_append _ _

theorem tours_fail (cause : Cause) (span : Span) : Tours stmts ls (fail cause span : Checking α) :=
  tours_throw _

theorem stays_of_ok {x : Checking α} (h : ∀ c, ∃ a c', x c = .ok a c' ∧ c'.visited = c.visited ∧
    c'.waiting = c.waiting) : Stays x := by
  intro c
  obtain ⟨a, c', hx, hvisited, hwaiting⟩ := h c
  rw [hx]
  simp [hvisited, CheckState.literals, hwaiting]

theorem stays_pure (a : α) : Stays (pure a : Checking α) := stays_of_ok fun c => ⟨a, c, rfl, rfl, rfl⟩

theorem Tours.bind_stays {x : Checking α} {f : α → Checking β} (hx : Tours stmts ls x)
    (hf : ∀ a, Stays (f a)) : Tours stmts ls (x >>= f) := by
  have h := hx.bind hf
  rwa [List.append_nil, List.append_nil] at h

theorem Stays.bind {x : Checking α} {f : α → Checking β} (hx : Stays x) (hf : ∀ a, Tours stmts ls (f a)) :
    Tours stmts ls (x >>= f) :=
  Defers.bind hx hf

theorem stays_modify {f : CheckState → CheckState} (h : ∀ c, (f c).visited = c.visited ∧
    (f c).waiting = c.waiting) : Stays (modify f) :=
  stays_of_ok fun c => ⟨(), f c, rfl, h c⟩

theorem stays_get : Stays (get : Checking CheckState) := stays_of_ok fun c => ⟨c, c, rfl, rfl, rfl⟩

theorem stays_openScope (outer : List ScratchId) (b : Bindings Finding) : Stays (openScope outer b) :=
  stays_of_ok fun _ => ⟨_, _, rfl, rfl, rfl⟩

theorem stays_lookup (S : ScratchId) (s : Symbol) : Stays (lookup g S s) := by
  intro c
  cases h : c.get? g S s.name with
  | some f =>
    have hlookup : lookup g S s c = .ok f c := by rw [lookup, h]
    rw [hlookup]
    exact stays_pure f c
  | none =>
    have hlookup : lookup g S s c = fail (.unbound s.name) s.span c := by
      rw [lookup, h]
      rfl
    have hfail : Stays (fail (.unbound s.name) s.span : Checking Finding) := tours_fail _ _
    rw [hlookup]
    exact hfail c

theorem defers_wait (literal : Literal) (S : ScratchId) : Defers [literal] (wait literal S) := by
  intro c
  simp [wait, CheckState.literals]

theorem tours_visit (s : Stmt) : Tours [s] [] (visit s) := by
  intro c
  simp [visit, CheckState.literals]

theorem tours_branch (S : ScratchId) {body : ScratchId → Checking Finding}
    (hbody : ∀ inner, Tours stmts ls (body inner)) : Tours stmts ls (branch S body) := by
  refine stays_get.bind fun c => (stays_openScope _ _).bind fun inner => ?_
  refine (hbody inner).bind_stays fun _ => stays_modify fun c' => ⟨?_, ?_⟩
  · exact CheckState.visited_forgetAll c' S _
  · exact CheckState.waiting_forgetAll c' S _

theorem stays_askNative (S : ScratchId) (span : Span) (n : Native) (args : List Value) :
    Stays (askNative g S span n args) := by
  intro c
  rw [askNative]
  cases (g.host n (c.shown g) (g.store.nextScope + S) args c.written).result with
  | ok v => exact ⟨(List.append_nil _).symm, (List.append_nil _).symm⟩
  | error f => exact List.prefix_append _ _

theorem stays_native (S : ScratchId) (span : Span) (n : Native) (fs : List Finding) :
    Stays (checkNative g S span n fs) := by
  rw [checkNative]
  split
  · cases Finding.values? fs with
    | none => exact stays_pure _
    | some vs => exact stays_askNative S span n vs
  · exact stays_pure _

theorem stays_apply (S : ScratchId) (span : Span) (callee : Finding) (fs : List Finding) :
    Stays (checkApply g S span callee fs) := by
  cases callee with
  | unknown => exact stays_pure _
  | known u =>
    rw [checkApply_known]
    cases Dispatch.of fs.length u with
    | native n => exact stays_native S span n fs
    | closure l => exact stays_pure _
    | refused cause => exact tours_fail cause span

mutual

theorem checkExpr_tours (S : ScratchId) (e : Expr) : Defers e.literals (checkExpr g S e) := by
  cases e with
  | missing | forever => exact tours_fail _ _
  | symbol s => exact stays_lookup S s
  | number | boolean | null | string => exact stays_pure _
  | function span params body =>
    rw [checkExpr]
    split
    · exact tours_fail _ _
    · exact (defers_wait _ S).bind_stays fun turn => stays_pure _
  | call span callee args =>
    rw [checkExpr]
    split
    · exact tours_fail _ _
    · refine (checkExpr_tours S callee).bind fun f => ?_
      exact (checkArgs_tours S args).bind_stays fun fs => stays_apply S span f fs
termination_by structural e

theorem checkArgs_tours (S : ScratchId) (es : List Expr) :
    Defers (Expr.literalsOf es) (checkArgs g S es) := by
  cases es with
  | nil => exact stays_pure _
  | cons e es =>
    rw [checkArgs]
    refine (checkExpr_tours S e).bind fun f => ?_
    exact (checkArgs_tours S es).bind_stays fun fs => stays_pure _
termination_by structural es

end

theorem checkCount_tours (S : ScratchId) (span : Span) (count : Expr) :
    Defers count.literals (checkCount g S span count) := by
  cases count with
  | missing | boolean | null | string | call | function => exact tours_fail _ _
  | forever | number => exact stays_pure _
  | symbol s =>
    refine (stays_lookup S s).bind fun f => ?_
    cases f with
    | unknown => exact stays_pure _
    | known v =>
      cases v with
      | integer n => exact stays_pure _
      | _ => exact tours_fail _ _

mutual

theorem checkStmt_tours (S : ScratchId) (s : Stmt) : Tours s.inside s.literals (checkStmt g S s) := by
  cases s with
  | missing => exact tours_fail _ _
  | set span target value =>
    cases target with
    | none => exact tours_fail _ _
    | some symbol =>
      rw [checkStmt]
      split
      · exact tours_fail _ _
      · have hassign (f : Finding) : Stays (assign S symbol.name f) :=
          stays_of_ok fun _ => ⟨_, _, rfl, rfl, rfl⟩
        exact (checkExpr_tours S value).bind_stays fun f => (hassign _).bind fun _ => stays_pure _
  | branch span condition thenBlock elseBlock =>
    rw [checkStmt]
    split
    · exact tours_fail _ _
    refine (checkExpr_tours S condition).bind fun _ => ?_
    refine (tours_branch S fun inner => checkBlock_tours inner thenBlock).bind fun _ => ?_
    cases elseBlock with
    | missing => exact stays_pure _
    | of span body =>
      exact (tours_branch S fun inner => checkBlock_tours inner (.of span body)).bind_stays fun _ =>
        stays_pure _
  | times span count body =>
    rw [checkStmt]
    split
    · exact tours_fail _ _
    refine (checkCount_tours S span count).bind fun _ => ?_
    exact (tours_branch S fun inner => checkBlock_tours inner body).bind_stays fun _ => stays_pure _
  | call span callee args =>
    rw [checkStmt]
    exact checkExpr_tours S (.call span callee args)
termination_by structural s

theorem checkBlock_tours (S : ScratchId) (b : Block) : Tours b.outside b.literals (checkBlock g S b) := by
  cases b with
  | missing => exact stays_pure _
  | of span body => exact checkBody_tours S (.known .absent) body
termination_by structural b

theorem checkBody_tours (S : ScratchId) (last : Finding) (body : List Stmt) :
    Tours (Stmt.outsideOf body) (Stmt.literalsOf body) (checkBody g S last body) := by
  cases body with
  | nil => exact stays_pure _
  | cons s rest =>
    rw [checkBody]
    refine Tours.bind (tours_visit s) fun _ => ?_
    exact (checkStmt_tours S s).bind fun f => checkBody_tours S f rest
termination_by structural body

end

theorem checkWaiting_tours (w : Waiting) :
    Tours w.literal.body.outside w.literal.body.literals (checkWaiting g w) := by
  have hforget : Stays (modify CheckState.forget) := stays_modify fun _ => ⟨rfl, rfl⟩
  refine hforget.bind fun _ => stays_get.bind fun c => ?_
  refine (stays_openScope _ _).bind fun inner => ?_
  exact (checkBlock_tours inner w.literal.body).bind_stays fun _ => stays_pure _

end Checking

namespace CheckState

variable {c : CheckState} {turn : Nat} {w : Waiting}

/-- The functions whose turns are still to come. -/
def queue (c : CheckState) (turn : Nat) : List Literal := c.literals.drop turn

theorem queue_eq_nil (h : c.waiting[turn]? = none) : c.queue turn = [] := by
  rw [queue, List.drop_eq_nil_iff, literals, List.length_map, Array.length_toList]
  exact Array.getElem?_eq_none_iff.mp h

theorem queue_eq_cons (h : c.waiting[turn]? = some w) :
    c.queue turn = w.literal :: c.queue (turn + 1) := by
  have hturn : c.literals[turn]? = some w.literal := by simp [literals, h]
  obtain ⟨hlt, hget⟩ := List.getElem?_eq_some_iff.mp hturn
  rw [queue, List.drop_eq_getElem_cons hlt, hget, queue]

end CheckState

namespace Checking

variable {g : Ground} {c c' : CheckState} {turn : Nat} {w : Waiting}

/-- A body that has its turn adds its own functions to the end of the queue. -/
theorem queue_checkWaiting (hw : c.waiting[turn]? = some w) (h : checkWaiting g w c = .ok () c') :
    c'.queue (turn + 1) = c.queue (turn + 1) ++ w.literal.body.literals := by
  obtain ⟨hlt, -⟩ := Array.getElem?_eq_some_iff.mp hw
  rw [CheckState.queue, ((checkWaiting_tours w).ok h).2, CheckState.queue]
  refine List.drop_append_of_le_length ?_
  rwa [CheckState.literals, List.length_map, Array.length_toList]

/-- The turns can't go on for ever: each takes the function that has it out of those still to come. -/
theorem sizes_queue_checkWaiting (hw : c.waiting[turn]? = some w) (h : checkWaiting g w c = .ok () c') :
    Literal.sizes (c'.queue (turn + 1)) + 1 = Literal.sizes (c.queue turn) := by
  rw [queue_checkWaiting hw h, CheckState.queue_eq_cons hw, Literal.sizes_append, Literal.sizes_cons,
    Literal.size_eq]
  omega

theorem checkAllWaiting_tours (bodies turn : Nat) (c : CheckState)
    (hbodies : Literal.sizes (c.queue turn) ≤ bodies) :
    match checkAllWaiting g bodies turn c with
    | .ok _ c' => c'.visited.toList = c.visited.toList ++ Literal.tour (c.queue turn)
    | .error _ c' => c'.visited.toList <+: c.visited.toList ++ Literal.tour (c.queue turn) := by
  induction bodies generalizing turn c with
  | zero =>
    rw [Literal.eq_nil_of_sizes (Nat.le_zero.mp hbodies), Literal.tour_nil]
    exact (List.append_nil _).symm
  | succ bodies ih =>
    obtain ⟨hnone, hx⟩ | ⟨w, hw, hx⟩ := checkAllWaiting_cases g bodies turn c
    · rw [hx, CheckState.queue_eq_nil hnone, Literal.tour_nil]
      exact (List.append_nil _).symm
    · rw [hx, CheckState.queue_eq_cons hw, Literal.tour_cons]
      cases hbody : checkWaiting g w c with
      | error f c₁ =>
        rw [bind_error hbody]
        refine ((checkWaiting_tours w).error hbody).trans ?_
        rw [← List.append_assoc]
        exact List.prefix_append _ _
      | ok a c₁ =>
        have hsizes := sizes_queue_checkWaiting hw hbody
        have hrest := ih (turn + 1) c₁ (by omega)
        rw [bind_ok hbody]
        rwa [queue_checkWaiting hw hbody, ((checkWaiting_tours w).ok hbody).1, List.append_assoc] at hrest

/-- When the turns are over, there is nothing left to do. -/
theorem checkAllWaiting_more (bodies more turn : Nat) (c : CheckState)
    (hbodies : Literal.sizes (c.queue turn) ≤ bodies) :
    checkAllWaiting g (bodies + more) turn c = checkAllWaiting g bodies turn c := by
  induction bodies generalizing turn c with
  | zero =>
    cases more with
    | zero => rfl
    | succ more =>
      obtain ⟨-, hx⟩ | ⟨w, hw, -⟩ := checkAllWaiting_cases g more turn c
      · rw [Nat.zero_add, hx]
        rfl
      · rw [CheckState.queue_eq_cons hw, Literal.sizes_cons, Literal.size_eq] at hbodies
        omega
  | succ bodies ih =>
    rw [Nat.add_right_comm]
    obtain ⟨hnone, hx⟩ | ⟨w, hw, hx⟩ := checkAllWaiting_cases g bodies turn c
    · obtain ⟨-, hx'⟩ | ⟨w, hw, -⟩ := checkAllWaiting_cases g (bodies + more) turn c
      · rw [hx, hx']
      · rw [hnone] at hw
        cases hw
    · obtain ⟨hnone, -⟩ | ⟨w', hw', hx'⟩ := checkAllWaiting_cases g (bodies + more) turn c
      · rw [hnone] at hw
        cases hw
      · obtain rfl : w = w' := Option.some.inj (hw.symm.trans hw')
        rw [hx, hx']
        cases hbody : checkWaiting g w c with
        | error f c₁ => rw [bind_error hbody, bind_error hbody]
        | ok a c₁ =>
          have hsizes := sizes_queue_checkWaiting hw hbody
          rw [bind_ok hbody, bind_ok hbody]
          exact ih (turn + 1) c₁ (by omega)

end Checking

/-- A check that gives no more than some number of bodies a turn. -/
def checkWithin (bodies : Nat) (g : Ground) (n : Node) : Checking Value := do
  let scope ← openScope [] .empty
  let f ← checkNode g scope n
  checkAllWaiting g bodies 0
  match f with
  | .known v => return v
  | .unknown => return .absent

namespace Checking

variable {g : Ground}

/-- The part of a check outside of the bodies of functions, and what is in the queue then. -/
theorem checkBody_queue (p : Program) {f : Finding} {c : CheckState}
    (h : checkBody g 0 (.known .absent) p.body (CheckState.initial.extend [] .empty) = .ok f c) :
    c.visited.toList = Stmt.outsideOf p.body ∧ c.queue 0 = Stmt.literalsOf p.body :=
  (checkBody_tours 0 _ p.body).ok h

end Checking

/-- A check of a program makes the tour that the tree prescribes, from its start to the end or to the first
failure. The tour leads to each statement once. The number of functions of the tree is a bound of the turns
that no check comes up against: it ends the same under any greater one. -/
theorem check_makes_tour (g : Ground) (p : Program) :
    (match check g (.program p) .initial with
      | .ok _ c => c.visited.toList = p.tour
      | .error _ c => c.visited.toList <+: p.tour) ∧
    p.tour.Perm p.stmts ∧
    ∀ more, checkWithin ((Node.program p).literalCount + more) g (.program p) .initial =
      check g (.program p) .initial := by
  have hcheck (bodies : Nat) : checkWithin bodies g (.program p) .initial =
      (do
        let f ← checkBody g 0 (.known .absent) p.body
        checkAllWaiting g bodies 0
        match f with
        | .known v => return v
        | .unknown => return .absent : Checking Value) (CheckState.initial.extend [] .empty) := rfl
  have hbound : check g (.program p) = checkWithin (Node.program p).literalCount g (.program p) := rfl
  refine ⟨?_, p.tour_perm, fun more => ?_⟩
  · rw [hbound, hcheck]
    cases hbody : checkBody g 0 (.known .absent) p.body (CheckState.initial.extend [] .empty) with
    | error f c =>
      rw [bind_error hbody]
      exact ((checkBody_tours 0 _ p.body).error hbody).trans (List.prefix_append _ _)
    | ok f c =>
      obtain ⟨hvisited, hqueue⟩ := checkBody_queue p hbody
      have hrest := checkAllWaiting_tours (g := g) (Node.program p).literalCount 0 c
        (by rw [hqueue, p.literalCount_eq])
      rw [hvisited, hqueue, ← Program.tour] at hrest
      rw [bind_ok hbody]
      cases hall : checkAllWaiting g (Node.program p).literalCount 0 c with
      | error f' c' =>
        rw [hall] at hrest
        rwa [bind_error hall]
      | ok a c' =>
        rw [hall] at hrest
        rw [bind_ok hall]
        cases f <;> exact hrest
  · rw [hbound, hcheck, hcheck]
    cases hbody : checkBody g 0 (.known .absent) p.body (CheckState.initial.extend [] .empty) with
    | error f c => rw [bind_error hbody, bind_error hbody]
    | ok f c =>
      obtain ⟨-, hqueue⟩ := checkBody_queue p hbody
      have hmore := checkAllWaiting_more (g := g) (Node.program p).literalCount more 0 c
        (by rw [hqueue, p.literalCount_eq])
      rw [bind_ok hbody, bind_ok hbody]
      simp only [Bind.bind, EStateM.bind, hmore]

/-- A function is called in a branch: its body is visited after all that is outside of it. -/
theorem check_makes_tour_into_body :
    let f : Symbol := ⟨.nowhere, [102]⟩
    let inner : Stmt := .set .nowhere (some ⟨.nowhere, [97]⟩) (.number .nowhere 1)
    let make : Stmt := .set .nowhere (some f) (.function .nowhere none (.of .nowhere [inner]))
    let call : Stmt := .call .nowhere (.symbol f) []
    let choose : Stmt := .branch .nowhere (.boolean .nowhere true) (.of .nowhere [call]) .missing
    let p : Program := ⟨.nowhere, [make, choose]⟩
    let g : Ground := ⟨primitives, Store.empty.addTopLevel, 0⟩
    ∃ v c, check g (.program p) .initial = .ok v c ∧ c.visited.toList = [make, choose, call, inner] := by
  intro f inner make call choose p g
  have htour : p.tour = [make, choose, call, inner] := by
    dsimp only [p, choose, call, make, inner]
    cbv
  have hpasses : (match check g (.program p) .initial with
      | .ok _ _ => true
      | .error _ _ => false) = true := by
    dsimp only [g, p, choose, call, make, inner]
    cbv
  have hvisited := (check_makes_tour g p).1
  cases hcheck : check g (.program p) .initial with
  | ok v c =>
    rw [hcheck] at hvisited
    exact ⟨v, c, rfl, hvisited.trans htour⟩
  | error f c =>
    rw [hcheck] at hpasses
    cases hpasses

end Stepwise
