import Stepwise.Proofs.Execution

/-! The moments of a run. While a program is evaluated its parts are reached one after another: a
statement after those before it, a branch when its condition says so, a loop body once for every
pass, the body of a function once for every call. When the run comes to its end, so does every part
that was reached. -/

namespace Stepwise

open Execution

/-- A run of a program in a scope, from a world on. -/
structure Run where
  setting : Setting
  program : Program
  scope : ScopeId
  start : World

/-- Where a run stands: the levels of calls to spare, the scope its code runs in, and the world. -/
structure Moment where
  left : Nat
  scope : ScopeId
  world : World

/-- What a run has before it at a moment. -/
inductive Task where
  | body (stmts : List Stmt)
  | stmt (s : Stmt)
  | block (b : Block)
  /-- The passes of a loop from a frame on. -/
  | loop (b : Block) (frame : LoopFrame)
  | expr (e : Expr)
  | args (es : List Expr)
  /-- The body of a closure whose parameters have just been bound. -/
  | closure (c : Closure)

def Moment.at (m : Moment) (w : World) : Moment := { m with world := w }

@[simp] theorem Moment.at_scope (m : Moment) (w : World) : (m.at w).scope = m.scope := rfl

@[simp] theorem Moment.at_world (m : Moment) (w : World) : (m.at w).world = w := rfl

namespace Run

variable (r : Run) (m : Moment)

def invoke : Invoke := invokeAt r.setting m.left

def expr (e : Expr) : EStateM.Result Failure World Value :=
  evalExpr r.setting.host (r.invoke m) m.scope e m.world

def args (es : List Expr) : EStateM.Result Failure World (List Value) :=
  evalArgs r.setting.host (r.invoke m) m.scope es m.world

def stmt (s : Stmt) : EStateM.Result Failure World Value :=
  evalStmt r.setting.host (r.invoke m) m.scope s m.world

def block (b : Block) : EStateM.Result Failure World Value :=
  evalBlock r.setting.host (r.invoke m) m.scope b m.world

def startLoop (span : Span) (count : Expr) (b : Block) : EStateM.Result Failure World LoopFrame :=
  Stepwise.startLoop r.setting.host (r.invoke m) m.scope span count b m.world

def Ends : Prop :=
  ∃ v w, r.setting.evaluate r.scope (.program r.program) r.start = .ok v w

variable {r m}

/-- The run comes to a task at a moment. It is `fresh` when, in the body of the function or of the
program that the task stands in, every loop around the task is in its first pass. -/
inductive Reached (r : Run) : (fresh : Bool) → Task → Moment → Prop
  | start : r.Reached true (.body r.program.body) ⟨r.setting.depth, r.scope, r.start⟩
  | first {fresh : Bool} {s : Stmt} {rest : List Stmt} {m : Moment} :
    r.Reached fresh (.body (s :: rest)) m → r.Reached fresh (.stmt s) m
  | next {fresh : Bool} {s : Stmt} {rest : List Stmt} {m : Moment} {v : Value} {w : World} :
    r.Reached fresh (.body (s :: rest)) m → r.stmt m s = .ok v w →
    r.Reached fresh (.body rest) (m.at w)
  | block {fresh : Bool} {span : Span} {body : List Stmt} {m : Moment} :
    r.Reached fresh (.block (.of span body)) m → r.Reached fresh (.body body) m
  | value {fresh : Bool} {span : Span} {x : Symbol} {e : Expr} {m : Moment} :
    r.Reached fresh (.stmt (.set span (some x) e)) m → r.Reached fresh (.expr e) m
  | condition {fresh : Bool} {span : Span} {c : Expr} {t e : Block} {m : Moment} :
    r.Reached fresh (.stmt (.branch span c t e)) m → r.Reached fresh (.expr c) m
  | thenBlock {fresh : Bool} {span : Span} {c : Expr} {t e : Block} {m : Moment} {v : Value}
    {w : World} : r.Reached fresh (.stmt (.branch span c t e)) m → r.expr m c = .ok v w →
    v.isTruthy = true → r.Reached fresh (.block t) (m.at w)
  | elseBlock {fresh : Bool} {span : Span} {c : Expr} {t e : Block} {m : Moment} {v : Value}
    {w : World} : r.Reached fresh (.stmt (.branch span c t e)) m → r.expr m c = .ok v w →
    v.isTruthy = false → r.Reached fresh (.block e) (m.at w)
  | count {fresh : Bool} {span : Span} {s : Symbol} {b : Block} {m : Moment} :
    r.Reached fresh (.stmt (.times span (.symbol s) b)) m → r.Reached fresh (.expr (.symbol s)) m
  | loop {fresh : Bool} {span : Span} {count : Expr} {b : Block} {m : Moment} {frame : LoopFrame}
    {w : World} : r.Reached fresh (.stmt (.times span count b)) m →
    r.startLoop m span count b = .ok frame w → r.Reached fresh (.loop b frame) (m.at w)
  | pass {fresh : Bool} {b : Block} {frame : LoopFrame} {m : Moment} {w : World} :
    r.Reached fresh (.loop b frame) m → frame.done = false → poll m.world = .ok () w →
    r.Reached fresh (.block b) (m.at w)
  | again {fresh : Bool} {b : Block} {frame : LoopFrame} {m : Moment} {w w' : World} {v : Value} :
    r.Reached fresh (.loop b frame) m → frame.done = false → poll m.world = .ok () w →
    r.block (m.at w) b = .ok v w' → r.Reached false (.loop b frame.next) (m.at w')
  | call {fresh : Bool} {span : Span} {callee : Expr} {args : List Expr} {m : Moment} :
    r.Reached fresh (.stmt (.call span callee args)) m →
    r.Reached fresh (.expr (.call span callee args)) m
  | callee {fresh : Bool} {span : Span} {callee : Expr} {args : List Expr} {m : Moment} :
    r.Reached fresh (.expr (.call span callee args)) m → r.Reached fresh (.expr callee) m
  | args {fresh : Bool} {span : Span} {callee : Expr} {args : List Expr} {m : Moment} {v : Value}
    {w : World} : r.Reached fresh (.expr (.call span callee args)) m → r.expr m callee = .ok v w →
    r.Reached fresh (.args args) (m.at w)
  | arg {fresh : Bool} {e : Expr} {es : List Expr} {m : Moment} :
    r.Reached fresh (.args (e :: es)) m → r.Reached fresh (.expr e) m
  | nextArg {fresh : Bool} {e : Expr} {es : List Expr} {m : Moment} {v : Value} {w : World} :
    r.Reached fresh (.args (e :: es)) m → r.expr m e = .ok v w →
    r.Reached fresh (.args es) (m.at w)
  | enter {fresh : Bool} {span : Span} {callee : Expr} {args : List Expr} {m : Moment}
    {left : Nat} {c : Closure} {vs : List Value} {id : ScopeId} {w₁ w₂ w₃ w₄ : World} :
    r.Reached fresh (.expr (.call span callee args)) m → m.left = left + 1 →
    r.expr m callee = .ok (.function c) w₁ → r.args (m.at w₁) args = .ok vs w₂ →
    vs.length = c.literal.arity → poll w₂ = .ok () w₃ → openScope c vs w₃ = .ok id w₄ →
    r.Reached true (.closure c) ⟨left, id, w₄⟩
  | inside {fresh : Bool} {c : Closure} {m : Moment} :
    r.Reached fresh (.closure c) m → r.Reached fresh (.block c.literal.body) m

/-- A statement is executed in some pass of the loops around it, or in a first one. -/
def Executed (r : Run) (fresh : Bool) (s : Stmt) : Prop := ∃ m, r.Reached fresh (.stmt s) m

/-- The run gives a name to a function with so many parameters. -/
def SetsFunction (r : Run) (x : Name) (params : Nat) : Prop :=
  ∃ fresh m span s e c w, r.Reached fresh (.stmt (.set span (some s) e)) m ∧ s.name = x ∧
    r.expr m e = .ok (.function c) w ∧ c.literal.arity = params

/-- The body of a function looks a name up and finds a value outside of its own scope. -/
def FindsOutside (r : Run) (x : Name) (v : Value) : Prop :=
  ∃ fresh m s, r.Reached fresh (.expr (.symbol s)) m ∧ s.name = x ∧ m.scope ≠ r.scope ∧
    m.world.store.lookup? m.scope x = none ∧ m.world.store.get? m.scope x = some v

/-- Where the body of a function looks outside of its own scope for a name that the run sets to a
function, it finds a function with as many parameters. -/
def KeepsArities (r : Run) : Prop :=
  ∀ x n v, r.SetsFunction x n → r.FindsOutside x v → ∃ c, v = .function c ∧ c.literal.arity = n

/-- What is before the run at a moment ends well. -/
def Completes (r : Run) (m : Moment) : Task → Prop
  | .body stmts => ∃ last v w,
    evalBody r.setting.host (r.invoke m) m.scope last stmts m.world = .ok v w
  | .stmt s => ∃ v w, r.stmt m s = .ok v w
  | .block b => ∃ v w, r.block m b = .ok v w
  | .loop b frame => ∃ rounds last v w,
    runLoop (evalBlock r.setting.host (r.invoke m) m.scope b) rounds frame last m.world = .ok v w
  | .expr e => ∃ v w, r.expr m e = .ok v w
  | .args es => ∃ vs w, r.args m es = .ok vs w
  | .closure c => ∃ v w, r.block m c.literal.body = .ok v w

theorem ite_eq_ok {α : Type} {c : Prop} [Decidable c] {x y : Execution α} {w w' : World} {a : α}
    (h : (if c then x else y) w = .ok a w') : c ∧ x w = .ok a w' ∨ ¬ c ∧ y w = .ok a w' := by
  split at h
  · next hc => exact .inl ⟨hc, h⟩
  · next hc => exact .inr ⟨hc, h⟩

theorem fail_ne_ok {α : Type} {cause : Cause} {span : Span} {a : α} {w w' : World} :
    (fail cause span : Execution α) w ≠ .ok a w' := nofun

theorem set_cases {span : Span} {x : Symbol} {e : Expr} {v : Value} {w : World}
    (h : r.stmt m (.set span (some x) e) = .ok v w) :
    ∃ u w₁, e.isMissing = false ∧ r.expr m e = .ok u w₁ ∧ v = u.orNull ∧
      w = { w₁ with store := w₁.store.set m.scope x.name u.orNull } := by
  rw [stmt, evalStmt] at h
  obtain ⟨-, h⟩ | ⟨hpresent, h⟩ := ite_eq_ok h
  · exact (fail_ne_ok h).elim
  · obtain ⟨u, w₁, hu, h⟩ := bind_eq_ok h
    cases h
    exact ⟨u, w₁, by simpa using hpresent, hu, rfl, rfl⟩

theorem branch_cases {span : Span} {c : Expr} {t e : Block} {v : Value} {w : World}
    (h : r.stmt m (.branch span c t e) = .ok v w) :
    c.isMissing = false ∧ t.isMissing = false ∧ ∃ u w₁, r.expr m c = .ok u w₁ ∧
      (u.isTruthy = true ∧ r.block (m.at w₁) t = .ok v w ∨
        u.isTruthy = false ∧ e.isMissing = true ∧ v = .null ∧ w = w₁ ∨
        u.isTruthy = false ∧ e.isMissing = false ∧ r.block (m.at w₁) e = .ok v w) := by
  rw [stmt, evalStmt] at h
  obtain ⟨-, h⟩ | ⟨hpresent, h⟩ := ite_eq_ok h
  · exact (fail_ne_ok h).elim
  simp only [Bool.or_eq_true, not_or, Bool.not_eq_true] at hpresent
  obtain ⟨u, w₁, hu, h⟩ := bind_eq_ok h
  refine ⟨hpresent.1, hpresent.2, u, w₁, hu, ?_⟩
  obtain ⟨htruthy, h⟩ | ⟨htruthy, h⟩ := ite_eq_ok h
  · exact .inl ⟨htruthy, h⟩
  · have htruthy : u.isTruthy = false := by simpa using htruthy
    obtain ⟨hmissing, h⟩ | ⟨hmissing, h⟩ := ite_eq_ok h
    · cases h
      exact .inr (.inl ⟨htruthy, hmissing, rfl, rfl⟩)
    · exact .inr (.inr ⟨htruthy, by simpa using hmissing, h⟩)

theorem times_cases {span : Span} {count : Expr} {b : Block} {v : Value} {w : World}
    (h : r.stmt m (.times span count b) = .ok v w) :
    ∃ frame w₁, r.startLoop m span count b = .ok frame w₁ ∧
      runLoop (evalBlock r.setting.host (r.invoke m) m.scope b) (w₁.polls + 1) frame .absent w₁ =
        .ok v w := by
  rw [stmt, evalStmt] at h
  obtain ⟨frame, w₁, hframe, h⟩ := bind_eq_ok h
  exact ⟨frame, w₁, hframe, h⟩

theorem body_cases {s : Stmt} {rest : List Stmt} {last v : Value} {w : World}
    (h : evalBody r.setting.host (r.invoke m) m.scope last (s :: rest) m.world = .ok v w) :
    ∃ u w₁, r.stmt m s = .ok u w₁ ∧
      evalBody r.setting.host (r.invoke m) m.scope u rest w₁ = .ok v w := by
  rw [evalBody] at h
  exact bind_eq_ok h

/-- A loop that ends is done, or it makes a pass and goes on. -/
theorem loop_cases {body : Execution Value} {rounds : Nat} {frame : LoopFrame} {last v : Value}
    {w w' : World} (h : runLoop body rounds frame last w = .ok v w') :
    frame.done = true ∧ w' = w ∨ frame.done = false ∧ ∃ rounds' w₁ u w₂, poll w = .ok () w₁ ∧
      body w₁ = .ok u w₂ ∧ runLoop body rounds' frame.next u w₂ = .ok v w' := by
  cases rounds with
  | zero => cases h
  | succ rounds =>
    rw [runLoop] at h
    obtain ⟨hdone, h⟩ | ⟨hdone, h⟩ := ite_eq_ok h
    · cases h
      exact .inl ⟨hdone, rfl⟩
    · obtain ⟨⟨⟩, w₁, hpoll, h⟩ := bind_eq_ok h
      obtain ⟨u, w₂, hbody, h⟩ := bind_eq_ok h
      exact .inr ⟨by simpa using hdone, rounds, w₁, u, w₂, hpoll, hbody, h⟩

theorem call_cases {span : Span} {callee : Expr} {args : List Expr} {v : Value} {w : World}
    (h : r.expr m (.call span callee args) = .ok v w) :
    callee.isMissing = false ∧ ∃ f w₁ vs w₂ w₃, r.expr m callee = .ok f w₁ ∧
      r.args (m.at w₁) args = .ok vs w₂ ∧ poll w₂ = .ok () w₃ ∧
      (Dispatch.of vs.length f).run r.setting.host (r.invoke m) m.scope span vs w₃ = .ok v w := by
  rw [expr, evalExpr] at h
  obtain ⟨-, h⟩ | ⟨hpresent, h⟩ := ite_eq_ok h
  · exact (fail_ne_ok h).elim
  obtain ⟨f, w₁, hf, h⟩ := bind_eq_ok h
  obtain ⟨vs, w₂, hvs, h⟩ := bind_eq_ok h
  rw [applyValue_eq] at h
  obtain ⟨⟨⟩, w₃, hpoll, h⟩ := bind_eq_ok h
  exact ⟨by simpa using hpresent, f, w₁, vs, w₂, w₃, hf, hvs, hpoll, h⟩

theorem args_cases {e : Expr} {es : List Expr} {vs : List Value} {w : World}
    (h : r.args m (e :: es) = .ok vs w) :
    ∃ u w₁ us, r.expr m e = .ok u w₁ ∧ r.args (m.at w₁) es = .ok us w ∧ vs = u.orNull :: us := by
  rw [args, evalArgs] at h
  obtain ⟨u, w₁, hu, h⟩ := bind_eq_ok h
  obtain ⟨us, w₂, hus, h⟩ := bind_eq_ok h
  cases h
  exact ⟨u, w₁, us, hu, hus, rfl⟩

theorem invoke_cases {left : Nat} (hleft : m.left = left + 1) {span : Span} {c : Closure}
    {vs : List Value} {v : Value} {w w' : World} (h : r.invoke m span c vs w = .ok v w') :
    ∃ id w₁, openScope c vs w = .ok id w₁ ∧ r.block ⟨left, id, w₁⟩ c.literal.body = .ok v w' := by
  rw [invoke, hleft, invokeAt] at h
  exact bind_eq_ok h

namespace Completes

/-! The end of a whole is taken apart into the ends of its parts. -/

variable {s : Stmt} {rest : List Stmt} {span : Span} {c e : Expr} {t b : Block} {frame : LoopFrame}
  {es : List Expr} {v : Value} {w : World}

theorem first (h : r.Completes m (.body (s :: rest))) : r.Completes m (.stmt s) := by
  obtain ⟨last, v, w, hbody⟩ := h
  obtain ⟨u, w₁, hs, -⟩ := body_cases hbody
  exact ⟨u, w₁, hs⟩

theorem next (h : r.Completes m (.body (s :: rest))) (hs : r.stmt m s = .ok v w) :
    r.Completes (m.at w) (.body rest) := by
  obtain ⟨last, v, w, hbody⟩ := h
  obtain ⟨u, w₁, hs', hrest⟩ := body_cases hbody
  cases hs.symm.trans hs'
  exact ⟨_, v, w, hrest⟩

theorem block {body : List Stmt} (h : r.Completes m (.block (.of span body))) :
    r.Completes m (.body body) := by
  obtain ⟨v, w, hblock⟩ := h
  rw [Run.block, evalBlock] at hblock
  exact ⟨.absent, v, w, hblock⟩

theorem value {x : Symbol} (h : r.Completes m (.stmt (.set span (some x) e))) :
    r.Completes m (.expr e) := by
  obtain ⟨v, w, hs⟩ := h
  obtain ⟨u, w₁, -, he, -⟩ := set_cases hs
  exact ⟨u, w₁, he⟩

theorem condition (h : r.Completes m (.stmt (.branch span c t b))) : r.Completes m (.expr c) := by
  obtain ⟨v, w, hs⟩ := h
  obtain ⟨-, -, u, w₁, hc, -⟩ := branch_cases hs
  exact ⟨u, w₁, hc⟩

theorem thenBlock (h : r.Completes m (.stmt (.branch span c t b))) (hc : r.expr m c = .ok v w)
    (htruthy : v.isTruthy = true) : r.Completes (m.at w) (.block t) := by
  obtain ⟨v, w, hs⟩ := h
  obtain ⟨-, -, u, w₁, hc', hblock⟩ := branch_cases hs
  cases hc.symm.trans hc'
  obtain ⟨-, ht⟩ | ⟨hfalse, -⟩ | ⟨hfalse, -⟩ := hblock
  · exact ⟨v, w, ht⟩
  all_goals exact absurd htruthy (by simp [hfalse])

/-- An else-branch that is missing is passed over. -/
theorem elseBlock (h : r.Completes m (.stmt (.branch span c t b))) (hc : r.expr m c = .ok v w)
    (htruthy : v.isTruthy = false) : r.Completes (m.at w) (.block b) := by
  obtain ⟨v, w, hs⟩ := h
  obtain ⟨-, -, u, w₁, hc', hblock⟩ := branch_cases hs
  cases hc.symm.trans hc'
  obtain ⟨htrue, -⟩ | ⟨-, hmissing, -, -⟩ | ⟨-, -, hb⟩ := hblock
  · exact absurd htruthy (by simp [htrue])
  · cases b with
    | missing => exact ⟨_, _, rfl⟩
    | of span body => cases hmissing
  · exact ⟨v, w, hb⟩

theorem count {x : Symbol} (h : r.Completes m (.stmt (.times span (.symbol x) b))) :
    r.Completes m (.expr (.symbol x)) := by
  obtain ⟨v, w, hs⟩ := h
  obtain ⟨frame, w₁, hstart, -⟩ := times_cases hs
  rw [Run.startLoop, Stepwise.startLoop.eq_def] at hstart
  obtain ⟨-, hstart⟩ | ⟨-, hstart⟩ := ite_eq_ok hstart
  · exact (fail_ne_ok hstart).elim
  · obtain ⟨u, w₂, hu, -⟩ := bind_eq_ok hstart
    exact ⟨u, w₂, hu⟩

theorem loop (h : r.Completes m (.stmt (.times span c b))) (hstart : r.startLoop m span c b = .ok frame w) :
    r.Completes (m.at w) (.loop b frame) := by
  obtain ⟨v, w, hs⟩ := h
  obtain ⟨frame, w₁, hstart', hloop⟩ := times_cases hs
  cases hstart.symm.trans hstart'
  exact ⟨_, _, v, w, hloop⟩

/-- A loop that is not done makes a pass that ends, and then goes on to its end. -/
theorem pass_again (h : r.Completes m (.loop b frame)) (hdone : frame.done = false)
    (hpoll : poll m.world = .ok () w) : ∃ v w', r.block (m.at w) b = .ok v w' ∧
      r.Completes (m.at w') (.loop b frame.next) := by
  obtain ⟨rounds, last, v, w, hloop⟩ := h
  obtain ⟨htrue, -⟩ | ⟨-, rounds', w₁, u, w₂, hpoll', hbody, hnext⟩ := loop_cases hloop
  · exact absurd hdone (by simp [htrue])
  · cases hpoll.symm.trans hpoll'
    exact ⟨u, w₂, hbody, rounds', u, v, w, hnext⟩

theorem pass (h : r.Completes m (.loop b frame)) (hdone : frame.done = false)
    (hpoll : poll m.world = .ok () w) : r.Completes (m.at w) (.block b) := by
  obtain ⟨v, w', hblock, -⟩ := h.pass_again hdone hpoll
  exact ⟨v, w', hblock⟩

theorem again {w' : World} (h : r.Completes m (.loop b frame)) (hdone : frame.done = false)
    (hpoll : poll m.world = .ok () w) (hblock : r.block (m.at w) b = .ok v w') :
    r.Completes (m.at w') (.loop b frame.next) := by
  obtain ⟨u, w₂, hblock', hnext⟩ := h.pass_again hdone hpoll
  cases hblock.symm.trans hblock'
  exact hnext

theorem call (h : r.Completes m (.stmt (.call span c es))) : r.Completes m (.expr (.call span c es)) := by
  obtain ⟨v, w, hs⟩ := h
  rw [stmt, evalStmt] at hs
  exact ⟨v, w, hs⟩

theorem callee (h : r.Completes m (.expr (.call span c es))) : r.Completes m (.expr c) := by
  obtain ⟨v, w, hs⟩ := h
  obtain ⟨-, f, w₁, _, _, _, hf, -⟩ := call_cases hs
  exact ⟨f, w₁, hf⟩

theorem args (h : r.Completes m (.expr (.call span c es))) (hf : r.expr m c = .ok v w) :
    r.Completes (m.at w) (.args es) := by
  obtain ⟨v, w, hs⟩ := h
  obtain ⟨-, f, w₁, vs, w₂, _, hf', hvs, -⟩ := call_cases hs
  cases hf.symm.trans hf'
  exact ⟨vs, w₂, hvs⟩

theorem arg (h : r.Completes m (.args (e :: es))) : r.Completes m (.expr e) := by
  obtain ⟨vs, w, hs⟩ := h
  obtain ⟨u, w₁, -, hu, -⟩ := args_cases hs
  exact ⟨u, w₁, hu⟩

theorem nextArg (h : r.Completes m (.args (e :: es))) (hu : r.expr m e = .ok v w) :
    r.Completes (m.at w) (.args es) := by
  obtain ⟨vs, w, hs⟩ := h
  obtain ⟨u, w₁, us, hu', hus, -⟩ := args_cases hs
  cases hu.symm.trans hu'
  exact ⟨us, w, hus⟩

/-- A call of a closure ends with its body. -/
theorem enter {left : Nat} {f : Closure} {vs : List Value} {id : ScopeId} {w₁ w₂ w₃ w₄ : World}
    (h : r.Completes m (.expr (.call span c es))) (hleft : m.left = left + 1)
    (hf : r.expr m c = .ok (.function f) w₁) (hvs : r.args (m.at w₁) es = .ok vs w₂)
    (harity : vs.length = f.literal.arity) (hpoll : poll w₂ = .ok () w₃)
    (hopen : openScope f vs w₃ = .ok id w₄) : r.Completes ⟨left, id, w₄⟩ (.closure f) := by
  obtain ⟨v, w, hs⟩ := h
  obtain ⟨-, g, _, _, _, _, hf', hvs', hpoll', hrun⟩ := call_cases hs
  cases hf.symm.trans hf'
  cases hvs.symm.trans hvs'
  cases hpoll.symm.trans hpoll'
  rw [Dispatch.of, if_pos harity] at hrun
  obtain ⟨id, w₄, hopen', hbody⟩ := invoke_cases hleft hrun
  cases hopen.symm.trans hopen'
  exact ⟨v, w, hbody⟩

end Completes

/-- Whatever a run reaches on its way to its end comes to an end itself. -/
theorem Reached.completes (hends : r.Ends) {fresh : Bool} {t : Task} {m : Moment}
    (h : r.Reached fresh t m) : r.Completes m t := by
  induction h with
  | start =>
    obtain ⟨v, w, h⟩ := hends
    exact ⟨.absent, v, w, h⟩
  | first _ ih => exact ih.first
  | next _ hs ih => exact ih.next hs
  | block _ ih => exact ih.block
  | value _ ih => exact ih.value
  | condition _ ih => exact ih.condition
  | thenBlock _ hc htruthy ih => exact ih.thenBlock hc htruthy
  | elseBlock _ hc htruthy ih => exact ih.elseBlock hc htruthy
  | count _ ih => exact ih.count
  | loop _ hstart ih => exact ih.loop hstart
  | pass _ hdone hpoll ih => exact ih.pass hdone hpoll
  | again _ hdone hpoll hblock ih => exact ih.again hdone hpoll hblock
  | call _ ih => exact ih.call
  | callee _ ih => exact ih.callee
  | args _ hf ih => exact ih.args hf
  | arg _ ih => exact ih.arg
  | nextArg _ hu ih => exact ih.nextArg hu
  | enter _ hleft hf hvs harity hpoll hopen ih => exact ih.enter hleft hf hvs harity hpoll hopen
  | inside _ ih => exact ih

end Run

end Stepwise
