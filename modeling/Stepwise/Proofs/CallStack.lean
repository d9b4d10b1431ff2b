import Mathlib.Logic.Relation
import Stepwise.Proofs.Patience

/-! Evaluation as a machine with a stack of its own. What has still to be done stands on the stack, and so
does every call of a closure until it is over. A counter goes up when a closure is entered, and down when
it is left, be it with a value or with a failure. The machine comes to the same end as evaluation, and all
along its counter tells how many calls of closures are under way. -/

namespace Stepwise

open Execution

/-- What an evaluation does next. -/
inductive Doing where
  | expr (scope : ScopeId) (e : Expr)
  /-- Of the arguments of a call some are `done`, the others are still to come. -/
  | args (scope : ScopeId) (span : Span) (callee : Value) (done : List Value) (rest : List Expr)
  | apply (scope : ScopeId) (span : Span) (callee : Value) (args : List Value)
  | enter (span : Span) (c : Closure) (args : List Value)
  | stmt (scope : ScopeId) (s : Stmt)
  | assign (scope : ScopeId) (name : Name) (v : Value)
  | block (scope : ScopeId) (b : Block)
  | body (scope : ScopeId) (last : Value) (rest : List Stmt)
  | loop (scope : ScopeId) (body : Block) (frame : LoopFrame) (last : Value)
  | round (scope : ScopeId) (body : Block) (frame : LoopFrame)
  | value (v : Value)
  | failure (f : Failure)

/-- What waits for a value. -/
inductive Pending where
  | calling (scope : ScopeId) (span : Span) (args : List Expr)
  | argument (scope : ScopeId) (span : Span) (callee : Value) (done : List Value) (rest : List Expr)
  | target (scope : ScopeId) (name : Name)
  | condition (scope : ScopeId) (thenBlock elseBlock : Block)
  | body (scope : ScopeId) (rest : List Stmt)
  | loop (scope : ScopeId) (body : Block) (frame : LoopFrame)
  | call

namespace Pending

/-- How it goes on when the value is there. -/
def resume : Pending → Value → Doing
  | .calling scope span args, v => .args scope span v [] args
  | .argument scope span callee done rest, v => .args scope span callee (done ++ [v.orNull]) rest
  | .target scope name, v => .assign scope name v.orNull
  | .condition scope thenBlock elseBlock, v =>
    if v.isTruthy then .block scope thenBlock
    else if elseBlock.isMissing then .value .null
    else .block scope elseBlock
  | .body scope rest, v => .body scope v rest
  | .loop scope block frame, v => .loop scope block frame.next v
  | .call, v => .value v

def isCall : Pending → Bool
  | .call => true
  | _ => false

/-- What it adds to the calls under way. -/
def level (k : Pending) : Nat := if k.isCall then 1 else 0

end Pending

/-- A moment of an evaluation. Calls take the counter for their depth; nothing else reads it. -/
structure Config where
  doing : Doing
  stack : List Pending
  world : World
  depth : Nat

namespace Config

/-- How many calls of closures are under way. -/
def calls (c : Config) : Nat := c.stack.countP Pending.isCall

def turn (c : Config) (doing : Doing) : Config := { c with doing }

def fail (c : Config) (cause : Cause) (span : Span) : Config :=
  c.turn (.failure (.diagnostic ⟨cause, span⟩))

def push (c : Config) (doing : Doing) (k : Pending) : Config := { c with doing, stack := k :: c.stack }

def perform {α : Type} (c : Config) (x : Execution α) (next : α → Doing) : Config :=
  match x c.world with
  | .ok a world => { c with doing := next a, world }
  | .error f world => { c with doing := .failure f, world }

/-- Takes the top from the stack, and goes on with what it says. A call is over then. -/
def pop (c : Config) (next : Pending → Doing) : Option Config :=
  match c.stack with
  | [] => none
  | k :: stack => some ⟨next k, stack, c.world, c.depth - k.level⟩

end Config

/-- The invocation that is never made. -/
def Invoke.never : Invoke := fun span _ _ => fail .missingNode span

namespace Setting

variable (setting : Setting)

def stepExpr (c : Config) (scope : ScopeId) : Expr → Config
  | .call span callee args =>
    if callee.isMissing then c.fail .callWithoutCallee span
    else c.push (.expr scope callee) (.calling scope span args)
  | e => c.perform (evalExpr setting.host .never scope e) .value

def stepStatement (c : Config) (scope : ScopeId) : Stmt → Config
  | .missing => c.fail .missingNode .nowhere
  | .set span target value =>
    match target with
    | none => c.fail .incompleteSet span
    | some symbol =>
      if value.isMissing then c.fail .incompleteSet span
      else c.push (.expr scope value) (.target scope symbol.name)
  | .branch span condition thenBlock elseBlock =>
    if condition.isMissing || thenBlock.isMissing then c.fail .incompleteIf span
    else c.push (.expr scope condition) (.condition scope thenBlock elseBlock)
  | .times span count body =>
    c.perform (startLoop setting.host .never scope span count body) (.loop scope body · .absent)
  | .call span callee args => c.turn (.expr scope (.call span callee args))

/-- Enters a closure if that is not too deep. -/
def stepEnter (c : Config) (span : Span) (closure : Closure) (args : List Value) : Config :=
  if setting.depth ≤ c.depth then c.fail (.callDepth setting.depth) span
  else { c.perform (openScope closure args) (.block · closure.literal.body) with
    stack := .call :: c.stack
    depth := c.depth + 1 }

def act (c : Config) : Doing → Config
  | .expr scope e => setting.stepExpr c scope e
  | .args scope span callee done [] => c.perform poll fun _ => .apply scope span callee done
  | .args scope span callee done (e :: rest) => c.push (.expr scope e) (.argument scope span callee done rest)
  | .apply scope span callee args =>
    match Dispatch.of args.length callee with
    | .native n => c.perform (callNative setting.host scope span n args) .value
    | .closure closure => c.turn (.enter span closure args)
    | .refused cause => c.fail cause span
  | .enter span closure args => setting.stepEnter c span closure args
  | .stmt scope s => setting.stepStatement c scope s
  | .assign scope name v => c.perform (assign scope name v) fun _ => .value v
  | .block _ .missing => c.turn (.value .absent)
  | .block scope (.of _ body) => c.turn (.body scope .absent body)
  | .body _ last [] => c.turn (.value last)
  | .body scope _ (s :: rest) => c.push (.stmt scope s) (.body scope rest)
  | .loop scope body frame last =>
    if frame.done then c.turn (.value last)
    else c.perform poll fun _ => .round scope body frame
  | .round scope body frame => c.push (.block scope body) (.loop scope body frame)
  | .value _ | .failure _ => c

/-- What follows a moment, unless the evaluation is over. -/
def next (c : Config) : Option Config :=
  match c.doing with
  | .value v => c.pop (·.resume v)
  | .failure f => c.pop fun _ => .failure f
  | doing => some (setting.act c doing)

/-- One moment of an evaluation is followed by the other, sooner or later. -/
abbrev LeadsTo : Config → Config → Prop := Relation.ReflTransGen fun c c' => setting.next c = some c'

/-- The moment that comes so many moments later. -/
def later (c : Config) : Nat → Option Config
  | 0 => some c
  | k + 1 => (later c k).bind setting.next

variable {setting} in
theorem leadsTo_of_later {c c' : Config} {k : Nat} (h : setting.later c k = some c') :
    setting.LeadsTo c c' := by
  induction k generalizing c' with
  | zero =>
    obtain rfl := Option.some.inj h
    exact .refl
  | succ k ih =>
    obtain ⟨c₁, hc₁, hnext⟩ := Option.bind_eq_some_iff.mp h
    exact (ih hc₁).tail hnext

variable {setting} in
theorem later_of_leadsTo {c c' : Config} (h : setting.LeadsTo c c') : ∃ k, setting.later c k = some c' := by
  induction h with
  | refl => exact ⟨0, rfl⟩
  | tail _ hnext ih =>
    obtain ⟨k, hk⟩ := ih
    exact ⟨k + 1, Option.bind_eq_some_iff.mpr ⟨_, hk, hnext⟩⟩

end Setting

namespace Config

variable {α : Type} {c c' : Config} {limit : Nat}

/-- The counter tells how many calls of closures are under way, and they are no more than the limit. -/
structure Counts (limit : Nat) (c : Config) : Prop where
  depth_eq : c.depth = c.calls
  depth_le : c.depth ≤ limit

/-- Nothing is entered and nothing left. -/
structure Level (c c' : Config) : Prop where
  depth : c'.depth = c.depth
  calls : c'.calls = c.calls

theorem Level.counts (h : c.Level c') (hc : c.Counts limit) : c'.Counts limit where
  depth_eq := by rw [h.depth, h.calls, hc.depth_eq]
  depth_le := h.depth ▸ hc.depth_le

theorem turn_level (c : Config) (doing : Doing) : c.Level (c.turn doing) := ⟨rfl, rfl⟩

theorem calls_cons (doing : Doing) (k : Pending) (stack : List Pending) (w : World) (depth : Nat) :
    calls ⟨doing, k :: stack, w, depth⟩ = calls ⟨doing, stack, w, depth⟩ + k.level :=
  List.countP_cons

theorem push_level (c : Config) (doing : Doing) {k : Pending} (hk : k.level = 0) :
    c.Level (c.push doing k) where
  depth := rfl
  calls := by
    rw [push, calls_cons, hk]
    rfl

theorem perform_level (c : Config) (x : Execution α) (next : α → Doing) : c.Level (c.perform x next) := by
  rw [perform]
  split <;> exact ⟨rfl, rfl⟩

/-- Whatever is taken from the stack, the counter goes with it. -/
theorem Counts.pop (h : c.Counts limit) {next : Pending → Doing} (hpop : c.pop next = some c') :
    c'.Counts limit := by
  obtain ⟨doing, stack, w, depth⟩ := c
  cases stack with
  | nil => cases hpop
  | cons k stack =>
    obtain rfl := Option.some.inj hpop
    have hdepth := h.depth_eq
    rw [calls_cons] at hdepth
    refine ⟨?_, Nat.le_trans (Nat.sub_le _ _) h.depth_le⟩
    change depth - k.level = calls ⟨doing, stack, w, depth⟩
    change depth = _ at hdepth
    omega

end Config

namespace Setting

variable {setting : Setting} {c c' : Config}

theorem stepExpr_level (c : Config) (scope : ScopeId) (e : Expr) : c.Level (setting.stepExpr c scope e) := by
  cases e with
  | call span callee args =>
    rw [stepExpr]
    split
    · exact c.turn_level _
    · exact c.push_level _ rfl
  | missing | symbol | number | boolean | null | string | forever | function =>
    rw [stepExpr]
    · exact c.perform_level _ _
    · exact nofun

theorem stepStatement_level (c : Config) (scope : ScopeId) (s : Stmt) :
    c.Level (setting.stepStatement c scope s) := by
  cases s with
  | missing | call => exact c.turn_level _
  | set span target value =>
    cases target with
    | none => exact c.turn_level _
    | some symbol =>
      rw [stepStatement]
      split
      · exact c.turn_level _
      · exact c.push_level _ rfl
  | branch span condition thenBlock elseBlock =>
    rw [stepStatement]
    split
    · exact c.turn_level _
    · exact c.push_level _ rfl
  | times span count body => exact c.perform_level _ _

theorem stepEnter_counts (h : c.Counts setting.depth) (span : Span) (closure : Closure) (args : List Value) :
    (setting.stepEnter c span closure args).Counts setting.depth := by
  rw [stepEnter]
  split
  · exact (c.turn_level _).counts h
  · next hdepth =>
    refine ⟨?_, Nat.succ_le_of_lt (Nat.lt_of_not_le hdepth)⟩
    rw [Config.calls_cons]
    exact congrArg (· + 1) h.depth_eq

theorem act_counts (h : c.Counts setting.depth) (doing : Doing) :
    (setting.act c doing).Counts setting.depth := by
  cases doing with
  | expr scope e => exact (stepExpr_level c scope e).counts h
  | args scope span callee done rest =>
    cases rest with
    | nil => exact (c.perform_level _ _).counts h
    | cons e rest => exact (c.push_level _ rfl).counts h
  | apply scope span callee args =>
    rw [act]
    cases Dispatch.of args.length callee with
    | native n => exact (c.perform_level _ _).counts h
    | closure closure => exact (c.turn_level _).counts h
    | refused cause => exact (c.turn_level _).counts h
  | enter span closure args => exact stepEnter_counts h span closure args
  | stmt scope s => exact (stepStatement_level c scope s).counts h
  | assign scope name v => exact (c.perform_level (assign scope name v) fun _ => .value v).counts h
  | block scope b =>
    cases b with
    | missing => exact (c.turn_level _).counts h
    | of span body => exact (c.turn_level _).counts h
  | body scope last rest =>
    cases rest with
    | nil => exact (c.turn_level _).counts h
    | cons s rest => exact (c.push_level _ rfl).counts h
  | loop scope body frame last =>
    rw [act]
    split
    · exact (c.turn_level _).counts h
    · exact (c.perform_level _ _).counts h
  | round scope body frame => exact (c.push_level _ rfl).counts h
  | value v => exact h
  | failure f => exact h

/-- From one moment to the next the counter stays right. -/
theorem next_counts (h : c.Counts setting.depth) (hnext : setting.next c = some c') :
    c'.Counts setting.depth := by
  rw [next] at hnext
  split at hnext
  · exact h.pop hnext
  · exact h.pop hnext
  · obtain rfl := Option.some.inj hnext
    exact act_counts h _

theorem leadsTo_counts (h : c.Counts setting.depth) (hleads : setting.LeadsTo c c') :
    c'.Counts setting.depth := by
  induction hleads with
  | refl => exact h
  | tail _ hnext ih => exact next_counts ih hnext

end Setting

/-- What an evaluation has come to, before the stack has its turn. -/
def Config.ended (r : EStateM.Result Failure World Value) (stack : List Pending) (depth : Nat) : Config :=
  match r with
  | .ok v w => ⟨.value v, stack, w, depth⟩
  | .error f w => ⟨.failure f, stack, w, depth⟩

namespace Setting

variable {α : Type} {setting : Setting} {invoke : Invoke} {scope : ScopeId} {depth : Nat}
  {doing doing' : Doing} {x : Execution Value}

/-- The machine does what `x` does, above whatever is on the stack, and leaves the counter as it was. -/
def Runs (setting : Setting) (depth : Nat) (doing : Doing) (x : Execution Value) : Prop :=
  ∀ stack w, setting.LeadsTo ⟨doing, stack, w, depth⟩ (.ended (x w) stack depth)

theorem runs_value (v : Value) : setting.Runs depth (.value v) (pure v) := fun _ _ => .refl

theorem runs_failure (f : Failure) : setting.Runs depth (.failure f) (throw f) := fun _ _ => .refl

theorem Runs.turn (h : setting.Runs depth doing' x)
    (hnext : ∀ stack w, setting.next ⟨doing, stack, w, depth⟩ = some ⟨doing', stack, w, depth⟩) :
    setting.Runs depth doing x :=
  fun stack w => .head (hnext stack w) (h stack w)

theorem Runs.fail {cause : Cause} {span : Span}
    (hnext : ∀ stack w, setting.next ⟨doing, stack, w, depth⟩ =
      some ⟨.failure (.diagnostic ⟨cause, span⟩), stack, w, depth⟩) :
    setting.Runs depth doing (Execution.fail cause span) :=
  (runs_failure _).turn hnext

theorem runs_perform {y : Execution α} {next : α → Doing} {f : α → Execution Value}
    (hf : ∀ a, setting.Runs depth (next a) (f a))
    (hnext : ∀ stack w, setting.next ⟨doing, stack, w, depth⟩ =
      some (Config.perform ⟨doing, stack, w, depth⟩ y next)) :
    setting.Runs depth doing (y >>= f) := by
  intro stack w
  refine .head (hnext stack w) ?_
  cases hy : y w with
  | ok a w' =>
    rw [bind_ok hy, Config.perform, hy]
    exact hf a stack w'
  | error e w' =>
    rw [bind_error hy, Config.perform, hy]
    exact .refl

theorem runs_leaf {y : Execution Value} (hnext : ∀ stack w, setting.next ⟨doing, stack, w, depth⟩ =
    some (Config.perform ⟨doing, stack, w, depth⟩ y .value)) : setting.Runs depth doing y := by
  have h := runs_perform (fun v => runs_value v) hnext
  rwa [bind_pure] at h

/-- What is pushed on the stack goes on with the value, and falls with a failure. -/
theorem Runs.push {f : Value → Execution Value} (h : setting.Runs depth doing' x) (k : Pending)
    (hk : k.level = 0) (hf : ∀ v, setting.Runs depth (k.resume v) (f v))
    (hnext : ∀ stack w, setting.next ⟨doing, stack, w, depth⟩ = some ⟨doing', k :: stack, w, depth⟩) :
    setting.Runs depth doing (x >>= f) := by
  intro stack w
  refine .head (hnext stack w) ((h (k :: stack) w).trans ?_)
  cases hx : x w with
  | ok v w' =>
    have hpop : setting.next ⟨.value v, k :: stack, w', depth⟩ = some ⟨k.resume v, stack, w', depth⟩ := by
      simp only [next, Config.pop, hk, Nat.sub_zero]
    rw [bind_ok hx]
    exact .head hpop (hf v stack w')
  | error e w' =>
    have hpop : setting.next ⟨.failure e, k :: stack, w', depth⟩ = some ⟨.failure e, stack, w', depth⟩ := by
      simp only [next, Config.pop, hk, Nat.sub_zero]
    rw [bind_error hx]
    exact .single hpop

/-- A call is on the stack while the body runs, and however that ends, the counter is back after it. -/
theorem runs_call {c : Closure} {body : ScopeId → Execution Value} (hdepth : depth < setting.depth)
    (hbody : ∀ id, setting.Runs (depth + 1) (.block id c.literal.body) (body id)) (span : Span)
    (args : List Value) : setting.Runs depth (.enter span c args) (openScope c args >>= body) := by
  intro stack w
  obtain ⟨id, w', hopen⟩ : ∃ id w', openScope c args w = .ok id w' := ⟨_, _, rfl⟩
  have hnext : setting.next ⟨.enter span c args, stack, w, depth⟩ =
      some ⟨.block id c.literal.body, .call :: stack, w', depth + 1⟩ := by
    simp only [next, act, stepEnter, Nat.not_le.mpr hdepth, if_false, Config.perform, hopen]
  refine .head hnext ((hbody id (.call :: stack) w').trans ?_)
  rw [bind_ok hopen]
  cases body id w' with
  | ok v w'' => exact .single rfl
  | error e w'' => exact .single rfl

def Enters (setting : Setting) (depth : Nat) (invoke : Invoke) : Prop :=
  ∀ span c args, setting.Runs depth (.enter span c args) (invoke span c args)

theorem runs_apply (hinv : setting.Enters depth invoke) (span : Span) (callee : Value) (args : List Value) :
    setting.Runs depth (.apply scope span callee args)
      ((Dispatch.of args.length callee).run setting.host invoke scope span args) := by
  cases hd : Dispatch.of args.length callee with
  | native n =>
    refine runs_leaf fun stack w => ?_
    simp only [next, act, hd]
    rfl
  | closure c =>
    refine (hinv span c args).turn fun stack w => ?_
    simp only [next, act, hd]
    rfl
  | refused cause =>
    refine Runs.fail fun stack w => ?_
    simp only [next, act, hd]
    rfl

mutual

theorem runs_expr (hinv : setting.Enters depth invoke) (e : Expr) :
    setting.Runs depth (.expr scope e) (evalExpr setting.host invoke scope e) := by
  cases e with
  | call span callee args =>
    rw [evalExpr]
    cases hcallee : callee.isMissing with
    | true =>
      refine Runs.fail fun stack w => ?_
      simp only [next, act, stepExpr, hcallee]
      rfl
    | false =>
      have hargs (f : Value) := runs_args hinv span f [] args
      refine (runs_expr hinv callee).push (.calling scope span args) rfl hargs fun stack w => ?_
      simp only [next, act, stepExpr, hcallee]
      rfl
  | missing | symbol | number | boolean | null | string | forever => exact runs_leaf fun _ _ => rfl
  | function span params body => exact runs_leaf fun _ _ => rfl
termination_by structural e

theorem runs_args (hinv : setting.Enters depth invoke) (span : Span) (f : Value) (done : List Value)
    (es : List Expr) : setting.Runs depth (.args scope span f done es) (do
      let vs ← evalArgs setting.host invoke scope es
      applyValue setting.host invoke scope span f (done ++ vs)) := by
  cases es with
  | nil =>
    rw [evalArgs, pure_bind, List.append_nil, applyValue_eq]
    exact runs_perform (fun _ => runs_apply hinv span f done) fun _ _ => rfl
  | cons e es =>
    have hrest (v : Value) := runs_args hinv span f (done ++ [v.orNull]) es
    simp only [List.append_assoc, List.singleton_append] at hrest
    simp only [evalArgs, bind_assoc, pure_bind]
    exact (runs_expr hinv e).push (.argument scope span f done es) rfl hrest fun _ _ => rfl
termination_by structural es

end

theorem startLoop_never (host : Host) (invoke : Invoke) (scope : ScopeId) (span : Span) (count : Expr)
    (body : Block) :
    startLoop host .never scope span count body = startLoop host invoke scope span count body := by
  obtain ⟨s, hstart⟩ | ⟨frame, hstart⟩ | ⟨cause, place, -, hstart⟩ := startLoop_cases span count body
  all_goals rw [hstart, hstart]

theorem runs_loop {body : Block} {round : Execution Value} (hsteady : Steady round)
    (hround : setting.Runs depth (.block scope body) round) (frame : LoopFrame) (last : Value) :
    setting.Runs depth (.loop scope body frame last) (loopFrom round frame last) := by
  rintro stack ⟨store, written, polls⟩
  -- every round takes a poll
  induction polls using Nat.strongRecOn generalizing store written frame last with
  | ind polls ih =>
    cases hdone : frame.done with
    | true =>
      rw [loopFrom_of_done hdone]
      refine .single ?_
      simp only [next, act, hdone, if_true]
      rfl
    | false =>
      rw [loopFrom_of_not_done hsteady hdone]
      have hpoll : setting.next ⟨.loop scope body frame last, stack, ⟨store, written, polls⟩, depth⟩ =
          some (Config.perform ⟨.loop scope body frame last, stack, ⟨store, written, polls⟩, depth⟩ poll
            fun _ => .round scope body frame) := by
        simp only [next, act, hdone]
        rfl
      cases polls with
      | zero => exact .single hpoll
      | succ polls =>
        have hbody := hround (.loop scope body frame :: stack) ⟨store, written, polls⟩
        refine .head hpoll (.head rfl (hbody.trans ?_))
        have hok : poll ⟨store, written, polls + 1⟩ = .ok () ⟨store, written, polls⟩ := rfl
        rw [bind_ok hok]
        cases hr : round ⟨store, written, polls⟩ with
        | error e w =>
          rw [bind_error hr]
          exact .single rfl
        | ok v w =>
          obtain ⟨store', written', left⟩ := w
          have hreply : round (Memory.world ⟨store, written⟩ polls) =
              reply (.ok v) (Memory.world ⟨store', written'⟩ left) := hr
          have hle := (hsteady ⟨store, written⟩ polls).polls_le hreply
          rw [bind_ok hr]
          exact .head rfl (ih left (by omega) frame.next v store' written')

mutual

theorem runs_stmt (hsteady : invoke.Steady) (hinv : setting.Enters depth invoke) (s : Stmt) :
    setting.Runs depth (.stmt scope s) (evalStmt setting.host invoke scope s) := by
  cases s with
  | missing => exact Runs.fail fun _ _ => rfl
  | set span target value =>
    cases target with
    | none => exact Runs.fail fun _ _ => rfl
    | some symbol =>
      rw [evalStmt]
      cases hvalue : value.isMissing with
      | true =>
        refine Runs.fail fun stack w => ?_
        simp only [next, act, stepStatement, hvalue]
        rfl
      | false =>
        refine (runs_expr hinv value).push (.target scope symbol.name) rfl (fun v => ?_) fun stack w => ?_
        · exact runs_perform (fun _ => runs_value v.orNull) fun _ _ => rfl
        · simp only [next, act, stepStatement, hvalue]
          rfl
  | branch span condition thenBlock elseBlock =>
    rw [evalStmt]
    cases hmissing : condition.isMissing || thenBlock.isMissing with
    | true =>
      refine Runs.fail fun stack w => ?_
      simp only [next, act, stepStatement, hmissing]
      rfl
    | false =>
      let k : Pending := .condition scope thenBlock elseBlock
      refine (runs_expr hinv condition).push k rfl (fun v => ?_) fun stack w => ?_
      · rw [Pending.resume]
        cases v.isTruthy with
        | true => exact runs_block hsteady hinv thenBlock
        | false =>
          cases elseBlock.isMissing with
          | true => exact runs_value .null
          | false => exact runs_block hsteady hinv elseBlock
      · simp only [next, act, stepStatement, hmissing]
        rfl
  | times span count body =>
    rw [evalStmt_times, ← startLoop_never]
    refine runs_perform (fun frame => ?_) fun _ _ => rfl
    exact runs_loop (evalBlock_steady hsteady scope body) (runs_block hsteady hinv body) frame .absent
  | call span callee args =>
    rw [evalStmt]
    exact (runs_expr hinv (.call span callee args)).turn fun _ _ => rfl
termination_by structural s

theorem runs_block (hsteady : invoke.Steady) (hinv : setting.Enters depth invoke) (b : Block) :
    setting.Runs depth (.block scope b) (evalBlock setting.host invoke scope b) := by
  cases b with
  | missing => exact (runs_value _).turn fun _ _ => rfl
  | of span body => exact (runs_body hsteady hinv .absent body).turn fun _ _ => rfl
termination_by structural b

theorem runs_body (hsteady : invoke.Steady) (hinv : setting.Enters depth invoke) (last : Value)
    (body : List Stmt) :
    setting.Runs depth (.body scope last body) (evalBody setting.host invoke scope last body) := by
  cases body with
  | nil => exact (runs_value last).turn fun _ _ => rfl
  | cons s rest =>
    exact (runs_stmt hsteady hinv s).push (.body scope rest) rfl (fun v => runs_body hsteady hinv v rest)
      fun _ _ => rfl
termination_by structural body

end

theorem enters_invokeAt (setting : Setting) {left : Nat} (h : depth + left = setting.depth) :
    setting.Enters depth (invokeAt setting left) := by
  induction left generalizing depth with
  | zero =>
    intro span c args
    refine Runs.fail fun stack w => ?_
    have hle : setting.depth ≤ depth := Nat.le_of_eq h.symm
    simp only [next, act, stepEnter, hle, if_true]
    rfl
  | succ left ih =>
    intro span c args
    refine runs_call (by omega) (fun id => ?_) span args
    exact runs_block (invokeAt_steady setting left) (ih (by omega)) c.literal.body

end Setting

def Node.doing (scope : ScopeId) : Node → Doing
  | .program p => .body scope .absent p.body
  | .block b => .block scope b
  | .stmt s => .stmt scope s
  | .expr e => .expr scope e
  | .params ps => .failure (.diagnostic ⟨.unexpectedNode .symbolList, ps.span⟩)

/-- The machine comes to the same end as evaluation. -/
theorem Setting.runs_evaluate (setting : Setting) (scope : ScopeId) (n : Node) :
    setting.Runs 0 (n.doing scope) (setting.evaluate scope n) := by
  have hsteady := invokeAt_steady setting setting.depth
  have hinv := enters_invokeAt setting (Nat.zero_add setting.depth)
  cases n with
  | program p => exact runs_body hsteady hinv .absent p.body
  | block b => exact runs_block hsteady hinv b
  | stmt s => exact runs_stmt hsteady hinv s
  | expr e => exact runs_expr hinv e
  | params ps => exact runs_failure _

namespace Setting

variable {setting : Setting} {doing : Doing} {x : Execution Value}

/-- From an empty stack and a counter at zero the machine comes to the end of `x`, and to no other. At each
moment on the way its counter tells how many calls of closures are under way, which are never more than the
limit, and at the end it is back at zero. -/
structure Tallies (setting : Setting) (doing : Doing) (x : Execution Value) : Prop where
  ends : ∀ w, setting.LeadsTo ⟨doing, [], w, 0⟩ (.ended (x w) [] 0)
  counts : ∀ w c, setting.LeadsTo ⟨doing, [], w, 0⟩ c → c.Counts setting.depth
  onward : ∀ w c, setting.LeadsTo ⟨doing, [], w, 0⟩ c → setting.LeadsTo c (.ended (x w) [] 0)

theorem next_ended (r : EStateM.Result Failure World Value) : setting.next (.ended r [] 0) = none := by
  cases r <;> rfl

theorem Runs.tallies (h : setting.Runs 0 doing x) : setting.Tallies doing x where
  ends w := h [] w
  counts _ _ := leadsTo_counts ⟨rfl, Nat.zero_le _⟩
  onward w c hc := by
    have hunique : Relator.RightUnique fun c c' => setting.next c = some c' :=
      fun _ _ _ h h' => Option.some.inj (h.symm.trans h')
    obtain hc | hc := Relation.ReflTransGen.total_of_right_unique hunique hc (h [] w)
    · exact hc
    · obtain rfl | ⟨c', hnext, -⟩ := hc.cases_head
      · exact .refl
      · rw [next_ended] at hnext
        cases hnext

theorem evaluate_tallies (setting : Setting) (scope : ScopeId) (n : Node) :
    setting.Tallies (n.doing scope) (setting.evaluate scope n) :=
  (setting.runs_evaluate scope n).tallies

theorem invoke_tallies (setting : Setting) (span : Span) (c : Closure) (args : List Value) :
    setting.Tallies (.enter span c args) (setting.invoke span c args) :=
  (enters_invokeAt setting (Nat.zero_add setting.depth) span c args).tallies

end Setting

end Stepwise
