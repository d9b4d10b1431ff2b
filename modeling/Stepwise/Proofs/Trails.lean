import Stepwise.Proofs.Coherence
import Stepwise.Proofs.Equivalence

/-! Trails. What evaluating a program, or one step of it, comes by on its way: statements that are run,
loops with no round to run, an `if` with no branch to take, empty blocks, and the ways into branches and
loops. A trail costs one for each of these but for the ways in, which are free. -/

namespace Stepwise

open Execution

inductive Landmark where
  /-- A `set` or a call is run. -/
  | statement (s : Stmt)
  /-- The count of a loop is not positive. -/
  | noRound
  /-- A condition is false, and there is no other branch. -/
  | noBranch
  /-- Nothing is left to run in a block. -/
  | blockEnd
  /-- A branch or a loop is entered. -/
  | entrance

namespace Landmark

def cost : Landmark → Nat
  | .entrance => 0
  | _ => 1

def isStatement : Landmark → Bool
  | .statement _ => true
  | _ => false

end Landmark

abbrev Trail := List Landmark

namespace Trail

def cost (t : Trail) : Nat := (t.map Landmark.cost).sum

def statements (t : Trail) : Nat := t.countP Landmark.isStatement

@[simp] theorem cost_nil : cost [] = 0 := rfl

@[simp] theorem cost_cons (l : Landmark) (t : Trail) : cost (l :: t) = l.cost + t.cost := rfl

@[simp] theorem cost_append (t t' : Trail) : cost (t ++ t') = t.cost + t'.cost := by
  simp [cost]

theorem cost_entrance (t : Trail) : cost ([.entrance] ++ t) = t.cost := Nat.zero_add _

theorem statements_le_cost (t : Trail) : t.statements ≤ t.cost := by
  induction t with
  | nil => exact Nat.le_refl 0
  | cons l t ih =>
    have hl : (if l.isStatement then 1 else 0) ≤ l.cost := by
      cases l <;> simp [Landmark.isStatement, Landmark.cost]
    rw [statements, List.countP_cons, cost_cons, Nat.add_comm]
    exact Nat.add_le_add hl ih

end Trail

/-- A run after a way that has led to it. -/
def via {α : Type} (way : Trail) (x : Execution (α × Trail)) : Execution (α × Trail) :=
  Prod.map id (way ++ ·) <$> x

/-- The trail of a run after a way is that way, and the trail of the run. -/
theorem via_eq_ok {α : Type} {way trail : Trail} {x : Execution (α × Trail)} {a : α} {w w' : World}
    (h : via way x w = .ok (a, trail) w') : ∃ rest, trail = way ++ rest ∧ x w = .ok (a, rest) w' := by
  obtain ⟨⟨b, rest⟩, hx, hb⟩ := map_eq_ok h
  cases hb
  exact ⟨rest, rfl, hx⟩

section

variable (host : Host) (invoke : Invoke) (scope : ScopeId)

def walkLoop (body : Execution (Value × Trail)) :
    (rounds : Nat) → LoopFrame → Value → Execution (Value × Trail)
  | 0, _, _ => throw .canceled
  | rounds + 1, frame, last =>
    if frame.done then pure (last, [])
    else do
      poll
      let (v, trail) ← body
      via trail (walkLoop body rounds frame.next v)

mutual

/-- Evaluates a statement and keeps the trail. The trail of a call is the call: what is run inside of a
function leaves none. -/
def walkStmt : Stmt → Execution (Value × Trail)
  | .branch span condition thenBlock elseBlock =>
    if condition.isMissing || thenBlock.isMissing then fail .incompleteIf span
    else do
      let v ← evalExpr host invoke scope condition
      if v.isTruthy then via [.entrance] (walkBlock thenBlock)
      else if elseBlock.isMissing then return (.null, [.noBranch])
      else via [.entrance] (walkBlock elseBlock)
  | .times span count body => do
    let frame ← startLoop host invoke scope span count body
    let w ← get
    via [if frame.done then .noRound else .entrance]
      (walkLoop (walkBlock body) (w.polls + 1) frame .absent)
  | .missing => return (← evalStmt host invoke scope .missing, [.statement .missing])
  | .set span target value =>
    return (← evalStmt host invoke scope (.set span target value), [.statement (.set span target value)])
  | .call span callee args =>
    return (← evalStmt host invoke scope (.call span callee args), [.statement (.call span callee args)])

def walkBlock : Block → Execution (Value × Trail)
  | .missing => pure (.absent, [.blockEnd])
  | .of _ [] => pure (.absent, [.blockEnd])
  | .of _ (s :: rest) => walkBody .absent (s :: rest)

def walkBody (last : Value) : List Stmt → Execution (Value × Trail)
  | [] => pure (last, [])
  | s :: rest => do
    let (v, trail) ← walkStmt s
    via trail (walkBody v rest)

end

/-- A branch is entered where its condition is evaluated. -/
def wayInto (loc : Location) : Trail := if loc.below.head = 0 then [.entrance] else []

mutual

/-- Steps a statement and keeps the trail. -/
def treadStmt (loc : Location) : Stmt → Execution (Stepped × Trail)
  | .branch span condition thenBlock elseBlock =>
    if condition.isMissing || thenBlock.isMissing then fail .incompleteIf span
    else do
      let path ← enterBranch host invoke scope condition loc.below
      if path.head = 1 then
        let (s, trail) ← treadBlock path thenBlock
        return (loc.leave 1 s, wayInto loc ++ trail)
      else if path.head = 2 then
        if elseBlock.isMissing then return (⟨.null, loc.past⟩, [.noBranch])
        else
          let (s, trail) ← treadBlock path elseBlock
          return (loc.leave 2 s, wayInto loc ++ trail)
      else fail (.noIfChild loc path.head) span
  | .times span count body =>
    if body.isMissing then fail .timesWithoutBody span
    else if loc.below.isEmpty then do
      let frame ← startLoop host invoke scope span count body
      if frame.done then return (⟨.absent, loc.past⟩, [.noRound])
      else do
        let (ref, frame) ← takeFrame scope span loc (some frame)
        let (s, trail) ← treadBlock [1, 0] body
        return (← resumeLoop ref frame loc s, .entrance :: trail)
    else if loc.below.head ≠ 1 then fail (.noTimesChild loc loc.below.head) span
    else do
      let (ref, frame) ← takeFrame scope span loc none
      let (s, trail) ← treadBlock loc.below body
      return (← resumeLoop ref frame loc s, trail)
  | .missing => return (⟨← evalStmt host invoke scope .missing, loc.past⟩, [.statement .missing])
  | .set span target value =>
    return (⟨← evalStmt host invoke scope (.set span target value), loc.past⟩,
      [.statement (.set span target value)])
  | .call span callee args =>
    return (⟨← evalStmt host invoke scope (.call span callee args), loc.past⟩,
      [.statement (.call span callee args)])

def treadBlock (loc : Location) : Block → Execution (Stepped × Trail)
  | .missing => return (⟨.absent, loc.past⟩, [.blockEnd])
  | .of _ body =>
    if loc.below.head < 0 then fail (.negativeIndex loc) .nowhere
    else treadAt loc body.length loc.below.head.toNat body

def treadAt (loc : Location) (count : Nat) : (skip : Nat) → List Stmt → Execution (Stepped × Trail)
  | _, [] => return (⟨.absent, loc.past⟩, [.blockEnd])
  | skip + 1, _ :: rest => treadAt loc count skip rest
  | 0, s :: _ => do
    let (r, trail) ← treadStmt loc.below s
    return (if r.next.head ≥ count then ⟨r.value, loc.past⟩ else ⟨r.value, loc.head :: r.next⟩, trail)

end

end

namespace Setting

def walk (setting : Setting) (scope : ScopeId) (p : Program) : Execution (Value × Trail) :=
  walkBlock setting.host setting.invoke scope p.block

/-- A step that succeeds, with its trail. -/
def tread (setting : Setting) (scope : ScopeId) (n : Node) (loc : Location) :
    Execution (Stepped × Trail) :=
  if loc.done then return (⟨.absent, .finished⟩, [])
  else do
    poll
    match n.steppable with
    | .error d => throw (.diagnostic d)
    | .ok body =>
      let (s, trail) ← treadBlock setting.host setting.invoke scope loc (.of .nowhere body)
      return (s.closed, trail)

end Setting

section Erasure

variable {α β : Type}

theorem fst_via (way : Trail) (x : Execution (α × Trail)) : Prod.fst <$> via way x = Prod.fst <$> x := by
  rw [via, Functor.map_map]
  rfl

theorem fst_bind {x : Execution (α × Trail)} {f : α × Trail → Execution (β × Trail)}
    {g : α → Execution β} (h : ∀ a t, Prod.fst <$> f (a, t) = g a) :
    Prod.fst <$> (x >>= f) = (Prod.fst <$> x) >>= g := by
  rw [map_bind, bind_map_left]
  exact bind_congr fun (a, t) => h a t

theorem fst_walkLoop (body : Execution (Value × Trail)) (rounds : Nat) (frame : LoopFrame) (last : Value) :
    Prod.fst <$> walkLoop body rounds frame last = runLoop (Prod.fst <$> body) rounds frame last := by
  induction rounds generalizing frame last with
  | zero => rfl
  | succ rounds ih =>
    rw [walkLoop, runLoop]
    split
    · rfl
    · rw [map_bind]
      exact bind_congr fun _ => fst_bind fun v trail => by rw [fst_via, ih]

variable {host : Host} {invoke : Invoke} {scope : ScopeId}

mutual

theorem fst_walkStmt (s : Stmt) :
    Prod.fst <$> walkStmt host invoke scope s = evalStmt host invoke scope s := by
  cases s with
  | missing | set | call =>
    rw [walkStmt, map_bind]
    exact bind_pure _
  | branch sp condition thenBlock elseBlock =>
    rw [walkStmt, evalStmt]
    split
    · rfl
    rw [map_bind]
    refine bind_congr fun v => ?_
    split
    · rw [fst_via, fst_walkBlock]
    split
    · rfl
    · rw [fst_via, fst_walkBlock]
  | times sp count body =>
    rw [walkStmt, evalStmt, map_bind]
    refine bind_congr fun frame => ?_
    rw [map_bind]
    refine bind_congr fun w => ?_
    rw [fst_via, fst_walkLoop, fst_walkBlock]

theorem fst_walkBlock (b : Block) :
    Prod.fst <$> walkBlock host invoke scope b = evalBlock host invoke scope b := by
  cases b with
  | missing => rfl
  | of sp body =>
    cases body with
    | nil => rfl
    | cons s rest => exact fst_walkBody .absent (s :: rest)

theorem fst_walkBody (last : Value) (body : List Stmt) :
    Prod.fst <$> walkBody host invoke scope last body = evalBody host invoke scope last body := by
  cases body with
  | nil => rfl
  | cons s rest =>
    rw [walkBody, evalBody, ← fst_walkStmt s]
    exact fst_bind fun v trail => by rw [fst_via, fst_walkBody v rest]

end

mutual

theorem fst_treadStmt (loc : Location) (s : Stmt) :
    Prod.fst <$> treadStmt host invoke scope loc s = stepStmt host invoke scope loc s := by
  cases s with
  | missing | set | call =>
    rw [treadStmt, stepStmt, map_bind]
    rfl
  | branch sp condition thenBlock elseBlock =>
    rw [treadStmt, stepStmt]
    split
    · rfl
    rw [map_bind]
    refine bind_congr fun path => ?_
    split
    · rw [← fst_treadBlock path thenBlock]
      exact fst_bind fun s trail => rfl
    split
    · split
      · rfl
      · rw [← fst_treadBlock path elseBlock]
        exact fst_bind fun s trail => rfl
    · rfl
  | times sp count body =>
    rw [treadStmt, stepStmt]
    split
    · rfl
    split
    · rw [map_bind]
      refine bind_congr fun frame => ?_
      split
      · rfl
      rw [map_bind]
      refine bind_congr fun taken => ?_
      rw [← fst_treadBlock _ body]
      exact fst_bind fun s trail => by rw [map_bind]; exact bind_pure _
    split
    · rfl
    · rw [map_bind]
      refine bind_congr fun taken => ?_
      rw [← fst_treadBlock _ body]
      exact fst_bind fun s trail => by rw [map_bind]; exact bind_pure _

theorem fst_treadBlock (loc : Location) (b : Block) :
    Prod.fst <$> treadBlock host invoke scope loc b = stepBlock host invoke scope loc b := by
  cases b with
  | missing => rfl
  | of sp body =>
    rw [treadBlock, stepBlock]
    split
    · rfl
    · exact fst_treadAt loc _ _ body

theorem fst_treadAt (loc : Location) (count skip : Nat) (body : List Stmt) :
    Prod.fst <$> treadAt host invoke scope loc count skip body =
      stepAt host invoke scope loc count skip body := by
  cases body with
  | nil => cases skip <;> rfl
  | cons s rest =>
    cases skip with
    | zero =>
      rw [treadAt, stepAt, ← fst_treadStmt loc.below s]
      refine fst_bind fun r trail => ?_
      rw [← apply_ite pure]
      rfl
    | succ skip =>
      rw [treadAt, stepAt]
      exact fst_treadAt loc count skip rest

end

end Erasure

section Units

variable {host : Host} {invoke : Invoke} {scope : ScopeId}

theorem cost_wayInto_append (loc : Location) (t : Trail) : Trail.cost (wayInto loc ++ t) = t.cost := by
  rw [wayInto]
  split
  · exact t.cost_entrance
  · rfl

mutual

/-- A step of a statement that succeeds costs one. -/
theorem treadStmt_cost (loc : Location) (s : Stmt) {w w' : World}
    {r : Stepped} {trail : Trail} (h : treadStmt host invoke scope loc s w = .ok (r, trail) w') :
    trail.cost = 1 := by
  cases s with
  | missing | set | call =>
    rw [treadStmt] at h
    obtain ⟨v, w₁, -, h⟩ := bind_eq_ok h
    cases h
    rfl
  | branch sp condition thenBlock elseBlock =>
    rw [treadStmt] at h
    split at h
    · cases h
    obtain ⟨path, w₁, -, h⟩ := bind_eq_ok h
    split at h
    · obtain ⟨⟨s, t⟩, w₂, hthen, h⟩ := bind_eq_ok h
      cases h
      rw [cost_wayInto_append]
      exact treadBlock_cost path thenBlock hthen
    split at h
    · split at h
      · cases h
        rfl
      · obtain ⟨⟨s, t⟩, w₂, helse, h⟩ := bind_eq_ok h
        cases h
        rw [cost_wayInto_append]
        exact treadBlock_cost path elseBlock helse
    · cases h
  | times sp count body =>
    rw [treadStmt] at h
    split at h
    · cases h
    split at h
    · obtain ⟨frame, w₁, -, h⟩ := bind_eq_ok h
      split at h
      · cases h
        rfl
      obtain ⟨⟨ref, top⟩, w₂, -, h⟩ := bind_eq_ok h
      obtain ⟨⟨s, t⟩, w₃, hbody, h⟩ := bind_eq_ok h
      obtain ⟨s', w₄, -, h⟩ := bind_eq_ok h
      cases h
      rw [Trail.cost_cons, treadBlock_cost _ body hbody]
      rfl
    split at h
    · cases h
    · obtain ⟨⟨ref, top⟩, w₁, -, h⟩ := bind_eq_ok h
      obtain ⟨⟨s, t⟩, w₂, hbody, h⟩ := bind_eq_ok h
      obtain ⟨s', w₃, -, h⟩ := bind_eq_ok h
      cases h
      exact treadBlock_cost _ body hbody

theorem treadBlock_cost (loc : Location) (b : Block) {w w' : World}
    {r : Stepped} {trail : Trail} (h : treadBlock host invoke scope loc b w = .ok (r, trail) w') :
    trail.cost = 1 := by
  cases b with
  | missing =>
    cases h
    rfl
  | of sp body =>
    rw [treadBlock] at h
    split at h
    · cases h
    · exact treadAt_cost loc _ _ body h

theorem treadAt_cost (loc : Location) (count skip : Nat) (body : List Stmt) {w w' : World}
    {r : Stepped} {trail : Trail} (h : treadAt host invoke scope loc count skip body w = .ok (r, trail) w') :
    trail.cost = 1 := by
  cases body with
  | nil =>
    cases skip <;> cases h <;> rfl
  | cons s rest =>
    cases skip with
    | zero =>
      rw [treadAt] at h
      obtain ⟨⟨s', t⟩, w₁, hstmt, h⟩ := bind_eq_ok h
      cases h
      exact treadStmt_cost loc.below s hstmt
    | succ skip =>
      rw [treadAt] at h
      exact treadAt_cost loc count skip rest h

end

end Units

namespace Setting

variable {setting : Setting} {scope : ScopeId} {w w' : World}

theorem fst_walk (setting : Setting) (scope : ScopeId) (p : Program) :
    Prod.fst <$> setting.walk scope p = setting.evaluate scope (.program p) :=
  fst_walkBlock p.block

/-- An evaluation that succeeds has a trail. -/
theorem exists_walk {p : Program} {v : Value}
    (h : setting.evaluate scope (.program p) w = .ok v w') :
    ∃ trail, setting.walk scope p w = .ok (v, trail) w' := by
  rw [← fst_walk] at h
  obtain ⟨⟨v', trail⟩, hw, rfl⟩ := map_eq_ok h
  exact ⟨trail, hw⟩

/-- So does a step, and its trail costs one, or nothing if the location is over. -/
theorem exists_tread {n : Node} {loc : Location} {s : Stepped}
    (h : setting.step scope n loc w = .ok s w') :
    ∃ trail, setting.tread scope n loc w = .ok (s, trail) w' ∧
      trail.cost = if loc.done then 0 else 1 := by
  rw [step_eq] at h
  rw [tread]
  split at h
  · next hdone =>
    rw [if_pos hdone, if_pos hdone]
    cases h
    exact ⟨[], rfl, rfl⟩
  · next hdone =>
    rw [if_neg hdone, if_neg hdone]
    obtain ⟨⟨⟩, w₁, hpoll, h⟩ := bind_eq_ok h
    rw [bind_ok hpoll]
    cases hbody : n.steppable with
    | error d =>
      rw [hbody] at h
      cases h
    | ok body =>
      rw [hbody] at h
      obtain ⟨s₀, w₂, hguarded, h⟩ := bind_eq_ok h
      have hstep : (Prod.fst <$> treadBlock setting.host setting.invoke scope loc (.of .nowhere body)) w₁ =
          .ok s₀ w₂ := by
        rw [fst_treadBlock]
        exact guarded_eq_ok hguarded
      obtain ⟨⟨s₁, trail⟩, htread, rfl⟩ := map_eq_ok hstep
      have hclosed : (pure s₀.closed : Execution Stepped) w₂ = .ok s w' := h
      cases hclosed
      exact ⟨trail, bind_ok htread, treadBlock_cost loc _ htread⟩

end Setting

end Stepwise
