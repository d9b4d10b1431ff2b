import Stepwise.Proofs.Machine

/-! Positions in a tree, and stepping from one to the next. A position tells which part of a statement
comes next and holds the frames of the loops it is inside of, so that stepping needs no loop stack.
Run to its end, this machine does what evaluation does. -/

namespace Stepwise

open Execution

/-- A place inside a statement: in front of it, in a branch or in a loop body, and there at a place
inside the statement with an index. -/
inductive Position where
  | entry
  | inBranch (truthy : Bool) (index : Nat) (inner : Position)
  | inLoop (frame : LoopFrame) (index : Nat) (inner : Position)

structure Spot where
  index : Nat
  inner : Position

namespace Position

def path : Position → Location
  | .entry => []
  | .inBranch true index inner => 1 :: index :: inner.path
  | .inBranch false index inner => 2 :: index :: inner.path
  | .inLoop _ index inner => 1 :: index :: inner.path

/-- The frames of the loops around a position, the outermost first. -/
def frames : Position → LoopStack
  | .entry => []
  | .inBranch _ _ inner => inner.frames
  | .inLoop frame _ inner => frame :: inner.frames

end Position

namespace Spot

def start : Spot := ⟨0, .entry⟩

def path (s : Spot) : Location := s.index :: s.inner.path

def frames (s : Spot) : LoopStack := s.inner.frames

def inBranch (truthy : Bool) (s : Spot) : Position := .inBranch truthy s.index s.inner

def inLoop (frame : LoopFrame) (s : Spot) : Position := .inLoop frame s.index s.inner

end Spot

def leaveStmt (count index : Nat) (v : Value) : Moved Spot :=
  if count ≤ index + 1 then ⟨v, none⟩ else ⟨v, some ⟨index + 1, .entry⟩⟩

def leaveBranch (v : Value) : Moved Position := ⟨v, none⟩

def leaveRound (frame : LoopFrame) (v : Value) : Moved Position :=
  if frame.next.done then ⟨v, none⟩ else ⟨v, some (.inLoop frame.next 0 .entry)⟩

section

variable (mark : Execution Unit) (host : Host) (invoke : Invoke) (scope : ScopeId)

mutual

/-- Steps a statement from a position in it; `mark` is run on the way into a loop. -/
def advanceStmt (p : Position) : Stmt → Execution (Moved Position)
  | .branch span condition thenBlock elseBlock =>
    if condition.isMissing || thenBlock.isMissing then fail .incompleteIf span
    else
      let enter (truthy : Bool) (s : Spot) : Execution (Moved Position) :=
        if truthy then Moved.within (Spot.inBranch true) leaveBranch <$> advanceBlock s thenBlock
        else if elseBlock.isMissing then pure ⟨.null, none⟩
        else Moved.within (Spot.inBranch false) leaveBranch <$> advanceBlock s elseBlock
      match p with
      | .inBranch truthy index inner => enter truthy ⟨index, inner⟩
      | _ => do
        let v ← evalExpr host invoke scope condition
        enter v.isTruthy .start
  | .times span count body =>
    if body.isMissing then fail .timesWithoutBody span
    else
      let round (frame : LoopFrame) (s : Spot) : Execution (Moved Position) :=
        Moved.within (Spot.inLoop frame) (leaveRound frame) <$> advanceBlock s body
      match p with
      | .inLoop frame index inner => round frame ⟨index, inner⟩
      | _ => do
        let frame ← startLoop host invoke scope span count body
        if frame.done then pure ⟨.absent, none⟩
        else do
          mark
          round frame .start
  | .missing => do return ⟨← evalStmt host invoke scope .missing, none⟩
  | .set span target value => do
    return ⟨← evalStmt host invoke scope (.set span target value), none⟩
  | .call span callee args => do
    return ⟨← evalStmt host invoke scope (.call span callee args), none⟩

def advanceBlock (s : Spot) : Block → Execution (Moved Spot)
  | .missing => pure ⟨.absent, none⟩
  | .of _ body => advanceAt s body.length s.index body

/-- Steps the statement that is `skip` places further on; `s` is its place in the whole list, which
has `count` statements. -/
def advanceAt (s : Spot) (count : Nat) : (skip : Nat) → List Stmt → Execution (Moved Spot)
  | _, [] => pure ⟨.absent, none⟩
  | skip + 1, _ :: rest => advanceAt s count skip rest
  | 0, stmt :: _ => Moved.within (Spot.mk s.index) (leaveStmt count s.index) <$> advanceStmt s.inner stmt

end

def advanceBranch (thenBlock elseBlock : Block) (truthy : Bool) (s : Spot) :
    Execution (Moved Position) :=
  if truthy then
    Moved.within (Spot.inBranch true) leaveBranch <$> advanceBlock mark host invoke scope s thenBlock
  else if elseBlock.isMissing then pure ⟨.null, none⟩
  else
    Moved.within (Spot.inBranch false) leaveBranch <$> advanceBlock mark host invoke scope s elseBlock

def advanceRound (body : Block) (frame : LoopFrame) (s : Spot) : Execution (Moved Position) :=
  Moved.within (Spot.inLoop frame) (leaveRound frame) <$> advanceBlock mark host invoke scope s body

end

section

variable {mark : Execution Unit} {host : Host} {invoke : Invoke} {scope : ScopeId}

theorem advanceStmt_atomic {s : Stmt} (h : s.isAtomic) (p : Position) :
    advanceStmt mark host invoke scope p s =
      (fun v => ⟨v, none⟩) <$> evalStmt host invoke scope s := by
  cases s with
  | branch | times => simp [Stmt.isAtomic] at h
  | missing | set | call => rw [advanceStmt, map_eq_pure_bind]

theorem advanceStmt_branch_incomplete {span : Span} {condition : Expr} {thenBlock elseBlock : Block}
    (h : (condition.isMissing || thenBlock.isMissing) = true) (p : Position) :
    advanceStmt mark host invoke scope p (.branch span condition thenBlock elseBlock) =
      fail .incompleteIf span := by
  rw [advanceStmt, if_pos h]

theorem advanceStmt_inBranch {span : Span} {condition : Expr} {thenBlock elseBlock : Block}
    (h : (condition.isMissing || thenBlock.isMissing) = false) (truthy : Bool) (s : Spot) :
    advanceStmt mark host invoke scope (s.inBranch truthy)
        (.branch span condition thenBlock elseBlock) =
      advanceBranch mark host invoke scope thenBlock elseBlock truthy s := by
  rw [advanceStmt, if_neg (by simp [h])]
  rfl

/-- Within a branch that is there, the step is one of its block. -/
theorem advanceStmt_inElse {span : Span} {condition : Expr} {thenBlock elseBlock : Block}
    (h : (condition.isMissing || thenBlock.isMissing) = false) (helse : elseBlock.isMissing = false)
    (s : Spot) :
    advanceStmt mark host invoke scope (s.inBranch false)
        (.branch span condition thenBlock elseBlock) =
      Moved.within (Spot.inBranch false) leaveBranch <$>
        advanceBlock mark host invoke scope s elseBlock := by
  rw [advanceStmt_inBranch h, advanceBranch, if_neg (by simp), if_neg (by simp [helse])]

theorem advanceStmt_branch_entry {span : Span} {condition : Expr} {thenBlock elseBlock : Block}
    (h : (condition.isMissing || thenBlock.isMissing) = false) :
    advanceStmt mark host invoke scope .entry (.branch span condition thenBlock elseBlock) =
      (do
        let v ← evalExpr host invoke scope condition
        advanceBranch mark host invoke scope thenBlock elseBlock v.isTruthy .start) := by
  rw [advanceStmt, if_neg (by simp [h])]
  rfl

theorem advanceStmt_inLoop {span : Span} {count : Expr} {body : Block} (h : body.isMissing = false)
    (frame : LoopFrame) (s : Spot) :
    advanceStmt mark host invoke scope (s.inLoop frame) (.times span count body) =
      advanceRound mark host invoke scope body frame s := by
  rw [advanceStmt, if_neg (by simp [h])]
  rfl

theorem advanceStmt_times_entry {span : Span} {count : Expr} {body : Block}
    (h : body.isMissing = false) :
    advanceStmt mark host invoke scope .entry (.times span count body) =
      (do
        let frame ← startLoop host invoke scope span count body
        if frame.done then pure ⟨.absent, none⟩
        else do
          mark
          advanceRound mark host invoke scope body frame .start) := by
  rw [advanceStmt, if_neg (by simp [h])]
  rfl

section

variable {P : RunProperty} {may : Name → Prop}

theorem Compositional.advanceBranch (h : Compositional P) {thenBlock elseBlock : Block}
    (hthen : ∀ s, P (Moved Spot) (advanceBlock mark host invoke scope s thenBlock))
    (helse : ∀ s, P (Moved Spot) (advanceBlock mark host invoke scope s elseBlock)) (truthy : Bool)
    (s : Spot) :
    P (Moved Position) (advanceBranch mark host invoke scope thenBlock elseBlock truthy s) := by
  rw [Stepwise.advanceBranch]
  split
  · exact h.map (hthen s)
  · split
    · exact h.pure _
    · exact h.map (helse s)

namespace Executes

mutual

/-- What is true of evaluation is true of the moves that it is made of. -/
theorem advanceStmt (h : Executes P may host invoke scope) (hmark : P Unit mark) (p : Position)
    (s : Stmt) (hs : ∀ name ∈ s.names, may name) :
    P (Moved Position) (advanceStmt mark host invoke scope p s) := by
  cases s with
  | missing | set | call =>
    rw [advanceStmt_atomic rfl]
    exact h.map (h.evalStmt _ fun name hname => hs name (Stmt.mem_names_of_assigned _ hname))
  | branch sp condition thenBlock elseBlock =>
    simp only [Stmt.names, List.forall_mem_append] at hs
    have henter := h.advanceBranch (fun s => advanceBlock h hmark s thenBlock hs.2.1)
      fun s => advanceBlock h hmark s elseBlock hs.2.2
    rw [Stepwise.advanceStmt]
    split
    · exact h.fail _ rfl
    cases p with
    | inBranch truthy index inner => exact henter truthy ⟨index, inner⟩
    | entry | inLoop => exact h.bind (h.expr condition) fun v => henter v.isTruthy .start
  | times sp count body =>
    simp only [Stmt.names, List.forall_mem_append] at hs
    have hround (s : Spot) := advanceBlock h hmark s body hs.2
    rw [Stepwise.advanceStmt]
    split
    · exact h.fail _ rfl
    cases p with
    | inLoop frame index inner => exact h.map (hround ⟨index, inner⟩)
    | entry | inBranch =>
      refine h.bind (h.start sp count body) fun frame => ?_
      split
      · exact h.pure _
      · exact h.bind hmark fun _ => h.map (hround .start)

theorem advanceBlock (h : Executes P may host invoke scope) (hmark : P Unit mark) (s : Spot)
    (b : Block) (hb : ∀ name ∈ b.names, may name) :
    P (Moved Spot) (advanceBlock mark host invoke scope s b) := by
  cases b with
  | missing => exact h.pure _
  | of sp body => exact advanceAt h hmark s _ _ body hb

theorem advanceAt (h : Executes P may host invoke scope) (hmark : P Unit mark) (s : Spot)
    (count skip : Nat) (body : List Stmt) (hbody : ∀ name ∈ Stmt.namesOf body, may name) :
    P (Moved Spot) (advanceAt mark host invoke scope s count skip body) := by
  cases body with
  | nil => cases skip <;> exact h.pure _
  | cons stmt rest =>
    simp only [Stmt.namesOf, List.forall_mem_append] at hbody
    cases skip with
    | zero =>
      rw [Stepwise.advanceAt]
      exact h.map (advanceStmt h hmark s.inner stmt hbody.1)
    | succ skip =>
      rw [Stepwise.advanceAt]
      exact advanceAt h hmark s count skip rest hbody.2

end

end Executes

end

theorem advanceStmt_steady (hmark : Steady mark) (hinv : invoke.Steady) (p : Position) (s : Stmt) :
    Steady (advanceStmt mark host invoke scope p s) :=
  (steady_executes hinv scope).advanceStmt hmark p s fun _ _ => trivial

theorem advanceBlock_steady (hmark : Steady mark) (hinv : invoke.Steady) (s : Spot) (b : Block) :
    Steady (advanceBlock mark host invoke scope s b) :=
  (steady_executes hinv scope).advanceBlock hmark s b fun _ _ => trivial

end

end Stepwise
