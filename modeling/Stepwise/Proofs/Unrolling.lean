import Stepwise.Proofs.Position

/-! Evaluation is stepping to the end. A statement, a block or a list of statements that is stepped
from its front until a step leaves it ends as its evaluation does, with the same value or failure and
in the same memory; and neither of the two ends without the other. -/

namespace Stepwise

open Execution

variable {host : Host} {invoke : Invoke} {scope : ScopeId} {m m' : Memory}
  {r : Except Failure Value}

abbrev unmarked : Execution Unit := pure ()

theorem completes_branch_iff {outer : Position → Execution (Moved Position)} {block : Block}
    {into : Spot → Position} (hinv : invoke.Steady)
    (hstep : ∀ c, outer (into c) =
      Moved.within into leaveBranch <$> advanceBlock unmarked host invoke scope c block) (s : Spot) :
    Completes outer
        (Moved.within into leaveBranch <$> advanceBlock unmarked host invoke scope s block) m r m' ↔
      Completes (advanceBlock unmarked host invoke scope · block)
        (advanceBlock unmarked host invoke scope s block) m r m' := by
  have hsteady (c : Spot) : Steady (advanceBlock unmarked host invoke scope c block) :=
    advanceBlock_steady (steady_pure _) hinv c block
  rw [completes_within_iff hsteady hstep (hsteady s)]
  constructor
  · rintro (⟨v, m₁, h, j, hj⟩ | ⟨f, rfl, h⟩)
    · obtain ⟨-, rfl, rfl⟩ := follows_none_iff.mp hj
      exact h
    · exact h
  · intro h
    cases r with
    | ok v => exact .inl ⟨v, m', h, 0, rfl, rfl, rfl⟩
    | error f => exact .inr ⟨f, rfl, h⟩

/-- Stepping a loop from the front of a round is running it from its frame on. -/
theorem completes_loop_iff {outer : Position → Execution (Moved Position)} {block : Block}
    (hinv : invoke.Steady)
    (hstep : ∀ frame (c : Spot), outer (c.inLoop frame) =
      advanceRound unmarked host invoke scope block frame c)
    (hblock : ∀ m r m', Completes (advanceBlock unmarked host invoke scope · block)
      (advanceBlock unmarked host invoke scope .start block) m r m' ↔
        (evalBlock host invoke scope block).Ends m r m')
    {frame : LoopFrame} (hd : frame.done = false) (last : Value) :
    Completes outer (advanceRound unmarked host invoke scope block frame .start) m r m' ↔
      (loopFrom (evalBlock host invoke scope block) frame last).Ends m r m' := by
  have hsteady (c : Spot) : Steady (advanceBlock unmarked host invoke scope c block) :=
    advanceBlock_steady (steady_pure _) hinv c block
  have hbody : Steady (evalBlock host invoke scope block) := evalBlock_steady hinv scope block
  constructor
  · rintro ⟨n, h⟩
    -- a round takes at least one step, so the steps of the rounds after it are fewer
    induction n using Nat.strongRecOn generalizing frame last m with
    | ind n ih =>
      obtain ⟨k, j, v, m₁, hn, hk, hj⟩ | ⟨f, rfl, hf⟩ :=
        (finishes_within_iff hsteady (hstep frame) (hsteady .start)).mp h
      · obtain ⟨round, hround⟩ := (hblock m (.ok v) m₁).mp ⟨k, hk⟩
        have hpos : k ≠ 0 := by
          rintro rfl
          obtain ⟨f, hf, -⟩ := hk
          cases hf
        have hgo : (loopFrom (evalBlock host invoke scope block) frame.next v).Ends m₁ r m' := by
          cases hd' : frame.next.done with
          | true =>
            rw [leaveRound, if_pos hd'] at hj
            obtain ⟨-, rfl, rfl⟩ := follows_none_iff.mp hj
            rw [loopFrom_of_done hd']
            exact ends_pure_iff.mpr ⟨rfl, rfl⟩
          | false =>
            rw [leaveRound, if_neg (by simp [hd'])] at hj
            have hj : Finishes outer j (outer (Spot.start.inLoop frame.next)) m₁ r m' := hj
            rw [hstep] at hj
            exact ih j (by omega) hd' v hj
        obtain ⟨rest, hrest⟩ := hgo
        exact ⟨_, (endsIn_loopFrom_iff hbody hd).mpr (.inl ⟨round, rest, v, m₁, rfl, hround, hrest⟩)⟩
      · obtain ⟨round, hround⟩ := (hblock m (.error f) m').mp ⟨n, hf⟩
        exact ⟨_, (endsIn_loopFrom_iff hbody hd).mpr (.inr ⟨round, f, rfl, rfl, hround⟩)⟩
  · rintro ⟨used, h⟩
    -- and a round takes at least one poll
    induction used using Nat.strongRecOn generalizing frame last m with
    | ind used ih =>
      rw [advanceRound, completes_within_iff hsteady (hstep frame) (hsteady .start)]
      obtain ⟨round, rest, v, m₁, hu, hround, hrest⟩ | ⟨round, e, -, rfl, he⟩ :=
        (endsIn_loopFrom_iff hbody hd).mp h
      · refine .inl ⟨v, m₁, (hblock m (.ok v) m₁).mpr ⟨round, hround⟩, ?_⟩
        cases hd' : frame.next.done with
        | true =>
          rw [loopFrom_of_done hd'] at hrest
          obtain ⟨rfl, rfl⟩ := ends_pure_iff.mp ⟨rest, hrest⟩
          rw [leaveRound, if_pos hd']
          exact ⟨0, rfl, rfl, rfl⟩
        | false =>
          rw [leaveRound, if_neg (by simp [hd'])]
          obtain ⟨n, hn⟩ := ih rest (by omega) hd' v hrest
          rw [← hstep] at hn
          exact ⟨n, hn⟩
      · exact .inr ⟨e, rfl, (hblock m (.error e) m').mpr ⟨round, he⟩⟩

section Outer

variable {outer : Spot → Execution (Moved Spot)} {count index : Nat} {stmt : Stmt} {rest : List Stmt}

theorem outer_here (hstep : ∀ j p, outer ⟨index + j, p⟩ =
      advanceAt unmarked host invoke scope ⟨index + j, p⟩ count j (stmt :: rest)) (p : Position) :
    outer ⟨index, p⟩ = Moved.within (Spot.mk index) (leaveStmt count index) <$>
      advanceStmt unmarked host invoke scope p stmt := by
  have h := hstep 0 p
  rwa [advanceAt] at h

theorem outer_rest (hstep : ∀ j p, outer ⟨index + j, p⟩ =
      advanceAt unmarked host invoke scope ⟨index + j, p⟩ count j (stmt :: rest)) (j : Nat)
    (p : Position) :
    outer ⟨index + 1 + j, p⟩ = advanceAt unmarked host invoke scope ⟨index + 1 + j, p⟩ count j rest := by
  have h := hstep (j + 1) p
  rw [advanceAt] at h
  rw [show index + 1 + j = index + (j + 1) by omega]
  exact h

end Outer

mutual

/-- A statement that is stepped to its end comes to what its evaluation comes to. -/
theorem completes_stmt_iff (hinv : invoke.Steady) (s : Stmt) (m : Memory)
    (r : Except Failure Value) (m' : Memory) :
    Completes (advanceStmt unmarked host invoke scope · s)
        (advanceStmt unmarked host invoke scope .entry s) m r m' ↔
      (evalStmt host invoke scope s).Ends m r m' := by
  cases s with
  | missing | set | call =>
    rw [advanceStmt_atomic rfl]
    exact completes_leave_iff (evalStmt_steady hinv scope _)
  | branch sp condition thenBlock elseBlock =>
    cases hc : condition.isMissing || thenBlock.isMissing with
    | true =>
      rw [advanceStmt_branch_incomplete hc, evalStmt, if_pos hc]
      exact completes_fail_iff
    | false =>
      rw [advanceStmt_branch_entry hc, evalStmt, if_neg (by simp [hc])]
      have hsteady (b : Block) (s : Spot) : Steady (advanceBlock unmarked host invoke scope s b) :=
        advanceBlock_steady (steady_pure _) hinv s b
      refine completes_bind_congr (evalExpr_steady hinv scope condition)
        (fun v => steady_compositional.advanceBranch (hsteady thenBlock) (hsteady elseBlock) _ _)
        (fun v => ?_) fun v m₁ => ?_
      · split
        · exact evalBlock_steady hinv scope thenBlock
        · split
          · exact steady_pure _
          · exact evalBlock_steady hinv scope elseBlock
      cases hv : v.isTruthy with
      | true =>
        rw [if_pos rfl, advanceBranch, if_pos rfl]
        rw [completes_branch_iff hinv fun c => advanceStmt_inBranch hc true c]
        exact completes_block_iff hinv thenBlock m₁ r m'
      | false =>
        rw [if_neg (by simp), advanceBranch, if_neg (by simp)]
        cases he : elseBlock.isMissing with
        | true =>
          rw [if_pos rfl, if_pos rfl]
          exact completes_leave_iff (steady_pure .null)
        | false =>
          rw [if_neg (by simp), if_neg (by simp)]
          rw [completes_branch_iff hinv fun c => advanceStmt_inElse hc he c]
          exact completes_block_iff hinv elseBlock m₁ r m'
  | times sp count body =>
    cases hb : body.isMissing with
    | true =>
      rw [advanceStmt, if_pos hb, evalStmt_times, startLoop.eq_def, if_pos hb]
      exact completes_fail_iff
    | false =>
      rw [advanceStmt_times_entry hb, evalStmt_times]
      refine completes_bind_congr (startLoop_steady scope sp count body) (fun frame => ?_)
        (fun frame => loopFrom_steady (evalBlock_steady hinv scope body) frame .absent)
        fun frame m₁ => ?_
      · split
        · exact steady_pure _
        · exact (advanceBlock_steady (steady_pure _) hinv .start body).map
      cases hd : frame.done with
      | true =>
        rw [if_pos rfl, loopFrom_of_done hd]
        exact completes_leave_iff (steady_pure .absent)
      | false =>
        rw [if_neg (by simp)]
        exact completes_loop_iff hinv (advanceStmt_inLoop hb) (completes_block_iff hinv body) hd .absent

theorem completes_block_iff (hinv : invoke.Steady) (b : Block) (m : Memory)
    (r : Except Failure Value) (m' : Memory) :
    Completes (advanceBlock unmarked host invoke scope · b)
        (advanceBlock unmarked host invoke scope .start b) m r m' ↔
      (evalBlock host invoke scope b).Ends m r m' := by
  cases b with
  | missing => exact completes_leave_iff (steady_pure .absent)
  | of sp body =>
    cases body with
    | nil => exact completes_leave_iff (steady_pure .absent)
    | cons stmt rest =>
      exact completes_body_iff hinv 0 .absent (stmt :: rest) (by simp) (Nat.zero_add _).symm
        (fun j p => by rw [Nat.zero_add]; rfl) m r m'

/-- The end of a list of statements is stepped as it is evaluated; `outer` is the machine of the
whole list. -/
theorem completes_body_iff {outer : Spot → Execution (Moved Spot)} {count : Nat}
    (hinv : invoke.Steady) (index : Nat) (last : Value) (body : List Stmt) (hne : body ≠ [])
    (hcount : count = index + body.length)
    (hstep : ∀ j p, outer ⟨index + j, p⟩ =
      advanceAt unmarked host invoke scope ⟨index + j, p⟩ count j body)
    (m : Memory) (r : Except Failure Value) (m' : Memory) :
    Completes outer (outer ⟨index, .entry⟩) m r m' ↔
      (evalBody host invoke scope last body).Ends m r m' := by
  cases body with
  | nil => exact (hne rfl).elim
  | cons stmt rest =>
    have hsteady (p : Position) : Steady (advanceStmt unmarked host invoke scope p stmt) :=
      advanceStmt_steady (steady_pure _) hinv p stmt
    have hhere := outer_here hstep
    rw [hhere, completes_within_iff hsteady hhere (hsteady .entry), evalBody,
      ends_bind_iff (evalStmt_steady hinv scope stmt) fun v => evalBody_steady hinv scope v rest]
    simp only [completes_stmt_iff hinv stmt]
    refine or_congr (exists_congr fun v => exists_congr fun m₁ => and_congr_right fun _ => ?_) Iff.rfl
    cases rest with
    | nil =>
      rw [leaveStmt, if_pos (by simp [hcount]), evalBody, ends_pure_iff]
      exact ⟨fun ⟨_, _, hr, hm⟩ => ⟨hr, hm⟩, fun ⟨hr, hm⟩ => ⟨0, rfl, hr, hm⟩⟩
    | cons stmt' rest =>
      rw [leaveStmt, if_neg (by simp only [hcount, List.length_cons]; omega)]
      have hcount' : count = index + 1 + (stmt' :: rest).length := by
        rw [hcount, List.length_cons]
        omega
      exact completes_body_iff hinv (index + 1) v (stmt' :: rest) (by simp) hcount'
        (outer_rest hstep) m₁ r m'

end

end Stepwise
