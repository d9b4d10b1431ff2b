import Stepwise.Proofs.Fitting
import Stepwise.Proofs.Indifference
import Stepwise.Proofs.Unrolling

/-! Loop stacks are the only trace that stepping leaves beside evaluation. The machine that makes a loop
stack on its way into a loop runs in lockstep with the one that does not, so the two come to the same
end or both to none. -/

namespace Stepwise

open Execution

namespace Execution

variable {α : Type} {R : Store → Store → Prop} {P : α → Prop} {x y : Execution α}

theorem Parallel.symm (h : Parallel R P x y) : Parallel (fun t s => R s t) P y x := by
  intro t s out polls hR
  obtain ⟨r, s', t', out', polls', hx, hy, hR', hP⟩ := h s t out polls hR
  exact ⟨r, t', s', out', polls', hy, hx, hR', hP⟩

theorem Parallel.ends (h : Parallel R P x y) (hy : Steady y) {m m' : Memory} {t : Store}
    {r : Except Failure α} (hR : R m.store t) (hx : x.Ends m r m') :
    ∃ t', y.Ends ⟨t, m.written⟩ r ⟨t', m'.written⟩ ∧ R m'.store t' := by
  obtain ⟨used, hx⟩ := hx
  obtain ⟨r', s', t', out', polls', hx', hy', hR', -⟩ := h m.store t m.written (used + 1) hR
  obtain ⟨rfl, hw⟩ := reply_inj (hx'.symm.trans (hx 1))
  cases hw
  have hy' : y (Memory.world ⟨t, m.written⟩ (used + 1)) =
      reply r' (Memory.world ⟨t', m'.written⟩ (0 + 1)) := hy'
  obtain ⟨used', -, hends⟩ := (hy ⟨t, m.written⟩ (used + 1)).endsIn hy'
  exact ⟨t', ⟨used', hends⟩, hR'⟩

end Execution

/-- Machines whose steps are parallel come to their ends together. -/
theorem Finishes.transfer {κ : Type} {R : Store → Store → Prop}
    {step step' : κ → Execution (Moved κ)}
    (hstep : ∀ c, Parallel R (fun _ => True) (step c) (step' c)) (hsteady : ∀ c, Steady (step' c))
    {n : Nat} {x y : Execution (Moved κ)} (hxy : Parallel R (fun _ => True) x y) (hy : Steady y)
    {m m' : Memory} {t : Store} {r : Except Failure Value} (hR : R m.store t)
    (h : Finishes step n x m r m') :
    ∃ t', Finishes step' n y ⟨t, m.written⟩ r ⟨t', m'.written⟩ ∧ R m'.store t' := by
  induction n generalizing x y m t with
  | zero =>
    obtain ⟨f, rfl, h⟩ := h
    obtain ⟨t', h', hR'⟩ := hxy.ends hy hR h
    exact ⟨t', ⟨f, rfl, h'⟩, hR'⟩
  | succ n ih =>
    obtain ⟨mv, m₁, h, hnext⟩ := h
    obtain ⟨t₁, h', hR₁⟩ := hxy.ends hy hR h
    cases hmv : mv.next with
    | none =>
      rw [hmv] at hnext
      obtain ⟨hn, hr, rfl⟩ := hnext
      refine ⟨t₁, ⟨mv, _, h', ?_⟩, hR₁⟩
      rw [hmv]
      exact ⟨hn, hr, rfl⟩
    | some c =>
      rw [hmv] at hnext
      obtain ⟨t', hgo, hR'⟩ := ih (hstep c) (hsteady c) hR₁ hnext
      refine ⟨t', ⟨mv, _, h', ?_⟩, hR'⟩
      rw [hmv]
      exact hgo

variable {shared : Nat → Prop} {host : Host} {invoke : Invoke} {scope : ScopeId}

theorem parallel_markLoops (scope : ScopeId) :
    Parallel (Store.Alike shared) (fun _ => True) unmarked (markLoops scope) := by
  intro s t out polls hR
  cases h : t.loops? scope with
  | some ref =>
    exact ⟨.ok (), s, t, out, polls, rfl, markLoops_of_ensure (LoopStack.ensure_of_loops h), hR,
      fun _ _ => trivial⟩
  | none =>
    let t' := (t.addStack []).set scope loopBinding (.loops t.nextStack)
    have hadd : t.SameBindings (t.addStack []) := ⟨rfl, fun _ => rfl, fun _ _ _ => rfl, rfl⟩
    have hbind : t.SameBindings t' := hadd.trans ((t.addStack []).sameBindings_set_loops scope _)
    have hR' : s.Alike shared t' :=
      { hR.toSameBindings.trans hbind with
        stack := fun ref hr => by
          rw [Store.stack_set, Store.stack_addStack_nil]
          exact hR.stack ref hr
        plain := hR.plain }
    exact ⟨.ok (), s, t', out, polls, rfl, markLoops_of_ensure (LoopStack.ensure_of_none h), hR',
      fun _ _ => trivial⟩

abbrev InLockstep {κ : Type} (shared : Nat → Prop) (x y : Execution (Moved κ)) : Prop :=
  Parallel (Store.Alike shared) (fun _ => True) x y

mutual

theorem advanceStmt_lockstep (hhost : host.IgnoresLoops) (hinv : invoke.Indifferent shared)
    (p : Position) (s : Stmt) (hs : loopBinding ∉ s.names) :
    InLockstep shared (advanceStmt unmarked host invoke scope p s)
      (advanceStmt (markLoops scope) host invoke scope p s) := by
  cases s with
  | missing | set | call =>
    rw [advanceStmt_atomic rfl, advanceStmt_atomic rfl]
    exact (evalStmt_indifferent hhost hinv _ hs).map fun _ _ => trivial
  | branch sp condition thenBlock elseBlock =>
    simp only [Stmt.names, List.mem_append, not_or] at hs
    have henter (truthy : Bool) (c : Spot) :
        InLockstep shared (advanceBranch unmarked host invoke scope thenBlock elseBlock truthy c)
          (advanceBranch (markLoops scope) host invoke scope thenBlock elseBlock truthy c) := by
      rw [advanceBranch, advanceBranch]
      split
      · exact (advanceBlock_lockstep hhost hinv c thenBlock hs.2.1).map fun _ _ => trivial
      · split
        · exact parallel_pure trivial
        · exact (advanceBlock_lockstep hhost hinv c elseBlock hs.2.2).map fun _ _ => trivial
    rw [advanceStmt, advanceStmt]
    split
    · exact parallel_fail _ _
    cases p with
    | inBranch truthy index inner => exact henter truthy ⟨index, inner⟩
    | entry | inLoop =>
      exact (evalExpr_indifferent hhost hinv condition hs.1).bind fun v _ => henter v.isTruthy .start
  | times sp count body =>
    simp only [Stmt.names, List.mem_append, not_or] at hs
    have hround (frame : LoopFrame) (c : Spot) :
        InLockstep shared (advanceRound unmarked host invoke scope body frame c)
          (advanceRound (markLoops scope) host invoke scope body frame c) :=
      (advanceBlock_lockstep hhost hinv c body hs.2).map fun _ _ => trivial
    rw [advanceStmt, advanceStmt]
    split
    · exact parallel_fail _ _
    cases p with
    | inLoop frame index inner => exact hround frame ⟨index, inner⟩
    | entry | inBranch =>
      refine (startLoop_indifferent sp body hs.1).bind fun frame _ => ?_
      split
      · exact parallel_pure trivial
      · exact (parallel_markLoops scope).bind fun _ _ => hround frame .start

theorem advanceBlock_lockstep (hhost : host.IgnoresLoops) (hinv : invoke.Indifferent shared)
    (c : Spot) (b : Block) (hb : loopBinding ∉ b.names) :
    InLockstep shared (advanceBlock unmarked host invoke scope c b)
      (advanceBlock (markLoops scope) host invoke scope c b) := by
  cases b with
  | missing => exact parallel_pure trivial
  | of sp body => exact advanceAt_lockstep hhost hinv c _ _ body hb

theorem advanceAt_lockstep (hhost : host.IgnoresLoops) (hinv : invoke.Indifferent shared)
    (c : Spot) (count skip : Nat) (body : List Stmt) (hbody : loopBinding ∉ Stmt.namesOf body) :
    InLockstep shared (advanceAt unmarked host invoke scope c count skip body)
      (advanceAt (markLoops scope) host invoke scope c count skip body) := by
  cases body with
  | nil => cases skip <;> exact parallel_pure trivial
  | cons stmt rest =>
    simp only [Stmt.namesOf, List.mem_append, not_or] at hbody
    cases skip with
    | zero =>
      rw [advanceAt, advanceAt]
      exact (advanceStmt_lockstep hhost hinv c.inner stmt hbody.1).map fun _ _ => trivial
    | succ skip =>
      rw [advanceAt, advanceAt]
      exact advanceAt_lockstep hhost hinv c count skip rest hbody.2

end

/-- Evaluating a block, and stepping through it in a store that is alike, come to the same end. -/
theorem evalBlock_ends_iff_completes (hhost : host.IgnoresLoops) (hinv : invoke.Indifferent shared)
    (hsteady : invoke.Steady) {b : Block} (hb : loopBinding ∉ b.names) {s t : Store}
    (hR : s.Alike shared t) (out out' : Array Bytes) (r : Except Failure Value) :
    (∀ s', (evalBlock host invoke scope b).Ends ⟨s, out⟩ r ⟨s', out'⟩ →
      ∃ t', Completes (advanceBlock (markLoops scope) host invoke scope · b)
        (advanceBlock (markLoops scope) host invoke scope .start b) ⟨t, out⟩ r ⟨t', out'⟩ ∧
          s'.Alike shared t') ∧
    (∀ t', Completes (advanceBlock (markLoops scope) host invoke scope · b)
        (advanceBlock (markLoops scope) host invoke scope .start b) ⟨t, out⟩ r ⟨t', out'⟩ →
      ∃ s', (evalBlock host invoke scope b).Ends ⟨s, out⟩ r ⟨s', out'⟩ ∧ s'.Alike shared t') := by
  have hlock (c : Spot) : InLockstep shared (advanceBlock unmarked host invoke scope c b)
      (advanceBlock (markLoops scope) host invoke scope c b) :=
    advanceBlock_lockstep hhost hinv c b hb
  have hmarked (c : Spot) : Steady (advanceBlock (markLoops scope) host invoke scope c b) :=
    advanceBlock_steady (ensure_steady scope).map hsteady c b
  have hplain (c : Spot) : Steady (advanceBlock unmarked host invoke scope c b) :=
    advanceBlock_steady (steady_pure _) hsteady c b
  constructor
  · intro s' h
    obtain ⟨n, hn⟩ := (completes_block_iff hsteady b _ _ _).mpr h
    obtain ⟨t', hn', hR'⟩ := hn.transfer hlock hmarked (hlock .start) (hmarked .start) hR
    exact ⟨t', ⟨n, hn'⟩, hR'⟩
  · rintro t' ⟨n, hn⟩
    obtain ⟨s', hn', hR'⟩ :=
      hn.transfer (fun c => (hlock c).symm) hplain (hlock .start).symm (hplain .start) hR
    exact ⟨s', (completes_block_iff hsteady b _ _ _).mp ⟨n, hn'⟩, hR'⟩

end Stepwise
