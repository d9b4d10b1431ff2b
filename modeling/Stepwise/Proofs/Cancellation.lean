import Mathlib
import Stepwise.Proofs.CallStack

/-! Cancellation cuts a run off and does nothing else. Where it comes while the run is under way, the run
has printed the beginning of what it would have printed; where it would come later, the run does not
notice. -/

namespace Stepwise

open Execution

namespace Execution

variable {α β : Type} {x : Execution α} {f : α → Execution β} {m m' : Memory} {polls more : Nat}

/-- The texts printed once the run is over. -/
def prints (x : Execution α) (w : World) : List Bytes := (x.after w).written.toList

theorem prints_bind_ok {a : α} {w w₁ : World} (h : x w = .ok a w₁) :
    (x >>= f).prints w = (f a).prints w₁ := by
  rw [prints, prints, after, after, bind_ok h]

theorem prints_bind_error {e : Failure} {w w₁ : World} (h : x w = .error e w₁) :
    (x >>= f).prints w = x.prints w := by
  rw [prints, prints, after, after, bind_error h, h]

/-- A run in `m` that is canceled after so many polls has printed the beginning of what it prints with more
of them. -/
def CutShortAt (x : Execution α) (m : Memory) (polls more : Nat) : Prop :=
  ∀ m' : Memory, x (m.world polls) = .error .canceled (m'.world 0) →
    m'.written.toList <+: x.prints (m.world (polls + more))

/-- A run that takes back nothing of what is printed, and that is cut off by a cancellation at most. -/
structure CutsOff (x : Execution α) : Prop where
  steady : Steady x
  grows : ∀ w, w.written.toList <+: x.prints w
  cut : ∀ m polls more, CutShortAt x m polls more

theorem cutShortAt_bind (hx : CutsOff x) (hgrows : ∀ a w, w.written.toList <+: (f a).prints w)
    (hf : ∀ a m₁ left, x (m.world polls) = .ok a (Memory.world m₁ left) → CutShortAt (f a) m₁ left more) :
    CutShortAt (x >>= f) m polls more := by
  intro m' h
  obtain ⟨used, r, m₁, hle, hends⟩ | ⟨m₁, hc⟩ := hx.steady m polls
  · have hless := hends (polls - used)
    have hmore := hends (polls - used + more)
    rw [Nat.add_sub_cancel' hle] at hless
    rw [← Nat.add_assoc, Nat.add_sub_cancel' hle] at hmore
    cases r with
    | ok a =>
      rw [bind_ok hless] at h
      rw [prints_bind_ok hmore]
      exact hf a m₁ _ hless m' h
    | error e =>
      rw [bind_error hless] at h
      rw [prints_bind_error hmore]
      obtain ⟨rfl, hworld⟩ := EStateM.Result.error.inj h
      rw [hworld] at hless
      exact hx.cut m polls more m' hless
  · rw [bind_error hc] at h
    obtain ⟨rfl, -⟩ := world_inj (EStateM.Result.error.inj h).2
    have hbefore := hx.cut m polls more m₁ hc
    cases hmore : x (m.world (polls + more)) with
    | ok a w =>
      rw [prints, after_ok hmore] at hbefore
      rw [prints_bind_ok hmore]
      exact hbefore.trans (hgrows a w)
    | error e w =>
      rw [prints_bind_error hmore]
      exact hbefore

theorem grows_bind (hx : ∀ w, w.written.toList <+: x.prints w)
    (hf : ∀ a w, w.written.toList <+: (f a).prints w) (w : World) :
    w.written.toList <+: (x >>= f).prints w := by
  have hfirst := hx w
  cases h : x w with
  | ok a w₁ =>
    rw [prints, after_ok h] at hfirst
    rw [prints_bind_ok h]
    exact hfirst.trans (hf a w₁)
  | error e w₁ =>
    rw [prints_bind_error h]
    exact hfirst

theorem CutsOff.bind (hx : CutsOff x) (hf : ∀ a, CutsOff (f a)) : CutsOff (x >>= f) where
  steady := hx.steady.bind fun a => (hf a).steady
  grows := grows_bind hx.grows fun a => (hf a).grows
  cut _ _ more := cutShortAt_bind hx (fun a => (hf a).grows) fun a m₁ left _ => (hf a).cut m₁ left more

/-- What makes no poll is never cut off. -/
theorem Instant.cutsOff (h : Instant x) (hgrows : ∀ w, w.written.toList <+: x.prints w) : CutsOff x where
  steady := h.steady
  grows := hgrows
  cut m polls more m' hc := by
    obtain ⟨r, m₁, hx⟩ := h m
    have hreply : reply r (m₁.world polls) = reply (.error .canceled) (m'.world 0) := (hx polls).symm.trans hc
    obtain ⟨rfl, hworld⟩ := reply_inj hreply
    obtain ⟨rfl, -⟩ := world_inj hworld
    have hafter : x.after (m.world (polls + more)) = m₁.world (polls + more) := after_error (hx _)
    rw [prints, hafter]
    exact List.prefix_rfl

theorem cutsOff_pure (a : α) : CutsOff (pure a : Execution α) :=
  (instant_pure a).cutsOff fun _ => List.prefix_rfl

theorem cutsOff_fail (cause : Cause) (span : Span) : CutsOff (fail cause span : Execution α) :=
  (instant_fail cause span).cutsOff fun _ => List.prefix_rfl

theorem grows_poll (w : World) : w.written.toList <+: poll.prints w := by
  obtain ⟨store, written, polls⟩ := w
  cases polls <;> exact List.prefix_rfl

theorem cutsOff_poll : CutsOff poll where
  steady := steady_poll
  grows := grows_poll
  cut m polls more m' h := by
    cases polls with
    | zero =>
      obtain ⟨rfl, -⟩ := world_inj (EStateM.Result.error.inj h).2
      exact grows_poll (m.world (0 + more))
    | succ polls => cases h

theorem cutsOff_lookup (scope : ScopeId) (s : Symbol) : CutsOff (lookup scope s) := by
  refine (instant_lookup scope s).cutsOff fun w => ?_
  rw [prints, after, lookup]
  cases w.store.get? scope s.name <;> exact List.prefix_rfl

theorem cutsOff_assign (scope : ScopeId) (name : Name) (v : Value) : CutsOff (assign scope name v) :=
  (instant_assign scope name v).cutsOff fun _ => List.prefix_rfl

theorem cutsOff_makeClosure (scope : ScopeId) (literal : Literal) : CutsOff (makeClosure scope literal) :=
  (instant_makeClosure scope literal).cutsOff fun _ => List.prefix_rfl

theorem cutsOff_openScope (c : Closure) (args : List Value) : CutsOff (openScope c args) :=
  (instant_openScope c args).cutsOff fun _ => List.prefix_rfl

theorem cutsOff_callNative (host : Host) (scope : ScopeId) (span : Span) (n : Native)
    (args : List Value) : CutsOff (callNative host scope span n args) := by
  refine (instant_callNative host scope span n args).cutsOff fun w => ?_
  rw [prints, after, callNative]
  cases (host n w.store scope args w.written).result with
  | ok v => simp
  | error e => simp

theorem cutsOff_compositional : Compositional fun _ => CutsOff where
  pure := cutsOff_pure
  bind hx hf := hx.bind hf
  fail span _ := cutsOff_fail _ span

theorem grows_loopFrom {body : Execution Value} (hbody : ∀ w, w.written.toList <+: body.prints w)
    (frame : LoopFrame) (last : Value) (w : World) :
    w.written.toList <+: (loopFrom body frame last).prints w := by
  have hgrows : Compositional fun _ x => ∀ w, w.written.toList <+: x.prints w :=
    { pure := fun a => (cutsOff_pure a).grows
      bind := fun hx hf => grows_bind hx hf
      fail := fun span _ => (cutsOff_fail _ span).grows }
  exact hgrows.loopFrom grows_poll (fun _ => List.prefix_rfl) (fun _ => List.prefix_rfl) hbody frame last w

theorem cutsOff_loopFrom {body : Execution Value} (hbody : CutsOff body) (frame : LoopFrame) (last : Value) :
    CutsOff (loopFrom body frame last) where
  steady := loopFrom_steady hbody.steady frame last
  grows := grows_loopFrom hbody.grows frame last
  cut m polls more := by
    -- every round takes a poll, so a loop that is canceled has gone through fewer rounds than there are polls
    induction polls using Nat.strongRecOn generalizing m frame last with
    | ind polls ih =>
      cases hdone : frame.done with
      | true =>
        rw [loopFrom_of_done hdone]
        exact (cutsOff_pure last).cut m polls more
      | false =>
        rw [loopFrom_of_not_done hbody.steady hdone]
        have hrest (v : Value) := grows_loopFrom hbody.grows frame.next v
        refine cutShortAt_bind cutsOff_poll (fun _ => grows_bind hbody.grows hrest) fun _ m₁ left hpoll => ?_
        refine cutShortAt_bind hbody hrest fun v m₂ left' hround => ?_
        have hless : left < polls := by
          cases polls with
          | zero => cases hpoll
          | succ polls =>
            have hleft : polls = left := (world_inj (EStateM.Result.ok.inj hpoll).2).2
            omega
        have hle : left' ≤ left := (hbody.steady m₁ left).polls_le (show _ = reply (.ok v) _ from hround)
        exact ih left' (by omega) frame.next v m₂

end Execution

def Invoke.CutsOff (invoke : Invoke) : Prop := ∀ span c args, Execution.CutsOff (invoke span c args)

section

variable {host : Host} {invoke : Invoke}

theorem cutsOff_computes (hinv : invoke.CutsOff) (scope : ScopeId) :
    Computes (fun _ => CutsOff) host invoke scope :=
  { cutsOff_compositional with
    poll := cutsOff_poll
    lookup := cutsOff_lookup scope
    makeClosure := cutsOff_makeClosure scope
    callNative := cutsOff_callNative host scope
    invoke := hinv }

theorem cutsOff_executes (hinv : invoke.CutsOff) (scope : ScopeId) :
    Executes (fun _ => CutsOff) (fun _ => True) host invoke scope :=
  { cutsOff_compositional with
    expr := (cutsOff_computes hinv scope).evalExpr
    start := cutsOff_compositional.startLoop (cutsOff_lookup scope)
    assign := fun v _ => cutsOff_assign scope _ v
    loop := fun frame last hbody => cutsOff_loopFrom hbody frame last }

theorem invokeAt_cutsOff (setting : Setting) (left : Nat) : (invokeAt setting left).CutsOff := by
  induction left with
  | zero => exact fun span c args => cutsOff_fail _ _
  | succ left ih =>
    intro span c args
    refine (cutsOff_openScope c args).bind fun id => ?_
    exact (cutsOff_executes ih id).evalBlock c.literal.body fun _ _ => trivial

theorem evaluate_cutsOff (setting : Setting) (scope : ScopeId) (n : Node) :
    CutsOff (setting.evaluate scope n) := by
  have hinv := invokeAt_cutsOff setting setting.depth
  cases n with
  | program p => exact (cutsOff_executes hinv scope).evalBody .absent p.body fun _ _ => trivial
  | block b => exact (cutsOff_executes hinv scope).evalBlock b fun _ _ => trivial
  | stmt s => exact (cutsOff_executes hinv scope).evalStmt s fun _ _ => trivial
  | expr e => exact (cutsOff_computes hinv scope).evalExpr e
  | params ps => exact cutsOff_fail _ _

end

namespace Execution

variable {α : Type} {x : Execution α} {m m' : Memory} {polls : Nat} {r : Except Failure α}

/-- What a run that is granted so many polls ends with, and the memory it leaves. -/
def outcome (x : Execution α) (m : Memory) (polls : Nat) : Except Failure α × Memory :=
  match x (m.world polls) with
  | .ok a w => (.ok a, ⟨w.store, w.written⟩)
  | .error e w => (.error e, ⟨w.store, w.written⟩)

theorem outcome_of_reply {left : Nat} (h : x (m.world polls) = reply r (m'.world left)) :
    x.outcome m polls = (r, m') := by
  rw [outcome, h]
  cases r <;> rfl

theorem written_outcome (x : Execution α) (m : Memory) (polls : Nat) :
    (x.outcome m polls).2.written.toList = x.prints (m.world polls) := by
  rw [outcome, prints, after]
  cases x (m.world polls) <;> rfl

/-- The first run ends as the second, or it is canceled when it has printed what the second prints first. -/
def CutOff (first second : Except Failure α × Memory) : Prop :=
  first = second ∨ first.1 = .error .canceled ∧ first.2.written.toList <+: second.2.written.toList

theorem CutsOff.outcome (h : CutsOff x) (m : Memory) (polls more : Nat) :
    CutOff (x.outcome m polls) (x.outcome m (polls + more)) := by
  obtain ⟨used, r, m', hle, hends⟩ | ⟨m', hc⟩ := h.steady m polls
  · have hless := hends (polls - used)
    have hmore := hends (polls - used + more)
    rw [Nat.add_sub_cancel' hle] at hless
    rw [← Nat.add_assoc, Nat.add_sub_cancel' hle] at hmore
    exact .inl ((outcome_of_reply hless).trans (outcome_of_reply hmore).symm)
  · have houtcome : x.outcome m polls = (.error .canceled, m') :=
      outcome_of_reply (show _ = reply (.error .canceled) (m'.world 0) from hc)
    refine .inr ?_
    rw [houtcome, written_outcome]
    exact ⟨rfl, h.cut m polls more m' hc⟩

theorem CutsOff.outcome_ends (h : CutsOff x) (hends : x.Ends m r m') (polls : Nat) :
    CutOff (x.outcome m polls) (r, m') := by
  obtain ⟨used, hends⟩ := hends
  have hmore := hends polls
  rw [Nat.add_comm] at hmore
  have hcut := h.outcome m polls used
  rwa [outcome_of_reply hmore] at hcut

end Execution

/-- An evaluation that is granted some polls ends as it does with more of them, or with as many as it asks
for; or it is canceled, and has printed the beginning of what it prints then. However few or many they are,
it ends after finitely many moments. -/
theorem cancellation_only_cuts_off (setting : Setting) (scope : ScopeId) (n : Node) (m : Memory)
    (polls : Nat) :
    let run := setting.evaluate scope n
    (∀ more, CutOff (run.outcome m polls) (run.outcome m (polls + more))) ∧
    (∀ r m', run.Ends m r m' → CutOff (run.outcome m polls) (r, m')) ∧
    ∃ moments, setting.later ⟨n.doing scope, [], m.world polls, 0⟩ moments =
        some (.ended (run (m.world polls)) [] 0) ∧
      setting.next (.ended (run (m.world polls)) [] 0) = none := by
  intro run
  have hcuts : CutsOff run := evaluate_cutsOff setting scope n
  obtain ⟨moments, hlater⟩ :=
    Setting.later_of_leadsTo ((setting.evaluate_tallies scope n).ends (m.world polls))
  exact ⟨hcuts.outcome m polls, fun r m' hends => hcuts.outcome_ends hends polls,
    moments, hlater, Setting.next_ended _⟩

/-- Printing once and then in an endless loop: with four polls and with seven. The same with the loop left
out ends by itself. -/
theorem cancellation_only_cuts_off_printing :
    let print (k : Int64) : Stmt := .call .nowhere (.symbol ⟨.nowhere, utf8 "print"⟩) [.number .nowhere k]
    let endless : Node := .program ⟨.nowhere, [print 1,
      .times .nowhere (.forever .nowhere) (.of .nowhere [print 2])]⟩
    let short : Node := .program ⟨.nowhere, [print 1]⟩
    let setting : Setting := ⟨primitives, 5⟩
    let m : Memory := ⟨Store.empty.addTopLevel, #[]⟩
    let run := setting.evaluate 0 endless
    (run.outcome m 4).2.written.toList = [utf8 "1\n", utf8 "2\n"] ∧
    (run.outcome m (4 + 3)).2.written.toList = [utf8 "1\n", utf8 "2\n", utf8 "2\n", utf8 "2\n"] ∧
    CutOff (run.outcome m 4) (run.outcome m (4 + 3)) ∧
    ∃ m', (setting.evaluate 0 short).Ends m (.ok .null) m' ∧
      CutOff ((setting.evaluate 0 short).outcome m 0) (.ok .null, m') := by
  intro print endless short setting m run
  refine ⟨?_, ?_, (cancellation_only_cuts_off setting 0 endless m 4).1 3, ?_⟩
  · dsimp only [run, setting, endless, m, print]
    cbv
  · dsimp only [run, setting, endless, m, print]
    cbv
  · have hok : resultOf? (setting.evaluate 0 short (m.world 1)) = some .null := by
      dsimp only [setting, short, m, print]
      cbv
    obtain ⟨w, hw⟩ := resultOf?_eq_some hok
    obtain ⟨used, m', hends, -⟩ := ((evaluate_cutsOff setting 0 short).steady m 1).endsIn_of_ok hw
    exact ⟨m', ⟨used, hends⟩, (cancellation_only_cuts_off setting 0 short m 0).2.1 _ _ ⟨used, hends⟩⟩

end Stepwise
