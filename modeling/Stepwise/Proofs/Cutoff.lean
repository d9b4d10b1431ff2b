import Stepwise.Proofs.CallStack
import Stepwise.Proofs.Depth
import Stepwise.Proofs.Suspension

/-! The limit on calls does nothing but cut runs off. A step that does not hit it goes as it would go under
any higher limit, and so does a run in steps. -/

namespace Stepwise

open Execution

section

variable {host : Host} {limit limit' : Nat} {scope : ScopeId} {n : Node} {a b : Pause}
  {r : Except Failure Value} {m' : Memory}

theorem stepTo_outlasts (h : limit ≤ limit') (hstep : Setting.StepTo ⟨host, limit⟩ scope n a b) :
    Setting.StepTo ⟨host, limit'⟩ scope n a b := by
  obtain ⟨hdone, hends⟩ := hstep
  obtain ⟨f, hf, -⟩ | hends' := (step_outlasts host h scope n a.location).ends hends
  · cases hf
  · exact ⟨hdone, hends'⟩

/-- A run in steps hits the limit, or it comes to the same end under any higher one. -/
theorem stepsOut_outlasts (h : limit ≤ limit') (hsteps : Setting.StepsOut ⟨host, limit⟩ scope n a r m') :
    (∃ f, r = .error f ∧ TooDeep limit f) ∨ Setting.StepsOut ⟨host, limit'⟩ scope n a r m' := by
  obtain ⟨b, hreaches, hend⟩ := hsteps
  have hreaches' : Setting.Reaches ⟨host, limit'⟩ scope n a b :=
    Relation.ReflTransGen.mono (fun _ _ => stepTo_outlasts h) _ _ hreaches
  cases r with
  | ok v => exact .inr ⟨b, hreaches', hend⟩
  | error f =>
    obtain ⟨hdone, hends⟩ := hend
    obtain ⟨_, ⟨⟩, hdeep⟩ | hends' := (step_outlasts host h scope n b.location).ends hends
    · exact .inl ⟨f, rfl, hdeep⟩
    · exact .inr ⟨b, hreaches', hdone, hends'⟩

end

/-- Throughout an evaluation the depth counter tells how many calls of closures are under way; so it does in
the calls that steps make. Under a limit an evaluation fails because calls nest too deep, or it ends as it
does under any higher limit, with the same value or failure and the same world. The same holds of a step,
from whatever location, and of a run in steps. -/
theorem limit_only_cuts_off (host : Host) (limit more : Nat) (scope : ScopeId) (n : Node) :
    Setting.Tallies ⟨host, limit⟩ (n.doing scope) (Setting.evaluate ⟨host, limit⟩ scope n) ∧
    (∀ span c args, Setting.Tallies ⟨host, limit⟩ (.enter span c args)
      (Setting.invoke ⟨host, limit⟩ span c args)) ∧
    Outlasts limit (Setting.evaluate ⟨host, limit⟩ scope n)
      (Setting.evaluate ⟨host, limit + more⟩ scope n) ∧
    (∀ loc, Outlasts limit (Setting.step ⟨host, limit⟩ scope n loc)
      (Setting.step ⟨host, limit + more⟩ scope n loc)) ∧
    ∀ a r m', Setting.StepsOut ⟨host, limit⟩ scope n a r m' →
      (∃ f, r = .error f ∧ TooDeep limit f) ∨ Setting.StepsOut ⟨host, limit + more⟩ scope n a r m' := by
  have hle : limit ≤ limit + more := Nat.le_add_right _ _
  refine ⟨Setting.evaluate_tallies _ scope n, Setting.invoke_tallies _, ?_, ?_, ?_⟩
  · exact evaluate_outlasts host hle scope n
  · exact step_outlasts host hle scope n
  · exact fun _ _ _ => stepsOut_outlasts hle

/-- A function that is called in the body of another one: under a limit of two both calls are made, and the
counter is at two in the body of the inner one; under a limit of one they nest too deep. -/
theorem limit_only_cuts_off_nested :
    let call (body : Stmt) : Stmt := .call .nowhere (.function .nowhere none (.of .nowhere [body])) []
    let p : Program := ⟨.nowhere, [call (call (.set .nowhere (some ⟨.nowhere, [120]⟩) (.number .nowhere 7)))]⟩
    let m : Memory := ⟨Store.empty.addRoot .empty, #[]⟩
    let inner : Doing := .block 2 (.of .nowhere [.set .nowhere (some ⟨.nowhere, [120]⟩) (.number .nowhere 7)])
    (∃ c, Setting.LeadsTo ⟨primitives, 2⟩ ⟨(Node.program p).doing 0, [], m.world 9, 0⟩ c ∧
      c.doing = inner ∧ c.depth = 2 ∧ c.calls = 2) ∧
    (∃ m', Setting.StepsOut ⟨primitives, 2⟩ 0 (.program p) ⟨.absent, .start, m⟩ (.ok (.integer 7)) m' ∧
      Setting.StepsOut ⟨primitives, 2 + 3⟩ 0 (.program p) ⟨.absent, .start, m⟩ (.ok (.integer 7)) m') ∧
    ∃ f w', TooDeep 1 f ∧ Setting.evaluate ⟨primitives, 1⟩ 0 (.program p) (m.world 9) = .error f w' := by
  intro call p m inner
  obtain ⟨htallies, -, -, -, hsteps⟩ := limit_only_cuts_off primitives 2 3 0 (.program p)
  refine ⟨?_, ?_, ⟨_, _, ⟨.nowhere, rfl⟩, rfl⟩⟩
  · obtain ⟨c, hc, hdoing, hdepth⟩ : ∃ c, Setting.LeadsTo ⟨primitives, 2⟩
        ⟨(Node.program p).doing 0, [], m.world 9, 0⟩ c ∧ c.doing = inner ∧ c.depth = 2 := by
      have hlater : ((Setting.later ⟨primitives, 2⟩ ⟨(Node.program p).doing 0, [], m.world 9, 0⟩ 17).map
          fun c => (c.doing, c.depth)) = some (inner, 2) := by
        cbv
      obtain ⟨c, hc, h⟩ := Option.map_eq_some_iff.mp hlater
      obtain ⟨hdoing, hdepth⟩ := Prod.mk.inj h
      exact ⟨c, Setting.leadsTo_of_later hc, hdoing, hdepth⟩
    exact ⟨c, hc, hdoing, hdepth, (htallies.counts _ c hc).depth_eq ▸ hdepth⟩
  · obtain ⟨w, hw⟩ : ∃ w, Setting.step ⟨primitives, 2⟩ 0 (.program p) .start (m.world 9) =
        .ok ⟨.integer 7, .finished⟩ w := ⟨_, rfl⟩
    obtain ⟨used, m', hends, -⟩ := (step_steady _ _ _ _ m 9).endsIn_of_ok hw
    have hover : Setting.StepsOut ⟨primitives, 2⟩ 0 (.program p) ⟨.absent, .start, m⟩ (.ok (.integer 7)) m' :=
      ⟨⟨.integer 7, .finished, m'⟩, .single ⟨rfl, used, hends⟩, rfl, rfl, rfl⟩
    obtain ⟨f, hf, -⟩ | hover' := hsteps _ _ _ hover
    · cases hf
    · exact ⟨m', hover, hover'⟩

end Stepwise
