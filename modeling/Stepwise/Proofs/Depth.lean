import Stepwise.Proofs.Interruption

/-! The limit on calls. A run under a limit either fails because calls nest too deep, or it goes as it
would go under any higher limit. -/

namespace Stepwise

open Execution

/-- A failure that says calls nest deeper than the limit. -/
def Execution.TooDeep (limit : Nat) (f : Failure) : Prop := ∃ span, f = .diagnostic ⟨.callDepth limit, span⟩

/-- The first run hits the limit on calls, or the second one goes the same way. -/
abbrev Execution.Outlasts {α : Type} (limit : Nat) (x y : Execution α) : Prop :=
  GivesWay (fun f _ => TooDeep limit f) x y

theorem invokeAt_outlasts (host : Host) (limit limit' : Nat) {left left' : Nat} (h : left ≤ left') :
    (invokeAt ⟨host, limit⟩ left).GivesWay (fun f _ => TooDeep limit f) (invokeAt ⟨host, limit'⟩ left') := by
  induction left generalizing left' with
  | zero => exact fun span c args w => .inl ⟨_, w, ⟨span, rfl⟩, rfl⟩
  | succ left ih =>
    obtain ⟨left', rfl⟩ : ∃ n, left' = n + 1 := ⟨left' - 1, by omega⟩
    intro span c args
    refine (GivesWay.refl (openScope c args)).bind fun scope => ?_
    exact evalBlock_givesWay (host.givesWay_refl _) (ih (by omega)) c.literal.body

section

variable (host : Host) {limit limit' : Nat} (h : limit ≤ limit') (scope : ScopeId)

include h

/-- Calls nest too deep under a limit, or a higher limit makes no difference. -/
theorem evaluate_outlasts (n : Node) : Outlasts limit (Setting.evaluate ⟨host, limit⟩ scope n)
    (Setting.evaluate ⟨host, limit'⟩ scope n) :=
  Setting.evaluate_givesWay (host.givesWay_refl _) (invokeAt_outlasts host limit limit' h) scope n

theorem step_outlasts (n : Node) (loc : Location) :
    Outlasts limit (Setting.step ⟨host, limit⟩ scope n loc)
      (Setting.step ⟨host, limit'⟩ scope n loc) :=
  Setting.step_givesWay (host.givesWay_refl _) (invokeAt_outlasts host limit limit' h) scope n loc

end

end Stepwise
