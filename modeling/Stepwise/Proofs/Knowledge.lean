import Stepwise.Proofs.Certainty

/-! What the check knows of a result. The value of the last statement is foreseen like all that the
names are bound to, through whatever the run did before it. -/

namespace Stepwise

open Execution

namespace Value

/-- Functions compare by their literal, all other values as they are. -/
def SameAs : Value → Value → Prop
  | .function c, .function c' => c.literal = c'.literal
  | v, v' => v = v'

theorem Linked.sameAs {twins : Nat → Nat → Prop} {v v' : Value} (h : v.Linked (.ofTwins twins) v') :
    v.SameAs v' := by
  obtain ⟨rfl, hv⟩ | ⟨c, c', rfl, rfl, -, hliteral, -⟩ | ⟨i, j, rfl, rfl, hstack⟩ := h.cases
  · cases v' with
    | function | loops => cases hv
    | absent | null | boolean | integer | string | native => rfl
  · exact hliteral.symm
  · exact congrArg Value.loops hstack

end Value

section Foreseen

variable {setting : Setting} {store : Store} {scope : ScopeId} {S : ScratchId}
  {twins : Nat → Nat → Prop} {c c' : CheckState} {w w' : World} {f : Finding} {v : Value}

theorem node_foreseen (hhost : setting.host.PureByArguments)
    (h : Foresees (setting.ground store scope) S twins c w) {n : Node}
    (hcheck : checkNode (setting.ground store scope) S n c = .ok f c')
    (hrun : setting.evaluate scope n w = .ok v w') : ∃ twins', f.Tells twins' v := by
  have hinv : setting.invoke.Spares := invokeAt_spares setting setting.depth
  cases n with
  | program p =>
    obtain ⟨twins', -, htells⟩ := body_foreseen hhost hinv p.body h Finding.tells_absent hcheck hrun
    exact ⟨twins', htells⟩
  | block b =>
    cases b with
    | missing =>
      cases hcheck
      cases hrun
      exact ⟨twins, Finding.tells_absent⟩
    | of span body =>
      rw [checkNode, checkBlock] at hcheck
      rw [Setting.evaluate, evalBlock] at hrun
      obtain ⟨twins', -, htells⟩ := body_foreseen hhost hinv body h Finding.tells_absent hcheck hrun
      exact ⟨twins', htells⟩
  | stmt s =>
    obtain ⟨twins', -, htells⟩ := stmt_foreseen hhost hinv s h hcheck hrun
    exact ⟨twins', htells⟩
  | expr e =>
    obtain ⟨twins', -, -, htells⟩ := expr_foreseen hhost hinv e h hcheck hrun
    exact ⟨twins', htells⟩
  | params ps => cases hcheck

end Foreseen

/-- The value that a check answers with is that of its finding for the node, the bodies that waited
having no say in it. -/
theorem check_eq_ok {g : Ground} {n : Node} {v : Value} {c : CheckState}
    (h : check g n .initial = .ok v c) (hv : v ≠ .absent) :
    ∃ c', checkNode g 0 n .entered = .ok (.known v) c' := by
  obtain ⟨S, c₀, hopen, h⟩ := bind_eq_ok h
  cases hopen
  obtain ⟨f, c₁, hnode, h⟩ := bind_eq_ok h
  obtain ⟨⟨⟩, c₂, -, h⟩ := bind_eq_ok h
  cases f with
  | known u =>
    cases h
    exact ⟨c₁, hnode⟩
  | unknown =>
    cases h
    exact absurd rfl hv

/-- If a check comes to a value and a run of the same tree in the same scope succeeds, then it succeeds
with that value, whatever branches, loops, calls of closures and calls of impure natives it went
through before its last statement. -/
theorem known_results_are_right {setting : Setting} (hhost : setting.host.PureByArguments)
    {store : Store} (hclosed : store.Closed) {scope : ScopeId} (hscope : scope < store.scopes.size)
    {n : Node} {v : Value} {c : CheckState}
    (hcheck : check (setting.ground store scope) n .initial = .ok v c) (hv : v ≠ .absent)
    {written : Array Bytes} {polls : Nat} {u : Value} {w : World}
    (hrun : setting.evaluate scope n ⟨store, written, polls⟩ = .ok u w) : v.SameAs u := by
  obtain ⟨c', hnode⟩ := check_eq_ok hcheck hv
  have hstart : Foresees (setting.ground store scope) 0 _ .entered ⟨store, written, polls⟩ :=
    foresees_entered hclosed hscope written polls
  obtain ⟨twins, htells⟩ := node_foreseen hhost hstart hnode hrun
  exact Value.Linked.sameAs htells

/-- A closure that sets a name of its own scope only, a branch, a loop and a print come before. -/
theorem known_results_are_right_after_calls :
    let x : Symbol := ⟨.nowhere, [120]⟩
    let y : Symbol := ⟨.nowhere, [121]⟩
    let f : Symbol := ⟨.nowhere, [102]⟩
    let call (p : Primitive) (args : List Expr) : Expr :=
      .call .nowhere (.symbol ⟨.nowhere, p.name⟩) args
    let literal : Expr := .function .nowhere (some ⟨.nowhere, [x]⟩)
      (.of .nowhere [.set .nowhere (some x) (call .add [.symbol x, .symbol x])])
    let body : List Stmt := [
      .set .nowhere (some x) (.number .nowhere 2),
      .set .nowhere (some f) literal,
      .branch .nowhere (.symbol x) (.of .nowhere [.set .nowhere (some y) (.number .nowhere 7)])
        .missing,
      .times .nowhere (.symbol x) (.of .nowhere [.call .nowhere (.symbol f) [.symbol y]]),
      .call .nowhere (.symbol ⟨.nowhere, Primitive.print.name⟩) [.symbol y],
      .set .nowhere (some y) (call .add [.symbol x, .number .nowhere 40])]
    let store := Store.empty.addTopLevel
    let setting : Setting := ⟨primitives, 5⟩
    (∃ c, check (setting.ground store 0) (.program ⟨.nowhere, body⟩) .initial =
      .ok (.integer 42) c) ∧
    (∃ w, setting.evaluate 0 (.program ⟨.nowhere, body⟩) ⟨store, #[], 20⟩ = .ok (.integer 42) w) ∧
    ∀ polls u w, setting.evaluate 0 (.program ⟨.nowhere, body⟩) ⟨store, #[], polls⟩ = .ok u w →
      u = .integer 42 := by
  intro x y f call literal body store setting
  have hcheck : resultOf? (check (setting.ground store 0) (.program ⟨.nowhere, body⟩) .initial) =
      some (.integer 42) := by
    dsimp only [setting, store, body, literal, call, x, y, f]
    cbv
  have hrun : resultOf? (setting.evaluate 0 (.program ⟨.nowhere, body⟩) ⟨store, #[], 20⟩) =
      some (.integer 42) := by
    dsimp only [setting, store, body, literal, call, x, y, f]
    cbv
  obtain ⟨c, hcheck⟩ := resultOf?_eq_some hcheck
  obtain ⟨w, hrun⟩ := resultOf?_eq_some hrun
  refine ⟨⟨c, hcheck⟩, ⟨w, hrun⟩, fun polls u w' hrun' => ?_⟩
  have hsame : (Value.integer 42).SameAs u :=
    known_results_are_right (primitivesOn_pureByArguments .unfailing) closed_topLevel (by decide) hcheck
      (by simp) hrun'
  exact hsame.symm

end Stepwise
