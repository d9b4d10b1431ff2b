import Stepwise.Proofs.Foresight
import Stepwise.Proofs.Turns

/-! What fails in a check outside of all blocks fails in a run. Up to the part of the tree where the
check fails it has foreseen what the run finds, and that part is refused the same in both, for the same
cause and at the same place. -/

namespace Stepwise

open Execution

def Setting.ground (setting : Setting) (store : Store) (scope : ScopeId) : Ground :=
  ⟨setting.host, store, scope⟩

section Parts

variable {setting : Setting} {store : Store} {scope : ScopeId} {S : ScratchId}
  {twins : Nat → Nat → Prop} {c c₁ c' : CheckState} {w w₁ : World} {f : Failure} {fs : List Finding}
  {vs : List Value}

def FailsSo (setting : Setting) (scope : ScopeId) (n : Node) (f : Failure) (w : World) : Prop :=
  ∃ w', setting.evaluate scope n w = .error f w' ∨
    setting.evaluate scope n w = .error .canceled w' ∧ w'.polls = 0

theorem symbol_fails {g : Ground} (host : Host) (invoke : Invoke) {s : Symbol}
    (h : Foresees g S twins c w) (hfails : checkExpr g S (.symbol s) c = .error f c') :
    evalExpr host invoke g.scope (.symbol s) w = .error f w := by
  rw [checkExpr, Checking.lookup] at hfails
  rw [evalExpr, Execution.lookup]
  cases hget : w.store.get? g.scope s.name with
  | none =>
    split at hfails
    · cases hfails
    · cases hfails
      rfl
  | some v =>
    obtain ⟨f', hf', -⟩ := h.names s.name v hget
    rw [hf'] at hfails
    cases hfails

theorem call_fails (hhost : setting.host.PureByArguments)
    (h : Foresees (setting.ground store scope) S twins c w) {span : Span} {callee : Expr}
    {args : List Expr}
    (hparts : checkArgs (setting.ground store scope) S (Node.expr (.call span callee args)).parts c =
      .ok fs c₁)
    (hfails : checkExpr (setting.ground store scope) S (.call span callee args) c = .error f c')
    (hrun : evalArgs setting.host setting.invoke scope (Node.expr (.call span callee args)).parts w =
      .ok vs w₁) : FailsSo setting scope (.expr (.call span callee args)) f w := by
  have hinv : setting.invoke.Spares := invokeAt_spares setting setting.depth
  rw [Node.parts] at hparts hrun
  rw [checkExpr] at hfails
  rw [FailsSo, Setting.evaluate, evalExpr]
  split at hfails
  · next hmissing =>
    rw [if_pos hmissing]
    cases hfails
    exact ⟨w, .inl rfl⟩
  next hpresent =>
  rw [if_neg hpresent] at hparts hrun ⊢
  obtain ⟨u, c₂, hcallee, hparts⟩ := bind_eq_ok hparts
  obtain ⟨us, c₃, hargs, -⟩ := bind_eq_ok hparts
  obtain ⟨x, w₂, hx, hrun⟩ := bind_eq_ok hrun
  obtain ⟨xs, w₃, hxs, -⟩ := bind_eq_ok hrun
  obtain ⟨twins₁, -, h₁, hu⟩ := expr_foreseen hhost hinv callee h hcallee hx
  obtain ⟨twins₂, hle, h₂, hus⟩ := args_foreseen hhost hinv args h₁ hargs hxs
  rw [bind_ok hcallee, bind_ok hargs] at hfails
  rw [bind_ok hx, bind_ok hxs, applyValue_eq]
  -- the run polls before it looks at the callee, the check does not
  cases hpoll : poll w₃ with
  | ok a w₄ =>
    obtain ⟨w', hw'⟩ := (apply_foreseen hhost h₂.unique (hu.mono hle) hus w₄).2 f c' hfails
    exact ⟨w', .inl ((bind_ok hpoll).trans hw')⟩
  | error e w₄ =>
    refine ⟨w₄, .inr ?_⟩
    rw [bind_error hpoll]
    obtain ⟨store, written, polls⟩ := w₃
    cases polls with
    | zero =>
      cases hpoll
      exact ⟨rfl, rfl⟩
    | succ polls => cases hpoll

theorem times_fails (hhost : setting.host.PureByArguments)
    (h : Foresees (setting.ground store scope) S twins c w) {span : Span} {count : Expr} {body : Block}
    (hfails : checkNode (setting.ground store scope) S
      (Node.outline (.stmt (.times span count body))) c = .error f c')
    (hrun : evalArgs setting.host setting.invoke scope (Node.stmt (.times span count body)).parts w =
      .ok vs w₁) : FailsSo setting scope (.stmt (.times span count body)) f w := by
  have hinv : setting.invoke.Spares := invokeAt_spares setting setting.depth
  rw [Node.outline, Stmt.outline, checkNode, checkStmt, Block.isMissing_emptied] at hfails
  rw [FailsSo, Setting.evaluate, evalStmt]
  suffices hstart :
      ∃ w', startLoop setting.host setting.invoke scope span count body w = .error f w' by
    obtain ⟨w', hstart⟩ := hstart
    exact ⟨w', .inl (bind_error hstart)⟩
  rw [startLoop.eq_def]
  split at hfails
  · next hmissing =>
    rw [if_pos hmissing]
    cases hfails
    exact ⟨w, rfl⟩
  next hpresent =>
  rw [if_neg hpresent]
  obtain hcount | ⟨⟨⟩, c₁, -, hfails⟩ := bind_eq_error hfails
  · cases count with
    | forever | number => cases hcount
    | symbol s =>
      rw [Node.parts, if_neg hpresent] at hrun
      obtain ⟨x, w₂, hx, -⟩ := bind_eq_ok hrun
      obtain hlookup | ⟨u, c₁, hlookup, hcount⟩ := bind_eq_error hcount
      · exact ⟨w, bind_error (symbol_fails _ _ h hlookup)⟩
      · obtain ⟨twins', -, -, hu⟩ := expr_foreseen hhost hinv (.symbol s) h hlookup hx
        refine ⟨w₂, (bind_ok hx).trans ?_⟩
        cases u with
        | unknown => cases hcount
        | known v =>
          obtain ⟨rfl, -⟩ | ⟨l, l', rfl, rfl, -⟩ | ⟨i, j, rfl, rfl, -⟩ := Value.Linked.cases hu
          · cases x <;> cases hcount <;> rfl
          · cases hcount
            rfl
          · cases hcount
            rfl
    | _ =>
      cases hcount
      exact ⟨w, rfl⟩
  · obtain ⟨c₂, hbody⟩ := branch_emptied (g := setting.ground store scope) (S := S) body c₁
    rw [bind_ok hbody] at hfails
    cases hfails

theorem function_fails {span : Span} {params : Option Params} {body : Block}
    (hfails : checkExpr (setting.ground store scope) S (.function span params body) c = .error f c') :
    FailsSo setting scope (.expr (.function span params body)) f w := by
  rw [checkExpr] at hfails
  rw [FailsSo, Setting.evaluate, evalExpr]
  split at hfails
  · next hmissing =>
    rw [if_pos hmissing]
    cases hfails
    exact ⟨w, .inl rfl⟩
  · cases hfails

theorem set_fails {span : Span} {target : Symbol} {value : Expr}
    (hparts : checkArgs (setting.ground store scope) S (Node.stmt (.set span (some target) value)).parts c =
      .ok fs c₁)
    (hfails : checkStmt (setting.ground store scope) S (.set span (some target) value) c = .error f c') :
    FailsSo setting scope (.stmt (.set span (some target) value)) f w := by
  rw [Node.parts] at hparts
  rw [checkStmt] at hfails
  rw [FailsSo, Setting.evaluate, evalStmt]
  split at hfails
  · next hmissing =>
    rw [if_pos hmissing]
    cases hfails
    exact ⟨w, .inl rfl⟩
  next hpresent =>
  rw [if_neg hpresent] at hparts
  obtain ⟨u, c₂, hvalue, -⟩ := bind_eq_ok hparts
  rw [bind_ok hvalue] at hfails
  cases hfails

/-- The outline of a branch can only fail for a part that is missing, since its blocks are empty. -/
theorem branch_fails {span : Span} {condition : Expr} {thenBlock elseBlock : Block}
    (hparts : checkArgs (setting.ground store scope) S
      (Node.stmt (.branch span condition thenBlock elseBlock)).parts c = .ok fs c₁)
    (hfails : checkNode (setting.ground store scope) S
      (Node.outline (.stmt (.branch span condition thenBlock elseBlock))) c = .error f c') :
    FailsSo setting scope (.stmt (.branch span condition thenBlock elseBlock)) f w := by
  rw [Node.parts] at hparts
  rw [Node.outline, Stmt.outline, checkNode, checkStmt, Block.isMissing_emptied] at hfails
  rw [FailsSo, Setting.evaluate, evalStmt]
  split at hfails
  · next hmissing =>
    rw [if_pos hmissing]
    cases hfails
    exact ⟨w, .inl rfl⟩
  next hpresent =>
  rw [if_neg hpresent] at hparts
  obtain ⟨u, c₂, hcondition, -⟩ := bind_eq_ok hparts
  obtain ⟨c₃, hthen⟩ := branch_emptied (g := setting.ground store scope) (S := S) thenBlock c₂
  obtain ⟨c₄, helse⟩ := branch_emptied (g := setting.ground store scope) (S := S) elseBlock c₃
  rw [bind_ok hcondition, bind_ok hthen] at hfails
  split at hfails
  · rw [bind_ok helse] at hfails
    cases hfails
  · cases hfails

/-- Where the check has foreseen a run, the run fails in a node's own part as the check does. -/
theorem part_fails (hhost : setting.host.PureByArguments)
    (h : Foresees (setting.ground store scope) S twins c w) {n : Node} (hn : n.body? = none)
    (hparts : checkArgs (setting.ground store scope) S n.parts c = .ok fs c₁)
    (hfails : checkNode (setting.ground store scope) S n.outline c = .error f c')
    (hrun : evalArgs setting.host setting.invoke scope n.parts w = .ok vs w₁) :
    FailsSo setting scope n f w := by
  cases n with
  | program | block => cases hn
  | params ps =>
    cases hfails
    exact ⟨w, .inl rfl⟩
  | expr e =>
    cases e with
    | symbol s =>
      have hsymbol : evalExpr setting.host setting.invoke scope (.symbol s) w = .error f w :=
        symbol_fails _ _ h hfails
      exact ⟨w, .inl hsymbol⟩
    | call span callee args => exact call_fails hhost h hparts hfails hrun
    | function span params body => exact function_fails hfails
    | number | boolean | null | string => cases hfails
    | missing | forever =>
      cases hfails
      exact ⟨w, .inl rfl⟩
  | stmt s =>
    cases s with
    | missing =>
      cases hfails
      exact ⟨w, .inl rfl⟩
    | call span callee args => exact call_fails hhost h hparts hfails hrun
    | branch span condition thenBlock elseBlock => exact branch_fails hparts hfails
    | times span count body => exact times_fails hhost h hfails hrun
    | set span target value =>
      cases target with
      | none =>
        cases hfails
        exact ⟨w, .inl rfl⟩
      | some target => exact set_fails hparts hfails

theorem primitivesOn_pureByArguments (writer : Writer) : (primitivesOn writer).PureByArguments :=
  fun n hn twins _ => primitivesOn_pureRespects writer n hn (.ofTwins twins)

/-- A check begins where it knows all that a run finds. -/
theorem foresees_entered {host : Host} {store : Store} (hclosed : store.Closed) {scope : ScopeId}
    (hscope : scope < store.scopes.size) (written : Array Bytes) (polls : Nat) :
    Foresees ⟨host, store, scope⟩ 0 (fun i j => i = j ∧ i < store.closures) .entered
      ⟨store, written, polls⟩ where
  names x v hx := by
    have hself : Link.self store ≤ .ofTwins fun i j => i = j ∧ i < store.closures :=
      ⟨fun _ _ h => h.1, fun _ _ h => h.1, le_rfl⟩
    have hlinked := hclosed.linked.get? ⟨rfl, hscope⟩ x
    have hx : store.get? scope x = some v := hx
    rw [hx] at hlinked
    cases hlinked with
    | some hv =>
      refine ⟨.known v, ?_, hv.mono hself⟩
      rw [CheckState.get?_of_not_binds]
      · simp only [hx, Option.map_some]
      · rintro ⟨i, hi, hsome⟩
        rw [CheckState.chain_entered] at hi
        obtain rfl := List.mem_singleton.mp hi
        cases hsome
  unique := hclosed.linked.closure_unique
  counted := by
    rintro i j ⟨rfl, hi⟩
    exact ⟨hi, hi⟩
  rooted := ⟨Nat.zero_lt_one, fun i hi => by
    rw [CheckState.chain_entered] at hi
    obtain rfl := List.mem_singleton.mp hi
    exact Nat.zero_lt_one⟩
  there := hscope
  around i hi := by
    have hchain := hclosed.linked.chain ⟨rfl, hscope⟩
    exact (List.forall₂_same.mp hchain i hi).2

theorem Node.FailsAt.evaluate {m x : Node} {earlier : List Expr}
    (hhost : setting.host.PureByArguments) (h : Foresees (setting.ground store scope) S twins c w)
    (hm : m.body? = none) (hplace : m.FailsAt (setting.ground store scope) S c earlier x f) :
    (∃ f' w', evalArgs setting.host setting.invoke scope (earlier ++ x.parts) w = .error f' w' ∧
      setting.evaluate scope m w = .error f' w') ∨
    ∃ vs w₁, evalArgs setting.host setting.invoke scope (earlier ++ x.parts) w = .ok vs w₁ ∧
      FailsSo setting scope m f w := by
  have hinv : setting.invoke.Spares := invokeAt_spares setting setting.depth
  obtain ⟨hleads, ⟨us, c₁, hpasses⟩, fs, c₂, c₃, hearlier, hfails⟩ := hplace
  rw [checkArgs_append, bind_ok hearlier] at hpasses
  obtain ⟨us', c₄, hparts, -⟩ := bind_eq_ok hpasses
  rw [evalArgs_append]
  cases hrun : evalArgs setting.host setting.invoke scope earlier w with
  | error e w₁ => exact .inl ⟨e, w₁, bind_error hrun, hleads.evaluate_earlier hrun⟩
  | ok vs w₁ =>
    rw [bind_ok hrun]
    cases hown : evalArgs setting.host setting.invoke scope x.parts w₁ with
    | error e w₂ =>
      exact .inl ⟨e, w₂, bind_error hown, hleads.evaluate_part hrun (evaluate_of_parts hown)⟩
    | ok vs' w₂ =>
      refine .inr ⟨vs ++ vs', w₂, (bind_ok hown).trans rfl, ?_⟩
      obtain ⟨twins', -, h', -⟩ := args_foreseen hhost hinv earlier h hearlier hrun
      obtain ⟨w', hw' | ⟨hw', hpolls⟩⟩ :=
        part_fails hhost h' (hleads.body?_eq_none hm) hparts hfails hown
      · exact ⟨w', .inl (hleads.evaluate_part hrun hw')⟩
      · exact ⟨w', .inr ⟨hleads.evaluate_part hrun hw', hpolls⟩⟩

theorem Node.ComesTo.foreseen {n m : Node} {before : List Stmt} (hhost : setting.host.PureByArguments)
    (h : Foresees (setting.ground store scope) 0 twins .entered w) {v : Value}
    (hcomes : n.ComesTo (setting.ground store scope) before m c)
    (hrun : evalBody setting.host setting.invoke scope .absent before w = .ok v w₁) :
    ∃ twins', Foresees (setting.ground store scope) 0 twins' c w₁ := by
  have hinv : setting.invoke.Spares := invokeAt_spares setting setting.depth
  cases hcomes with
  | statement _ hbefore =>
    obtain ⟨twins', h', -⟩ := body_foreseen hhost hinv before h Finding.tells_absent hbefore hrun
    exact ⟨twins', h'.names, h'.unique, h'.counted, h'.rooted, h'.there, h'.around⟩
  | whole =>
    cases hrun
    exact ⟨twins, h⟩

end Parts

/-- If a check fails outside of all branches, loop bodies and function bodies, then no run of the tree
in the same scope succeeds. The check fails in the own part of one node, and a run fails in what comes
before, or it is canceled, or it comes to that part and fails with the same error. -/
theorem check_errors_are_real {setting : Setting} (hhost : setting.host.PureByArguments)
    {store : Store} (hclosed : store.Closed) {scope : ScopeId} (hscope : scope < store.scopes.size)
    {n m : Node} {before : List Stmt} {c c' : CheckState} {f : Failure}
    (hcomes : n.ComesTo (setting.ground store scope) before m c)
    (hfails : checkNode (setting.ground store scope) 0 m.outline c = .error f c') :
    (∃ c₁, check (setting.ground store scope) n .initial = .error f c₁) ∧
    ∃ earlier x, m.FailsAt (setting.ground store scope) 0 c earlier x f ∧
      ∀ written polls,
        let w : World := ⟨store, written, polls⟩
        let prior : Execution (List Value) := do
          let _ ← evalBody setting.host setting.invoke scope .absent before
          evalArgs setting.host setting.invoke scope (earlier ++ x.parts)
        (∃ f' w', prior w = .error f' w' ∧ setting.evaluate scope n w = .error f' w') ∨
        ∃ vs w₁ w', prior w = .ok vs w₁ ∧ (setting.evaluate scope n w = .error f w' ∨
          setting.evaluate scope n w = .error .canceled w' ∧ w'.polls = 0) := by
  refine ⟨hcomes.check_error (checkNode_of_outline hfails), ?_⟩
  obtain ⟨earlier, x, hplace⟩ := Node.exists_failsAt m hfails
  refine ⟨earlier, x, hplace, fun written polls => ?_⟩
  intro w prior
  have hstart : Foresees (setting.ground store scope) 0 _ .entered w :=
    foresees_entered hclosed hscope written polls
  cases hrun : evalBody setting.host setting.invoke scope .absent before w with
  | error e w' => exact .inl ⟨e, w', bind_error hrun, hcomes.evaluate_error.1 hrun⟩
  | ok v w₁ =>
    have hprior : prior w = evalArgs setting.host setting.invoke scope (earlier ++ x.parts) w₁ :=
      bind_ok hrun
    obtain ⟨twins, hthere⟩ := hcomes.foreseen hhost hstart hrun
    rw [hprior]
    obtain ⟨e, w', hargs, hm⟩ | ⟨vs, w₂, hargs, w', hm | ⟨hm, hpolls⟩⟩ :=
      hplace.evaluate hhost hthere hcomes.body?_eq_none
    · exact .inl ⟨e, w', hargs, hcomes.evaluate_error.2 v w₁ hrun hm⟩
    · exact .inr ⟨vs, w₂, w', hargs, .inl (hcomes.evaluate_error.2 v w₁ hrun hm)⟩
    · exact .inr ⟨vs, w₂, w', hargs, .inr ⟨hcomes.evaluate_error.2 v w₁ hrun hm, hpolls⟩⟩

/-- A function is called with too few arguments, behind a branch that may set one of them. -/
theorem check_errors_are_real_behind_branch :
    let f : Symbol := ⟨.nowhere, [102]⟩
    let x : Symbol := ⟨.nowhere, [120]⟩
    let call (p : Primitive) (args : List Expr) : Expr :=
      .call .nowhere (.symbol ⟨.nowhere, p.name⟩) args
    let literal : Expr := .function .nowhere (some ⟨.nowhere, [x]⟩)
      (.of .nowhere [.set .nowhere (some x) (call .not [.symbol x])])
    let before : List Stmt := [.set .nowhere (some f) literal,
      .set .nowhere (some x) (.number .nowhere 1),
      .branch .nowhere (.symbol x) (.of .nowhere [.set .nowhere (some x) (.number .nowhere 2)])
        .missing]
    let wrong : Expr := .call ⟨7, 9, 1, 8⟩ (.symbol f) []
    let s : Stmt := .set .nowhere (some x) (call .add [call .print [.symbol x], wrong])
    let store := Store.empty.addTopLevel
    let setting : Setting := ⟨primitives, 5⟩
    (∃ c, check (setting.ground store 0) (.program ⟨.nowhere, before ++ [s]⟩) .initial =
      .error (.diagnostic ⟨.functionArity 1 0, ⟨7, 9, 1, 8⟩⟩) c) ∧
    ∀ polls, ∃ e w', setting.evaluate 0 (.program ⟨.nowhere, before ++ [s]⟩) ⟨store, #[], polls⟩ =
      .error e w' := by
  intro f x call literal before wrong s store setting
  let g := setting.ground store 0
  have hpasses : errorOf? (checkBody g 0 (.known .absent) before .entered) = none := by
    dsimp only [g, setting, store, before, literal, call, f, x]
    cbv
  have hstops : errorOf? ((do
      let _ ← checkBody g 0 (.known .absent) before
      Checking.visit s
      checkNode g 0 (Node.outline (.stmt s))) .entered) =
      some (.diagnostic ⟨.functionArity 1 0, ⟨7, 9, 1, 8⟩⟩) := by
    dsimp only [g, setting, store, s, wrong, before, literal, call, f, x]
    cbv
  obtain ⟨c', hstops⟩ := errorOf?_eq_some hstops
  cases hbefore : checkBody g 0 (.known .absent) before .entered with
  | error e c =>
    rw [hbefore] at hpasses
    cases hpasses
  | ok last c =>
    rw [bind_ok hbefore] at hstops
    have hcomes : Node.ComesTo g (.program ⟨.nowhere, before ++ [s]⟩) before (.stmt s) _ :=
      .statement rfl hbefore
    obtain ⟨hcheck, earlier, part, -, hruns⟩ :=
      check_errors_are_real (primitivesOn_pureByArguments .unfailing) closed_topLevel (by decide) hcomes
        hstops
    refine ⟨hcheck, fun polls => ?_⟩
    obtain ⟨e, w', -, h⟩ | ⟨vs, w₁, w', -, h | ⟨h, -⟩⟩ := hruns #[] polls
    · exact ⟨e, w', h⟩
    · exact ⟨_, w', h⟩
    · exact ⟨_, w', h⟩

end Stepwise
