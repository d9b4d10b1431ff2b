import Stepwise.Proofs.Traversal

/-! The order in which the parts of a tree have their turns. A node evaluates some expressions, one
after the other, and then does its own part; this holds of a run as it does of a check. So a check that
fails outside of all blocks fails in the own part of one node, when all that stands before it has
passed, and a run that fails in what stands before, or in that part, fails so as a whole. -/

namespace Stepwise

def Block.emptied : Block → Block
  | .missing => .missing
  | .of span _ => .of span []

@[simp] theorem Block.isMissing_emptied (b : Block) : b.emptied.isMissing = b.isMissing := by
  cases b <;> rfl

def Stmt.outline : Stmt → Stmt
  | .branch span condition thenBlock elseBlock =>
    .branch span condition thenBlock.emptied elseBlock.emptied
  | .times span count body => .times span count body.emptied
  | s => s

namespace Node

def outline : Node → Node
  | .stmt s => .stmt s.outline
  | n => n

def body? : Node → Option (List Stmt)
  | .program p => some p.body
  | .block b => some b.body
  | .stmt _ | .expr _ | .params _ => none

/-- The expressions that a node evaluates, in this order, before it does its own part. -/
def parts : Node → List Expr
  | .expr (.call _ callee args) | .stmt (.call _ callee args) =>
    if callee.isMissing then [] else callee :: args
  | .stmt (.set _ (some _) value) => if value.isMissing then [] else [value]
  | .stmt (.branch _ condition thenBlock _) =>
    if condition.isMissing || thenBlock.isMissing then [] else [condition]
  | .stmt (.times _ (.symbol s) body) => if body.isMissing then [] else [.symbol s]
  | _ => []

/-- The first node evaluates these expressions, and then the other one has its turn. -/
inductive Leads : Node → List Expr → Node → Prop
  | here (n : Node) : Leads n [] n
  | part {n x : Node} {e : Expr} {before after earlier : List Expr} :
      n.parts = before ++ e :: after → Leads (.expr e) earlier x → Leads n (before ++ earlier) x

theorem Leads.body?_eq_none {n x : Node} {earlier : List Expr} (h : n.Leads earlier x)
    (hn : n.body? = none) : x.body? = none := by
  induction h with
  | here => exact hn
  | part _ _ ih => exact ih rfl

theorem sizeOf_lt_of_mem_parts {n : Node} {e : Expr} (h : e ∈ n.parts) :
    sizeOf (Node.expr e) < sizeOf n := by
  rw [parts.eq_def] at h
  split at h
  any_goals
    split at h
    · cases h
  · obtain rfl | hmem := List.mem_cons.mp h
    · simp only [expr.sizeOf_spec, Expr.call.sizeOf_spec]
      omega
    · have hlt := List.sizeOf_lt_of_mem hmem
      simp only [expr.sizeOf_spec, Expr.call.sizeOf_spec]
      omega
  · obtain rfl | hmem := List.mem_cons.mp h
    · simp only [expr.sizeOf_spec, stmt.sizeOf_spec, Stmt.call.sizeOf_spec]
      omega
    · have hlt := List.sizeOf_lt_of_mem hmem
      simp only [expr.sizeOf_spec, stmt.sizeOf_spec, Stmt.call.sizeOf_spec]
      omega
  · obtain rfl := List.mem_singleton.mp h
    simp only [expr.sizeOf_spec, stmt.sizeOf_spec, Stmt.set.sizeOf_spec]
    omega
  · obtain rfl := List.mem_singleton.mp h
    simp only [expr.sizeOf_spec, stmt.sizeOf_spec, Stmt.branch.sizeOf_spec]
    omega
  · obtain rfl := List.mem_singleton.mp h
    simp only [expr.sizeOf_spec, stmt.sizeOf_spec, Stmt.times.sizeOf_spec]
    omega
  · cases h

end Node

open Checking

section Checks

variable {g : Ground} {S : ScratchId} {c c' : CheckState} {f : Failure}

theorem checkArgs_append (as bs : List Expr) : checkArgs g S (as ++ bs) = (do
    let fs ← checkArgs g S as
    let fs' ← checkArgs g S bs
    return fs ++ fs') := by
  induction as with
  | nil => simp [checkArgs]
  | cons e as ih => simp [checkArgs, ih]

theorem checkBody_append (last : Finding) (before after : List Stmt) :
    checkBody g S last (before ++ after) = (do
      let last ← checkBody g S last before
      checkBody g S last after) := by
  induction before generalizing last with
  | nil => simp [checkBody]
  | cons s before ih => simp [checkBody, ih]

theorem checkArgs_error {es : List Expr} (h : checkArgs g S es c = .error f c') :
    ∃ before e after fs c₁, es = before ++ e :: after ∧ checkArgs g S before c = .ok fs c₁ ∧
      checkExpr g S e c₁ = .error f c' := by
  induction es generalizing c with
  | nil => cases h
  | cons e es ih =>
    rw [checkArgs] at h
    obtain hfirst | ⟨u, c₁, hfirst, h⟩ := bind_eq_error h
    · exact ⟨[], e, es, [], c, rfl, rfl, hfirst⟩
    · obtain hrest | ⟨us, c₂, -, h⟩ := bind_eq_error h
      · obtain ⟨before, e', after, fs, c₂, rfl, hbefore, he⟩ := ih hrest
        refine ⟨e :: before, e', after, u.orNull :: fs, c₂, rfl, ?_, he⟩
        rw [checkArgs, bind_ok hfirst, bind_ok hbefore]
        rfl
      · cases h

theorem branch_emptied (b : Block) (c : CheckState) :
    ∃ c', branch S (fun inner => checkBlock g inner b.emptied) c = .ok () c' := by
  cases b with
  | missing => exact ⟨_, rfl⟩
  | of span body => exact ⟨_, rfl⟩

theorem call_of_parts {span : Span} {callee : Expr} {args : List Expr}
    (h : checkArgs g S (Node.expr (.call span callee args)).parts c = .error f c') :
    checkExpr g S (.call span callee args) c = .error f c' := by
  rw [Node.parts] at h
  rw [checkExpr]
  split at h
  · cases h
  · next hpresent =>
    rw [if_neg hpresent]
    rw [checkArgs] at h
    obtain hcallee | ⟨u, c₁, hcallee, h⟩ := bind_eq_error h
    · exact bind_error hcallee
    · rw [bind_ok hcallee]
      obtain hargs | ⟨us, c₂, -, h⟩ := bind_eq_error h
      · exact bind_error hargs
      · cases h

theorem checkArgs_singleton {e : Expr} (h : checkArgs g S [e] c = .error f c') :
    checkExpr g S e c = .error f c' := by
  obtain hfirst | ⟨u, c₁, -, h⟩ := bind_eq_error h
  · exact hfirst
  · cases h

theorem outline_of_parts {n : Node} (h : checkArgs g S n.parts c = .error f c') :
    checkNode g S n.outline c = .error f c' := by
  cases n with
  | program | block | params => cases h
  | expr e =>
    cases e with
    | call span callee args => exact call_of_parts h
    | _ => cases h
  | stmt s =>
    cases s with
    | missing => cases h
    | call span callee args => exact call_of_parts h
    | set span target value =>
      cases target with
      | none => cases h
      | some symbol =>
        rw [Node.parts] at h
        show checkStmt g S (.set span (some symbol) value) c = .error f c'
        rw [checkStmt]
        split at h
        · cases h
        · next hpresent =>
          rw [if_neg hpresent]
          exact bind_error (checkArgs_singleton h)
    | branch span condition thenBlock elseBlock =>
      rw [Node.parts] at h
      rw [Node.outline, Stmt.outline, checkNode, checkStmt, Block.isMissing_emptied]
      split at h
      · cases h
      · next hpresent =>
        rw [if_neg hpresent]
        exact bind_error (checkArgs_singleton h)
    | times span count body =>
      cases count with
      | symbol s =>
        rw [Node.parts] at h
        rw [Node.outline, Stmt.outline, checkNode, checkStmt, Block.isMissing_emptied]
        split at h
        · cases h
        · next hpresent =>
          rw [if_neg hpresent]
          exact bind_error (bind_error (checkArgs_singleton h))
      | _ => cases h

theorem checkNode_of_outline {n : Node} (h : checkNode g S n.outline c = .error f c') :
    checkNode g S n c = .error f c' := by
  cases n with
  | program | block | params | expr => exact h
  | stmt s =>
    cases s with
    | missing | set | call => exact h
    | branch span condition thenBlock elseBlock =>
      rw [Node.outline, Stmt.outline, checkNode, checkStmt, Block.isMissing_emptied] at h
      rw [checkNode, checkStmt]
      split at h
      · next hmissing =>
        rw [if_pos hmissing]
        exact h
      next hpresent =>
      rw [if_neg hpresent]
      obtain hcondition | ⟨u, c₁, -, h⟩ := bind_eq_error h
      · exact bind_error hcondition
      obtain ⟨c₂, hthen⟩ := branch_emptied (g := g) (S := S) thenBlock c₁
      rw [bind_ok hthen, Block.isMissing_emptied] at h
      split at h
      · obtain ⟨c₃, helse⟩ := branch_emptied (g := g) (S := S) elseBlock c₂
        rw [bind_ok helse] at h
        cases h
      · cases h
    | times span count body =>
      rw [Node.outline, Stmt.outline, checkNode, checkStmt, Block.isMissing_emptied] at h
      rw [checkNode, checkStmt]
      split at h
      · next hmissing =>
        rw [if_pos hmissing]
        exact h
      next hpresent =>
      rw [if_neg hpresent]
      obtain hcount | ⟨u, c₁, -, h⟩ := bind_eq_error h
      · exact bind_error hcount
      obtain ⟨c₂, hbody⟩ := branch_emptied (g := g) (S := S) body c₁
      rw [bind_ok hbody] at h
      cases h

/-- The check of a node fails in the own part of `x`, which may stand within it: what is evaluated
before passes, and so do the parts of `x`. -/
structure Node.FailsAt (g : Ground) (S : ScratchId) (c : CheckState) (n : Node) (earlier : List Expr)
    (x : Node) (f : Failure) : Prop where
  leads : n.Leads earlier x
  passes : ∃ fs c₁, checkArgs g S (earlier ++ x.parts) c = .ok fs c₁
  fails : ∃ fs c₁ c₂, checkArgs g S earlier c = .ok fs c₁ ∧
    checkNode g S x.outline c₁ = .error f c₂

theorem Node.exists_failsAt (n : Node) {c c' : CheckState}
    (h : checkNode g S n.outline c = .error f c') : ∃ earlier x, n.FailsAt g S c earlier x f := by
  cases hparts : checkArgs g S n.parts c with
  | ok fs c₁ => exact ⟨[], n, .here n, ⟨fs, c₁, hparts⟩, [], c, c', rfl, h⟩
  | error f' c₁ =>
    -- the place lies within the first part to fail
    cases h.symm.trans (outline_of_parts hparts)
    obtain ⟨before, e, after, fs, c₂, hsplit, hbefore, he⟩ := checkArgs_error hparts
    have hmem : e ∈ n.parts := by simp [hsplit]
    have hlt := sizeOf_lt_of_mem_parts hmem
    obtain ⟨earlier, x, hleads, ⟨fs₁, c₃, hpasses⟩, fs₂, c₄, c₅, hearlier, hfails⟩ :=
      Node.exists_failsAt (.expr e) he
    refine ⟨before ++ earlier, x, .part hsplit hleads, ⟨fs ++ fs₁, c₃, ?_⟩,
      fs ++ fs₂, c₄, c₅, ?_, hfails⟩
    · rw [List.append_assoc, checkArgs_append, bind_ok hbefore, bind_ok hpasses]
      rfl
    · rw [checkArgs_append, bind_ok hbefore, bind_ok hearlier]
      rfl
termination_by sizeOf n

end Checks

/-- The scratch scope that a check begins in. -/
def CheckState.entered : CheckState := CheckState.initial.extend [] .empty

theorem CheckState.chain_entered : entered.chain 0 = [0] := rfl

/-- The check of a node comes to a part of it that no block stands around, by way of these statements,
in that state: to a statement of its own, or to the node itself if it has none. -/
inductive Node.ComesTo (g : Ground) (n : Node) : List Stmt → Node → CheckState → Prop
  | statement {before after : List Stmt} {s : Stmt} {last : Finding} {c : CheckState} :
      n.body? = some (before ++ s :: after) →
      checkBody g 0 (.known .absent) before .entered = .ok last c →
      n.ComesTo g before (.stmt s) { c with visited := c.visited.push s }
  | whole : n.body? = none → n.ComesTo g [] n .entered

section Places

variable {g : Ground} {n m : Node} {c c' : CheckState} {f : Failure} {body before : List Stmt}

theorem checkNode_body (S : ScratchId) (h : n.body? = some body) :
    checkNode g S n = checkBody g S (.known .absent) body := by
  cases n with
  | program p =>
    cases h
    rfl
  | block b =>
    cases b <;> cases h <;> rfl
  | stmt | expr | params => cases h

theorem Node.ComesTo.check_error (h : n.ComesTo g before m c)
    (hfails : checkNode g 0 m c = .error f c') : ∃ c₁, check g n .initial = .error f c₁ := by
  have hnode : ∃ c₁, checkNode g 0 n .entered = .error f c₁ := by
    cases h with
    | @statement _ after s last c hbody hbefore =>
      refine ⟨c', ?_⟩
      rw [checkNode_body 0 hbody, checkBody_append, bind_ok hbefore, checkBody]
      exact (bind_ok rfl).trans (bind_error hfails)
    | whole => exact ⟨c', hfails⟩
  obtain ⟨c₁, hnode⟩ := hnode
  exact ⟨c₁, (bind_ok rfl).trans (bind_error hnode)⟩

theorem checkBody_error {S : ScratchId} {last : Finding}
    (h : checkBody g S last body c = .error f c') :
    ∃ before s after last' c₁, body = before ++ s :: after ∧
      checkBody g S last before c = .ok last' c₁ ∧
      checkStmt g S s { c₁ with visited := c₁.visited.push s } = .error f c' := by
  induction body generalizing last c with
  | nil => cases h
  | cons s rest ih =>
    obtain h | ⟨⟨⟩, c₁, hvisit, h⟩ := bind_eq_error h
    · cases h
    cases hvisit
    obtain hfirst | ⟨u, c₁, hfirst, h⟩ := bind_eq_error h
    · exact ⟨[], s, rest, last, c, rfl, rfl, hfirst⟩
    · obtain ⟨before, s', after, last', c₂, rfl, hbefore, hs⟩ := ih h
      refine ⟨s :: before, s', after, last', c₂, rfl, ?_, hs⟩
      rw [checkBody]
      exact (bind_ok rfl).trans ((bind_ok hfirst).trans hbefore)

/-- A check fails before it comes to a block, or within a block of a statement whose outline passes, or
within the body of a function, when all of the tree outside of functions has passed. -/
theorem check_error_cases (h : check g n .initial = .error f c') :
    (∃ before m c c₁, n.ComesTo g before m c ∧ checkNode g 0 m.outline c = .error f c₁) ∨
    (∃ before m c c₁ c₂ u, n.ComesTo g before m c ∧ checkNode g 0 m.outline c = .ok u c₁ ∧
      checkNode g 0 m c = .error f c₂) ∨
    ∃ u c₁, checkNode g 0 n .entered = .ok u c₁ ∧
      checkAllWaiting g n.literalCount 0 c₁ = .error f c' := by
  obtain h | ⟨_, _, hopen, h⟩ := bind_eq_error h
  · cases h
  cases hopen
  obtain hnode | ⟨u, c₁, hnode, h⟩ := bind_eq_error h
  · replace hnode : checkNode g 0 n .entered = .error f c' := hnode
    have hplace : ∃ before m c, n.ComesTo g before m c ∧ checkNode g 0 m c = .error f c' := by
      cases hbody : n.body? with
      | none => exact ⟨[], n, .entered, .whole hbody, hnode⟩
      | some body =>
        rw [checkNode_body 0 hbody] at hnode
        obtain ⟨before, s, after, last, c₁, rfl, hbefore, hs⟩ := checkBody_error hnode
        exact ⟨before, .stmt s, _, .statement hbody hbefore, hs⟩
    obtain ⟨before, m, c, hcomes, hfails⟩ := hplace
    cases houtline : checkNode g 0 m.outline c with
    | ok u c₁ => exact .inr (.inl ⟨before, m, c, c₁, c', u, hcomes, houtline, hfails⟩)
    | error f' c₁ =>
      cases hfails.symm.trans (checkNode_of_outline houtline)
      exact .inl ⟨before, m, c, c', hcomes, houtline⟩
  · obtain hwaiting | ⟨⟨⟩, c₂, -, h⟩ := bind_eq_error h
    · exact .inr (.inr ⟨u, c₁, hnode, hwaiting⟩)
    · cases u <;> cases h

end Places

open Execution

section Runs

variable {setting : Setting} {scope : ScopeId} {n x : Node} {w w₁ w' : World} {f : Failure}
  {earlier : List Expr}

theorem evalArgs_append {host : Host} {invoke : Invoke} (as bs : List Expr) :
    evalArgs host invoke scope (as ++ bs) = (do
      let vs ← evalArgs host invoke scope as
      let vs' ← evalArgs host invoke scope bs
      return vs ++ vs') := by
  induction as with
  | nil => simp [evalArgs]
  | cons e as ih => simp [evalArgs, ih]

theorem evalBody_append {host : Host} {invoke : Invoke} (last : Value) (before after : List Stmt) :
    evalBody host invoke scope last (before ++ after) = (do
      let last ← evalBody host invoke scope last before
      evalBody host invoke scope last after) := by
  induction before generalizing last with
  | nil => simp [evalBody]
  | cons s before ih => simp [evalBody, ih]

theorem evaluate_body {body : List Stmt} (h : n.body? = some body) :
    setting.evaluate scope n = evalBody setting.host setting.invoke scope .absent body := by
  cases n with
  | program p =>
    cases h
    rfl
  | block b =>
    cases b <;> cases h <;> rfl
  | stmt | expr | params => cases h

theorem call_of_parts_run {span : Span} {callee : Expr} {args : List Expr}
    (h : evalArgs setting.host setting.invoke scope (Node.expr (.call span callee args)).parts w =
      .error f w') :
    evalExpr setting.host setting.invoke scope (.call span callee args) w = .error f w' := by
  rw [Node.parts] at h
  rw [evalExpr]
  split at h
  · cases h
  · next hpresent =>
    rw [if_neg hpresent]
    rw [evalArgs] at h
    obtain hcallee | ⟨u, w₁, hcallee, h⟩ := bind_eq_error h
    · exact bind_error hcallee
    · rw [bind_ok hcallee]
      obtain hargs | ⟨us, w₂, -, h⟩ := bind_eq_error h
      · exact bind_error hargs
      · cases h

theorem evalArgs_singleton {e : Expr}
    (h : evalArgs setting.host setting.invoke scope [e] w = .error f w') :
    evalExpr setting.host setting.invoke scope e w = .error f w' := by
  obtain hfirst | ⟨u, w₁, -, h⟩ := bind_eq_error h
  · exact hfirst
  · cases h

theorem evaluate_of_parts
    (h : evalArgs setting.host setting.invoke scope n.parts w = .error f w') :
    setting.evaluate scope n w = .error f w' := by
  cases n with
  | program | block | params => cases h
  | expr e =>
    cases e with
    | call span callee args => exact call_of_parts_run h
    | _ => cases h
  | stmt s =>
    cases s with
    | missing => cases h
    | call span callee args => exact call_of_parts_run h
    | set span target value =>
      cases target with
      | none => cases h
      | some symbol =>
        rw [Node.parts] at h
        rw [Setting.evaluate, evalStmt]
        split at h
        · cases h
        · next hpresent =>
          rw [if_neg hpresent]
          exact bind_error (evalArgs_singleton h)
    | branch span condition thenBlock elseBlock =>
      rw [Node.parts] at h
      rw [Setting.evaluate, evalStmt]
      split at h
      · cases h
      · next hpresent =>
        rw [if_neg hpresent]
        exact bind_error (evalArgs_singleton h)
    | times span count body =>
      cases count with
      | symbol s =>
        rw [Node.parts] at h
        rw [Setting.evaluate, evalStmt, startLoop]
        split at h
        · cases h
        · next hpresent =>
          rw [if_neg hpresent]
          exact bind_error (bind_error (evalArgs_singleton h))
      | _ => cases h

theorem Node.Leads.evaluate_earlier (h : n.Leads earlier x)
    (hfails : evalArgs setting.host setting.invoke scope earlier w = .error f w') :
    setting.evaluate scope n w = .error f w' := by
  induction h generalizing w with
  | here => cases hfails
  | @part n x e before after earlier hsplit _ ih =>
    apply evaluate_of_parts
    rw [evalArgs_append] at hfails
    rw [hsplit, evalArgs_append]
    obtain hbefore | ⟨vs, w₁, hbefore, hfails⟩ := bind_eq_error hfails
    · exact bind_error hbefore
    rw [bind_ok hbefore]
    obtain hearlier | ⟨us, w₂, -, hfails⟩ := bind_eq_error hfails
    · have he : evalExpr setting.host setting.invoke scope e w₁ = .error f w' := ih hearlier
      exact bind_error (bind_error he)
    · cases hfails

/-- When what comes before a part of it has gone well, a run fails as that part does. -/
theorem Node.Leads.evaluate_part (h : n.Leads earlier x) {vs : List Value}
    (hearlier : evalArgs setting.host setting.invoke scope earlier w = .ok vs w₁)
    (hfails : setting.evaluate scope x w₁ = .error f w') :
    setting.evaluate scope n w = .error f w' := by
  induction h generalizing w vs with
  | here =>
    cases hearlier
    exact hfails
  | @part n x e before after earlier hsplit _ ih =>
    apply evaluate_of_parts
    rw [evalArgs_append] at hearlier
    rw [hsplit, evalArgs_append]
    obtain ⟨us, w₂, hbefore, hearlier⟩ := bind_eq_ok hearlier
    obtain ⟨us', w₃, hrest, hearlier⟩ := bind_eq_ok hearlier
    cases hearlier
    have he : evalExpr setting.host setting.invoke scope e w₂ = .error f w' := ih hrest hfails
    rw [bind_ok hbefore]
    exact bind_error (bind_error he)

theorem Node.ComesTo.body?_eq_none {g : Ground} {m : Node} {before : List Stmt} {c : CheckState}
    (h : n.ComesTo g before m c) : m.body? = none := by
  cases h with
  | statement => rfl
  | whole hn => exact hn

/-- A run fails where its check comes to as the statements before do, or as the node there does. -/
theorem Node.ComesTo.evaluate_error {g : Ground} {m : Node} {before : List Stmt} {c : CheckState}
    (h : n.ComesTo g before m c) :
    (evalBody setting.host setting.invoke scope .absent before w = .error f w' →
      setting.evaluate scope n w = .error f w') ∧
    ∀ v w₁, evalBody setting.host setting.invoke scope .absent before w = .ok v w₁ →
      setting.evaluate scope m w₁ = .error f w' → setting.evaluate scope n w = .error f w' := by
  cases h with
  | @statement _ after s last c hbody _ =>
    rw [evaluate_body hbody, evalBody_append]
    refine ⟨fun hbefore => bind_error hbefore, fun v w₁ hbefore hs => ?_⟩
    rw [bind_ok hbefore]
    exact bind_error hs
  | whole _ =>
    refine ⟨by rintro ⟨⟩, fun v w₁ hbefore hn => ?_⟩
    cases hbefore
    exact hn

end Runs

end Stepwise
