import Stepwise.Proofs.Execution
import Stepwise.Proofs.Scratch

/-! What a check has done when it has passed: it has visited all it was given, and of what may run any
number of times it knows nothing any more. -/

namespace Stepwise

open Checking

/-- What the check makes of a call. -/
def Dispatch.check (g : Ground) (S : ScratchId) (span : Span) (fs : List Finding) :
    Dispatch → Checking Finding
  | .native n => checkNative g S span n fs
  | .closure _ => pure .unknown
  | .refused cause => fail cause span

theorem checkApply_known (g : Ground) (S : ScratchId) (span : Span) (u : Value) (fs : List Finding) :
    checkApply g S span (.known u) fs = (Dispatch.of fs.length u).check g S span fs := by
  cases u with
  | native n =>
    cases harity : n.arity with
    | none => simp only [checkApply, Dispatch.of, harity, Dispatch.check]
    | some expected =>
      simp only [checkApply, Dispatch.of, harity]
      split <;> rfl
  | function l =>
    simp only [checkApply, Dispatch.of]
    split <;> rfl
  | _ => rfl

namespace CheckState

variable {g : Ground} {S : ScratchId} {c c' : CheckState} {f : Finding}

theorem of_checkNative {span : Span} {n : Native} {fs : List Finding}
    (h : checkNative g S span n fs c = .ok f c') : ∃ written, c' = { c with written } := by
  rw [checkNative] at h
  split at h
  · cases hus : Finding.values? fs with
    | none =>
      rw [hus] at h
      cases h
      exact ⟨_, rfl⟩
    | some us =>
      rw [hus] at h
      dsimp only [askNative] at h
      split at h
      · cases h
        exact ⟨_, rfl⟩
      · cases h
  · cases h
    exact ⟨_, rfl⟩

theorem of_checkApply {span : Span} {callee : Finding} {fs : List Finding}
    (h : checkApply g S span callee fs c = .ok f c') : ∃ written, c' = { c with written } := by
  cases callee with
  | unknown =>
    cases h
    exact ⟨_, rfl⟩
  | known u =>
    rw [checkApply_known] at h
    cases hd : Dispatch.of fs.length u with
    | native n =>
      rw [hd] at h
      exact of_checkNative h
    | closure l =>
      rw [hd] at h
      cases h
      exact ⟨_, rfl⟩
    | refused cause =>
      rw [hd] at h
      cases h

mutual

theorem checkExpr_visits (e : Expr) {c c' : CheckState} {f : Finding} (hS : c.Rooted S)
    (h : checkExpr g S e c = .ok f c') : c.Visited S (.expr e) c' ∧ c'.scopes = c.scopes := by
  cases e with
  | missing | forever => cases h
  | number | boolean | null | string =>
    cases h
    exact ⟨visited_refl S c rfl, rfl⟩
  | symbol s =>
    rw [checkExpr, Checking.lookup] at h
    split at h
    · cases h
      exact ⟨visited_refl S c rfl, rfl⟩
    · cases h
  | function span params body =>
    rw [checkExpr] at h
    split at h
    · cases h
    · cases h
      refine ⟨visited_wait hS rfl fun around => ?_, rfl⟩
      rw [Task.functions, Expr.functions]
      exact List.mem_cons_self
  | call span callee args =>
    rw [checkExpr] at h
    split at h
    · cases h
    · obtain ⟨u, c₁, hcallee, h⟩ := bind_eq_ok h
      obtain ⟨us, c₂, hargs, h⟩ := bind_eq_ok h
      obtain ⟨written, rfl⟩ := of_checkApply h
      obtain ⟨hvisited₁, hscopes₁⟩ := checkExpr_visits callee hS hcallee
      obtain ⟨hvisited₂, hscopes₂⟩ := checkArgs_visits args (hvisited₁.rooted hS) hargs
      have hvisited : c.Visited S (.expr (.call span callee args)) c₂ :=
        hvisited₁.trans hvisited₂ hS.1 Task.callee_partOf Task.args_partOf (List.nil_subset _)
      exact ⟨hvisited.of_written, hscopes₂.trans hscopes₁⟩
termination_by structural e

theorem checkArgs_visits (es : List Expr) {c c' : CheckState} {fs : List Finding} (hS : c.Rooted S)
    (h : checkArgs g S es c = .ok fs c') : c.Visited S (.args es) c' ∧ c'.scopes = c.scopes := by
  cases es with
  | nil =>
    cases h
    exact ⟨visited_refl S c rfl, rfl⟩
  | cons e es =>
    rw [checkArgs] at h
    obtain ⟨u, c₁, hfirst, h⟩ := bind_eq_ok h
    obtain ⟨us, c₂, hrest, h⟩ := bind_eq_ok h
    cases h
    obtain ⟨hvisited₁, hscopes₁⟩ := checkExpr_visits e hS hfirst
    obtain ⟨hvisited₂, hscopes₂⟩ := checkArgs_visits es (hvisited₁.rooted hS) hrest
    exact ⟨hvisited₁.trans hvisited₂ hS.1 Task.arg_partOf Task.nextArg_partOf (List.nil_subset _),
      hscopes₂.trans hscopes₁⟩
termination_by structural es

end

theorem of_checkCount {span : Span} {count : Expr}
    (h : checkCount g S span count c = .ok () c') : c' = c := by
  cases count with
  | missing | boolean | null | string | call | function => cases h
  | forever | number =>
    cases h
    rfl
  | symbol s =>
    obtain ⟨f, c₁, hlookup, h⟩ := bind_eq_ok h
    obtain rfl : c₁ = c := by
      rw [checkExpr, Checking.lookup] at hlookup
      split at hlookup
      · cases hlookup
        rfl
      · cases hlookup
    cases f with
    | unknown =>
      cases h
      rfl
    | known v =>
      cases v with
      | integer n =>
        cases h
        rfl
      | _ => cases h

theorem branch_visits {b : Block} (hS : c.Rooted S)
    (hbody : ∀ {i : ScratchId} {c c' : CheckState} {f : Finding}, c.Rooted i →
      checkBlock g i b c = .ok f c' → c.Visited i (.block b) c')
    (h : Checking.branch S (fun inner => checkBlock g inner b) c = .ok () c') :
    c.Visited S (.block b) c' ∧ ∀ x ∈ b.assigned, (c'.bindings S).get? x = some .unknown := by
  rw [branch_eq] at h
  obtain ⟨f, c₁, hblock, h⟩ := bind_eq_ok h
  cases h
  exact (hbody (hS.extend .empty) hblock).leave hS.1

mutual

/-- A statement that passes has been visited; what it assigns within blocks is unknown. -/
theorem checkStmt_visits (s : Stmt) {S : ScratchId} {c c' : CheckState} {f : Finding}
    (hS : c.Rooted S) (h : checkStmt g S s c = .ok f c') : c.Visited S (.stmt s) c' ∧
      (s.isAtomic = false → ∀ x ∈ s.assigned, (c'.bindings S).get? x = some .unknown) := by
  cases s with
  | missing => cases h
  | set span target value =>
    refine ⟨?_, by rintro ⟨⟩⟩
    cases target with
    | none => cases h
    | some symbol =>
      rw [checkStmt] at h
      split at h
      · cases h
      · obtain ⟨f, c₁, hvalue, h⟩ := bind_eq_ok h
        cases h
        exact (checkExpr_visits value hS hvalue).1.assign hS.1 span symbol f.orNull
  | branch span condition thenBlock elseBlock =>
    rw [checkStmt] at h
    split at h
    · cases h
    obtain ⟨f, c₁, hcondition, h⟩ := bind_eq_ok h
    obtain ⟨⟨⟩, c₂, hthen, h⟩ := bind_eq_ok h
    have hvisited₁ := (checkExpr_visits condition hS hcondition).1
    have hS₁ := hvisited₁.rooted hS
    obtain ⟨hvisited₂, hunknown₂⟩ := branch_visits hS₁ (checkBlock_visits thenBlock) hthen
    have hlast : c₂.Visited S (.block elseBlock) c' ∧
        ∀ x ∈ elseBlock.assigned, (c'.bindings S).get? x = some .unknown := by
      cases elseBlock with
      | missing =>
        cases h
        exact ⟨visited_refl S _ rfl, by simp [Block.assigned]⟩
      | of place body =>
        obtain ⟨⟨⟩, c₃, helse, h⟩ := bind_eq_ok h
        cases h
        exact branch_visits (hvisited₂.rooted hS₁) (checkBlock_visits (.of place body)) helse
    obtain ⟨hvisited₃, hunknown₃⟩ := hlast
    have hblocks : c₁.Visited S (.stmt (.branch span condition thenBlock elseBlock)) c' :=
      hvisited₂.trans hvisited₃ hS₁.1 Task.then_partOf Task.else_partOf
        (by simp [Task.assigned, Stmt.assigned])
    refine ⟨hvisited₁.trans hblocks hS.1 Task.condition_partOf (.refl _)
      (List.subset_append_right _ _), fun _ x hx => ?_⟩
    -- what the first block has made unknown stays so in the second one, unless it is assigned there again
    by_cases helse : x ∈ elseBlock.assigned
    · exact hunknown₃ x helse
    · rw [hvisited₃.kept x helse]
      have hx : x ∈ thenBlock.assigned ∨ x ∈ elseBlock.assigned := by
        simpa [Stmt.assigned] using hx
      exact hunknown₂ x (hx.resolve_right helse)
  | times span count body =>
    rw [checkStmt] at h
    split at h
    · cases h
    obtain ⟨⟨⟩, c₁, hcount, h⟩ := bind_eq_ok h
    obtain ⟨⟨⟩, c₂, hbody, h⟩ := bind_eq_ok h
    cases h
    obtain rfl := of_checkCount hcount
    obtain ⟨hvisited, hunknown⟩ := branch_visits hS (checkBlock_visits body) hbody
    refine ⟨hvisited.part Task.round_partOf (by simp [Task.assigned, Stmt.assigned]), fun _ x hx => ?_⟩
    exact hunknown x (by simpa [Stmt.assigned] using hx)
  | call span callee args =>
    rw [checkStmt] at h
    refine ⟨?_, by rintro ⟨⟩⟩
    exact (checkExpr_visits _ hS h).1.part Task.call_partOf (List.Subset.refl _)
termination_by structural s

theorem checkBlock_visits (b : Block) {S : ScratchId} {c c' : CheckState} {f : Finding}
    (hS : c.Rooted S) (h : checkBlock g S b c = .ok f c') : c.Visited S (.block b) c' := by
  cases b with
  | missing =>
    cases h
    exact visited_refl S c rfl
  | of span body =>
    rw [checkBlock] at h
    exact (checkBody_visits body hS h).part Task.body_partOf (List.Subset.refl _)
termination_by structural b

theorem checkBody_visits (body : List Stmt) {S : ScratchId} {last : Finding} {c c' : CheckState}
    {f : Finding} (hS : c.Rooted S) (h : checkBody g S last body c = .ok f c') :
    c.Visited S (.body body) c' := by
  cases body with
  | nil =>
    cases h
    exact visited_refl S c rfl
  | cons s rest =>
    obtain ⟨⟨⟩, c₁, hvisit, h⟩ := bind_eq_ok h
    cases hvisit
    obtain ⟨f', c₂, hfirst, h⟩ := bind_eq_ok h
    have hstmt := checkStmt_visits s (c := { c with visited := c.visited.push s }) hS hfirst
    have hvisited := hstmt.1.of_visit
    exact hvisited.trans (checkBody_visits rest (hvisited.rooted hS) h) hS.1 Task.first_partOf
      Task.next_partOf (by simp [Task.assigned, Stmt.assignedIn])
termination_by structural body

end

end CheckState

end Stepwise
