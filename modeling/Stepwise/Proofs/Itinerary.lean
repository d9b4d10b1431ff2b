import Mathlib.Data.List.Forall2
import Stepwise.Proofs.Descent
import Stepwise.Proofs.Reading
import Stepwise.Tree.Node

/-! Where the path of a position leads. In a tree that has been read, the path from a statement to a
position in it goes from child to child and ends at a statement, or in front of an empty block; and
the frames of the position are those of the loops whose bodies it goes through. -/

namespace Stepwise

namespace Node

def follow? (n : Node) : Location → Option Node
  | [] => some n
  | i :: path => (n.childAt? i).bind fun m => m.follow? path

/-- The count of a loop, when a child of the node is its body. -/
def countOver? : Node → Node → Option Expr
  | .stmt (.times _ count _), .block _ => some count
  | _, _ => none

/-- The counts of the loops whose bodies a path goes through, the outermost first. -/
def loopsOn (n : Node) : Location → List Expr
  | [] => []
  | i :: path =>
    match n.childAt? i with
    | none => []
    | some m => (n.countOver? m).toList ++ m.loopsOn path

/-- A path from a node, with the frames of the loops under way on it. -/
structure Itinerary (n : Node) (path : Location) (frames : LoopStack) : Prop where
  /-- From child to child it gets to a statement, or to number 0 of a block that has none. -/
  leads : (∃ s, n.follow? path = some (.stmt s)) ∨
    ∃ before span, path = before ++ [0] ∧ n.follow? before = some (.block (.of span []))
  /-- A frame for each loop on the path, and each as its loop has it. -/
  loops : List.Forall₂ (fun count f => f.CountedBy count ∧ f.Running) (n.loopsOn path) frames

variable {n m : Node} {i : Int} {path : Location} {frames : LoopStack}

theorem follow?_cons (hm : n.childAt? i = some m) : n.follow? (i :: path) = m.follow? path := by
  rw [follow?, hm]
  rfl

namespace Itinerary

theorem statement (s : Stmt) : (Node.stmt s).Itinerary [] [] := ⟨.inl ⟨s, rfl⟩, .nil⟩

theorem emptyBlock (span : Span) : (Node.block (.of span [])).Itinerary [0] [] :=
  ⟨.inr ⟨[], span, rfl, rfl⟩, .nil⟩

theorem child (h : m.Itinerary path frames) (hm : n.childAt? i = some m) {frames' : LoopStack}
    (hloop : List.Forall₂ (fun count f => f.CountedBy count ∧ f.Running) (n.countOver? m).toList
      frames') : n.Itinerary (i :: path) (frames' ++ frames) := by
  constructor
  · obtain ⟨s, hs⟩ | ⟨before, span, rfl, hbefore⟩ := h.leads
    · exact .inl ⟨s, (follow?_cons hm).trans hs⟩
    · exact .inr ⟨i :: before, span, rfl, (follow?_cons hm).trans hbefore⟩
  · simp only [loopsOn, hm]
    exact List.rel_append hloop h.loops

end Itinerary

theorem present_stmts {body : List Stmt} (h : Stmt.AllProper body) :
    children.present (body.map .stmt) = body.map .stmt := by
  rw [children.present, List.filter_eq_self]
  intro n hn
  obtain ⟨s, hs, rfl⟩ := List.mem_map.mp hn
  have hs := h.proper hs
  cases s with
  | missing => exact hs.elim
  | _ => rfl

theorem childAt?_stmt {body : List Stmt} {index : Nat} {s : Stmt}
    (hn : n.children = children.present (body.map .stmt)) (h : Stmt.AllProper body)
    (hs : body[index]? = some s) : n.childAt? index = some (.stmt s) := by
  rw [childAt?, if_neg (by omega), hn, present_stmts h]
  simp [hs]

theorem isMissing_expr {e : Expr} (h : e.Proper) : (Node.expr e).isMissing = false := by
  cases e with
  | missing => exact h.elim
  | _ => rfl

theorem isMissing_block {b : Block} (h : b.Proper) : (Node.block b).isMissing = false := by
  cases b with
  | missing => exact h.elim
  | of => rfl

theorem childAt?_branch {span : Span} {condition : Expr} {thenBlock elseBlock : Block}
    (h : (Stmt.branch span condition thenBlock elseBlock).Proper) (truthy : Bool)
    (hb : (if truthy then thenBlock else elseBlock).Proper) :
    (Node.stmt (.branch span condition thenBlock elseBlock)).childAt? (branchChild truthy) =
      some (.block (if truthy then thenBlock else elseBlock)) := by
  have hcondition := isMissing_expr h.1
  have hthen := isMissing_block h.2.1
  cases truthy with
  | true => simp [childAt?, branchChild, children, children.present, hcondition, hthen]
  | false =>
    have helse := isMissing_block hb
    simp only [Bool.false_eq_true, if_false] at helse
    simp [childAt?, branchChild, children, children.present, hcondition, hthen, helse]

theorem childAt?_times {span : Span} {count : Expr} {body : Block}
    (h : (Stmt.times span count body).Proper) :
    (Node.stmt (.times span count body)).childAt? 1 = some (.block body) := by
  simp [childAt?, children, children.present, isMissing_expr h.1, isMissing_block h.2]

end Node

theorem Node.Itinerary.stmtAt {n : Node} {body : List Stmt} {index : Nat} {s : Stmt}
    {path : Location} {frames : LoopStack} (h : (Node.stmt s).Itinerary path frames)
    (hn : n.children = children.present (body.map .stmt)) (hproper : Stmt.AllProper body)
    (hs : body[index]? = some s) : n.Itinerary (index :: path) frames := by
  have hloop : n.countOver? (.stmt s) = none := by
    unfold countOver?
    split
    · next heq => cases heq
    · rfl
  exact h.child (childAt?_stmt hn hproper hs) (by rw [hloop]; exact .nil)

theorem Block.Admits.itinerary {b : Block} {index : Nat} {inner : Position}
    (h : b.Admits index inner.Fits (inner = .entry)) (hb : b.Proper)
    (ih : ∀ s, inner.Fits s → s.Proper → (Node.stmt s).Itinerary inner.path inner.frames) :
    (Node.block b).Itinerary (index :: inner.path) inner.frames := by
  cases b with
  | missing => exact hb.elim
  | of span body =>
    obtain ⟨s, hs, hfits⟩ | ⟨-, hnil, rfl, rfl⟩ := h
    · have hproper : s.Proper := Stmt.AllProper.proper hb (List.mem_of_getElem? hs)
      exact (ih s hfits hproper).stmtAt rfl hb hs
    · have hnil : body = [] := hnil
      rw [hnil]
      exact .emptyBlock span

theorem Block.proper_of_not_missing {b : Block} (h : b = .missing ∨ b.Proper)
    (hb : b.isMissing = false) : b.Proper := by
  obtain rfl | h := h
  · cases hb
  · exact h

theorem Position.Fits.itinerary {p : Position} {s : Stmt} (h : p.Fits s) (hs : s.Proper) :
    (Node.stmt s).Itinerary p.path p.frames := by
  induction p generalizing s with
  | entry => exact .statement s
  | inBranch truthy index inner ih =>
    cases s with
    | branch span condition thenBlock elseBlock =>
      obtain ⟨-, hadmits⟩ := h
      have hfits : Spot.Fits ⟨index, inner⟩ (if truthy then thenBlock else elseBlock) := hadmits
      have hb : (if truthy then thenBlock else elseBlock).Proper := by
        refine Block.proper_of_not_missing ?_ hfits.not_missing
        split
        · exact .inr hs.2.1
        · exact hs.2.2
      have hpath : (inBranch truthy index inner).path =
          branchChild truthy :: index :: inner.path := by
        cases truthy <;> rfl
      rw [hpath]
      exact (hadmits.itinerary hb fun s hfits hs => ih hfits hs).child
        (Node.childAt?_branch hs truthy hb) .nil
    | _ => exact h.elim
  | inLoop frame index inner ih =>
    cases s with
    | times span count body =>
      obtain ⟨hrun, hcount, hadmits⟩ := h
      exact (hadmits.itinerary hs.2 fun s hfits hs => ih hfits hs).child
        (Node.childAt?_times hs) (.cons ⟨hcount, hrun⟩ .nil)
    | _ => exact h.elim

theorem Spot.Fits.itinerary {c : Spot} {p : Program} (h : c.Fits (.of .nowhere p.body))
    (hp : p.Proper) (hne : p.body ≠ []) : (Node.program p).Itinerary c.path c.frames := by
  obtain ⟨s, hs, hfits⟩ | ⟨-, hnil, -⟩ := h
  · have hproper : s.Proper := Stmt.AllProper.proper hp (List.mem_of_getElem? hs)
    exact (hfits.itinerary hproper).stmtAt rfl hp hs
  · exact (hne hnil).elim

end Stepwise
