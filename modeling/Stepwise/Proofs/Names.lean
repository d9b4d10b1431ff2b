import Stepwise.Store

/-! The names that occur in a tree: those it looks up, those it assigns and those of its parameters. -/

namespace Stepwise

mutual

def Expr.names : Expr → List Name
  | .symbol s => [s.name]
  | .call _ callee args => callee.names ++ Expr.namesOf args
  | .function _ params body => Params.names params ++ body.names
  | .missing | .number _ _ | .boolean _ _ | .null _ | .string _ _ | .forever _ => []

def Expr.namesOf : List Expr → List Name
  | [] => []
  | e :: es => e.names ++ Expr.namesOf es

def Block.names : Block → List Name
  | .missing => []
  | .of _ body => Stmt.namesOf body

def Stmt.names : Stmt → List Name
  | .missing => []
  | .set _ target value => (target.map Symbol.name).toList ++ value.names
  | .branch _ condition thenBlock elseBlock =>
    condition.names ++ (thenBlock.names ++ elseBlock.names)
  | .times _ count body => count.names ++ body.names
  | .call _ callee args => callee.names ++ Expr.namesOf args

def Stmt.namesOf : List Stmt → List Name
  | [] => []
  | s :: rest => s.names ++ Stmt.namesOf rest

end

mutual

/-- The names that a body assigns, in branches and loops as well, but not in functions. -/
def Block.assigned : Block → List Name
  | .missing => []
  | .of _ body => Stmt.assignedIn body

def Stmt.assigned : Stmt → List Name
  | .set _ target _ => (target.map Symbol.name).toList
  | .branch _ _ thenBlock elseBlock => thenBlock.assigned ++ elseBlock.assigned
  | .times _ _ body => body.assigned
  | .missing | .call _ _ _ => []

def Stmt.assignedIn : List Stmt → List Name
  | [] => []
  | s :: rest => s.assigned ++ Stmt.assignedIn rest

end

section

variable {name : Name}

mutual

theorem Block.mem_names_of_assigned (b : Block) (h : name ∈ b.assigned) : name ∈ b.names := by
  cases b with
  | missing => exact h
  | of span body =>
    rw [Block.assigned] at h
    rw [Block.names]
    exact Stmt.mem_namesOf_of_assignedIn body h
termination_by structural b

theorem Stmt.mem_names_of_assigned (s : Stmt) (h : name ∈ s.assigned) : name ∈ s.names := by
  cases s with
  | missing | call =>
    rw [Stmt.assigned] at h
    cases h
  | set span target value =>
    rw [Stmt.assigned] at h
    rw [Stmt.names]
    exact List.mem_append_left _ h
  | branch span condition thenBlock elseBlock =>
    rw [Stmt.assigned] at h
    rw [Stmt.names]
    refine List.mem_append_right _ ?_
    obtain h | h := List.mem_append.mp h
    · exact List.mem_append_left _ (thenBlock.mem_names_of_assigned h)
    · exact List.mem_append_right _ (elseBlock.mem_names_of_assigned h)
  | times span count body =>
    rw [Stmt.assigned] at h
    rw [Stmt.names]
    exact List.mem_append_right _ (body.mem_names_of_assigned h)
termination_by structural s

theorem Stmt.mem_namesOf_of_assignedIn (body : List Stmt) (h : name ∈ Stmt.assignedIn body) :
    name ∈ Stmt.namesOf body := by
  cases body with
  | nil => exact h
  | cons s rest =>
    rw [Stmt.assignedIn] at h
    rw [Stmt.namesOf]
    obtain h | h := List.mem_append.mp h
    · exact List.mem_append_left _ (s.mem_names_of_assigned h)
    · exact List.mem_append_right _ (Stmt.mem_namesOf_of_assignedIn rest h)
termination_by structural body

end

end

def Literal.names (l : Literal) : List Name := l.paramNames ++ l.body.names

def Program.names (p : Program) : List Name := Stmt.namesOf p.body

end Stepwise
