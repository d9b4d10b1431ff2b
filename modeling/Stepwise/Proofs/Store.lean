import Stepwise.Store

/-! What the operations of a store do to its scopes and to its loop stacks. -/

namespace Stepwise

namespace Store

variable {s t : Store} {scope id : ScopeId} {ref ref' : Nat}

theorem lookup?_congr (h : t.scopes[id]? = s.scopes[id]?) (name : Name) :
    t.lookup? id name = s.lookup? id name := by
  simp only [lookup?, bindings, h]

theorem loops?_congr (h : t.scopes[id]? = s.scopes[id]?) : t.loops? id = s.loops? id := by
  simp only [loops?, lookup?_congr h]

theorem loops?_eq_some_iff : s.loops? id = some ref ↔ s.lookup? id loopBinding = some (.loops ref) := by
  rw [loops?]
  split
  · next h => simp [h]
  · next h =>
    refine ⟨fun hn => (Option.some_ne_none _ hn.symm).elim, fun he => (h ref he).elim⟩

@[simp] theorem size_set (s : Store) (scope : ScopeId) (name : Name) (v : Value) :
    (s.set scope name v).scopes.size = s.scopes.size := by
  simp [set]

theorem getElem?_set (s : Store) (scope id : ScopeId) (name : Name) (v : Value) :
    (s.set scope name v).scopes[id]? = if scope = id then (s.scopes[id]?).map fun scope =>
      { scope with bindings := scope.bindings.insert name v } else s.scopes[id]? := by
  simp only [set, Array.getElem?_modify]

theorem getElem?_delete (s : Store) (scope id : ScopeId) (name : Name) :
    (s.delete scope name).scopes[id]? = if scope = id then (s.scopes[id]?).map fun scope =>
      { scope with bindings := scope.bindings.erase name } else s.scopes[id]? := by
  simp only [delete, Array.getElem?_modify]

theorem lookup?_set_self (hscope : scope < s.scopes.size) (name other : Name) (v : Value) :
    (s.set scope name v).lookup? scope other =
      if other = name then some v else s.lookup? scope other := by
  simp [lookup?, bindings, getElem?_set, Array.getElem?_eq_getElem hscope, Bindings.get?_insert]

theorem chain_congr (h : (t.scopes[id]?).map Scope.outer = (s.scopes[id]?).map Scope.outer) :
    t.chain id = s.chain id := by
  simp only [chain]
  cases hs : s.scopes[id]? with
  | none =>
    rw [hs, Option.map_none, Option.map_eq_none_iff] at h
    rw [h]
  | some scope =>
    rw [hs, Option.map_some, Option.map_eq_some_iff] at h
    obtain ⟨scope', ht, houter⟩ := h
    rw [ht]
    exact congrArg (id :: ·) houter

theorem chain_set (s : Store) (scope id : ScopeId) (name : Name) (v : Value) :
    (s.set scope name v).chain id = s.chain id := by
  apply chain_congr
  rw [getElem?_set]
  split
  · rw [Option.map_map]
    rfl
  · rfl

theorem chain_delete (s : Store) (scope id : ScopeId) (name : Name) :
    (s.delete scope name).chain id = s.chain id := by
  apply chain_congr
  rw [getElem?_delete]
  split
  · rw [Option.map_map]
    rfl
  · rfl

theorem chain_extend (s : Store) (parent id : ScopeId) (b : Bindings Value) :
    (s.extend parent b).chain id =
      if id = s.scopes.size then id :: s.chain parent else s.chain id := by
  simp only [chain, extend, Array.getElem?_push]
  by_cases h : id = s.scopes.size
  · rw [if_pos h, if_pos h]
  · rw [if_neg h, if_neg h]

theorem lookup?_set (s : Store) (scope id : ScopeId) (name other : Name) (v : Value) :
    (s.set scope name v).lookup? id other =
      if scope = id ∧ id < s.scopes.size ∧ other = name then some v else s.lookup? id other := by
  by_cases hscope : scope = id
  · subst hscope
    by_cases hlt : scope < s.scopes.size
    · simp [lookup?_set_self hlt, hlt]
    · have hsame : (s.set scope name v).scopes[scope]? = s.scopes[scope]? := by
        rw [getElem?_set, if_pos rfl, Array.getElem?_eq_none (Nat.le_of_not_lt hlt)]
        rfl
      simp [lookup?_congr hsame, hlt]
  · have hsame : (s.set scope name v).scopes[id]? = s.scopes[id]? := by
      rw [getElem?_set, if_neg hscope]
    simp [lookup?_congr hsame, hscope]

theorem lookup?_delete_of_ne {name other : Name} (hne : other ≠ name) (s : Store)
    (scope id : ScopeId) : (s.delete scope name).lookup? id other = s.lookup? id other := by
  simp only [lookup?, bindings, getElem?_delete]
  by_cases hscope : scope = id
  · rw [if_pos hscope]
    cases s.scopes[id]? with
    | none => rfl
    | some scope' => exact Bindings.get?_erase_of_ne hne scope'.bindings
  · rw [if_neg hscope]

theorem lookup?_of_delete {name other : Name} {v : Value}
    (h : (s.delete scope name).lookup? id other = some v) : s.lookup? id other = some v := by
  by_cases hne : other = name
  · subst hne
    by_cases hscope : scope = id
    · simp only [lookup?, bindings, getElem?_delete, if_pos hscope] at h
      cases hs : s.scopes[id]? with
      | none =>
        rw [hs] at h
        cases h
      | some found =>
        rw [hs] at h
        have hnone : (found.bindings.erase other).get? other = none := Bindings.get?_erase_self _ _
        exact absurd (hnone.symm.trans h) (by simp)
    · have hsame : (s.delete scope other).scopes[id]? = s.scopes[id]? := by
        rw [getElem?_delete, if_neg hscope]
      rwa [lookup?_congr hsame] at h
  · rwa [lookup?_delete_of_ne hne] at h

theorem mem_chain_of_lookup? {name : Name} {v : Value} (h : s.lookup? id name = some v) :
    id ∈ s.chain id := by
  cases hs : s.scopes[id]? with
  | none =>
    rw [lookup?, bindings, hs] at h
    cases h
  | some found =>
    rw [chain, hs]
    exact List.mem_cons_self

theorem lookup?_extend (s : Store) (parent id : ScopeId) (b : Bindings Value) (name : Name) :
    (s.extend parent b).lookup? id name =
      if id = s.scopes.size then b.get? name else s.lookup? id name := by
  simp only [lookup?, bindings, extend, Array.getElem?_push]
  by_cases h : id = s.scopes.size
  · rw [if_pos h, if_pos h]
  · rw [if_neg h, if_neg h]

theorem loops?_set_loops (hscope : scope < s.scopes.size) (ref : Nat) :
    (s.set scope loopBinding (.loops ref)).loops? scope = some ref := by
  rw [loops?_eq_some_iff, lookup?_set_self hscope, if_pos rfl]

theorem loops?_set_of_ne {name : Name} (hname : name ≠ loopBinding) (s : Store) (scope : ScopeId)
    (v : Value) : (s.set scope name v).loops? scope = s.loops? scope := by
  by_cases hscope : scope < s.scopes.size
  · rw [loops?, lookup?_set_self hscope, if_neg (Ne.symm hname)]
    rfl
  · apply loops?_congr
    rw [getElem?_set, if_pos rfl, Array.getElem?_eq_none (Nat.le_of_not_lt hscope)]
    rfl

@[simp] theorem stack_set (s : Store) (scope : ScopeId) (name : Name) (v : Value) :
    (s.set scope name v).stack ref = s.stack ref := rfl

theorem stack_setStack_of_ne (h : ref ≠ ref') (s : Store) (frames : LoopStack) :
    (s.setStack ref frames).stack ref' = s.stack ref' := by
  simp [stack, setStack, h]

theorem stack_setStack_self (h : ref < s.loopStacks.size) (frames : LoopStack) :
    (s.setStack ref frames).stack ref = frames := by
  simp [stack, setStack, h]

theorem stack_eq_nil_of_size_le (h : s.loopStacks.size ≤ ref) : s.stack ref = [] := by
  simp [stack, Array.getElem?_eq_none h]

theorem stack_addStack_nil (s : Store) (ref : Nat) : (s.addStack []).stack ref = s.stack ref := by
  by_cases h : ref = s.loopStacks.size
  · rw [stack_eq_nil_of_size_le (Nat.le_of_eq h.symm)]
    simp [stack, addStack, h]
  · simp [stack, addStack, Array.getElem?_push, h]

theorem setStack_stack (s : Store) (ref : Nat) : s.setStack ref (s.stack ref) = s := by
  obtain ⟨scopes, stacks', closures⟩ := s
  simp only [setStack, stack, mk.injEq, true_and, and_true]
  apply Array.ext_getElem?
  intro i
  rw [Array.getElem?_setIfInBounds]
  split
  · next h =>
    subst h
    split
    · next h => simp [Array.getElem?_eq_getElem h]
    · next h => rw [Array.getElem?_eq_none (Nat.le_of_not_lt h)]
  · rfl

theorem setStack_setStack (s : Store) (ref : Nat) (frames frames' : LoopStack) :
    (s.setStack ref frames).setStack ref frames' = s.setStack ref frames' := by
  simp [setStack]

end Store

end Stepwise
