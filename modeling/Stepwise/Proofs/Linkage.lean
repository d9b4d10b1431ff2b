import Mathlib.Data.List.Forall2
import Mathlib.Data.Option.Basic
import Mathlib.Logic.Relator
import Mathlib.Order.Basic
import Stepwise.Proofs.Execution
import Stepwise.Proofs.Store

/-! Stores that differ in nothing but the numbers of what is in them. A link says which scopes, loop
stacks and closures of one store stand for which of the other; what no link leads to may be anything
and is never looked at. -/

namespace Stepwise

/-- Which scopes, loop stacks and closures stand for each other. -/
structure Link where
  scope : ScopeId → ScopeId → Prop
  stack : Nat → Nat → Prop
  closure : Nat → Nat → Prop

namespace Link

instance : Preorder Link where
  le k k' := k.scope ≤ k'.scope ∧ k.stack ≤ k'.stack ∧ k.closure ≤ k'.closure
  le_refl _ := ⟨le_rfl, le_rfl, le_rfl⟩
  le_trans _ _ _ h h' := ⟨h.1.trans h'.1, h.2.1.trans h'.2.1, h.2.2.trans h'.2.2⟩

variable {k k' : Link}

theorem scope_le (h : k ≤ k') {i j : ScopeId} (hij : k.scope i j) : k'.scope i j := h.1 i j hij

theorem stack_le (h : k ≤ k') {i j : Nat} (hij : k.stack i j) : k'.stack i j := h.2.1 i j hij

theorem closure_le (h : k ≤ k') {i j : Nat} (hij : k.closure i j) : k'.closure i j := h.2.2 i j hij

/-- The relation, and one more pair. -/
def join (r : Nat → Nat → Prop) (i j : Nat) : Nat → Nat → Prop := fun a b => r a b ∨ a = i ∧ b = j

def withScope (k : Link) (i j : ScopeId) : Link := { k with scope := join k.scope i j }

def withStack (k : Link) (i j : Nat) : Link := { k with stack := join k.stack i j }

def withClosure (k : Link) (i j : Nat) : Link := { k with closure := join k.closure i j }

theorem le_withScope (k : Link) (i j : ScopeId) : k ≤ k.withScope i j :=
  ⟨fun _ _ h => .inl h, le_rfl, le_rfl⟩

theorem le_withStack (k : Link) (i j : Nat) : k ≤ k.withStack i j :=
  ⟨le_rfl, fun _ _ h => .inl h, le_rfl⟩

theorem le_withClosure (k : Link) (i j : Nat) : k ≤ k.withClosure i j :=
  ⟨le_rfl, le_rfl, fun _ _ h => .inl h⟩

/-- A pair of numbers beyond all that are linked keeps a relation one-to-one. -/
theorem join_biUnique {r : Nat → Nat → Prop} (h : Relator.BiUnique r) {i j : Nat}
    (hfresh : ∀ a b, r a b → a < i ∧ b < j) : Relator.BiUnique (join r i j) := by
  constructor
  · rintro a b c (ha | ⟨rfl, rfl⟩) (hb | ⟨rfl, hc⟩)
    · exact h.1 ha hb
    · exact absurd (hfresh a c ha).2 (by omega)
    · exact absurd (hfresh b _ hb).2 (by omega)
    · rfl
  · rintro a b c (hb | ⟨rfl, rfl⟩) (hc | ⟨ha, rfl⟩)
    · exact h.2 hb hc
    · exact absurd (hfresh a b hb).1 (by omega)
    · exact absurd (hfresh _ c hc).1 (by omega)
    · rfl

end Link

/-- Scalars are linked to themselves alone, functions when they are the same function in linked
scopes. -/
def Value.Linked (k : Link) : Value → Value → Prop
  | .function c, v => ∃ c', v = .function c' ∧ k.closure c.id c'.id ∧ c'.literal = c.literal ∧
    k.scope c.scope c'.scope
  | .loops i, v => ∃ j, v = .loops j ∧ k.stack i j
  | v, v' => v' = v

namespace Value

variable {k k' : Link} {v v' : Value}

theorem linked_self (h : v.isScalar) : v.Linked k v := by
  cases v with
  | function | loops => cases h
  | absent | null | boolean | integer | string | native => rfl

theorem Linked.cases (h : v.Linked k v') :
    (v' = v ∧ v.isScalar) ∨
    (∃ c c', v = .function c ∧ v' = .function c' ∧ k.closure c.id c'.id ∧ c'.literal = c.literal ∧
      k.scope c.scope c'.scope) ∨
    ∃ i j, v = .loops i ∧ v' = .loops j ∧ k.stack i j := by
  cases v with
  | function c =>
    obtain ⟨c', rfl, h⟩ := h
    exact .inr (.inl ⟨c, c', rfl, rfl, h⟩)
  | loops i =>
    obtain ⟨j, rfl, h⟩ := h
    exact .inr (.inr ⟨i, j, rfl, rfl, h⟩)
  | absent | null | boolean | integer | string | native => exact .inl ⟨h, rfl⟩

theorem Linked.mono (hle : k ≤ k') (h : v.Linked k v') : v.Linked k' v' := by
  obtain ⟨rfl, hv⟩ | ⟨c, c', rfl, rfl, hid, hliteral, hscope⟩ | ⟨i, j, rfl, rfl, hstack⟩ := h.cases
  · exact linked_self hv
  · exact ⟨c', rfl, Link.closure_le hle hid, hliteral, Link.scope_le hle hscope⟩
  · exact ⟨j, rfl, Link.stack_le hle hstack⟩

theorem Linked.orNull (h : v.Linked k v') : v.orNull.Linked k v'.orNull := by
  obtain ⟨rfl, hv⟩ | ⟨c, c', rfl, rfl, -⟩ | ⟨i, j, rfl, rfl, -⟩ := h.cases
  · cases v' with
    | absent => rfl
    | _ => exact linked_self hv
  · exact h
  · exact h

theorem Linked.shape_eq (h : v.Linked k v') : v'.shape = v.shape := by
  obtain ⟨rfl, -⟩ | ⟨c, c', rfl, rfl, -⟩ | ⟨i, j, rfl, rfl, -⟩ := h.cases <;> rfl

theorem Linked.isTruthy_eq (h : v.Linked k v') : v'.isTruthy = v.isTruthy := by
  obtain ⟨rfl, -⟩ | ⟨c, c', rfl, rfl, -⟩ | ⟨i, j, rfl, rfl, -⟩ := h.cases <;> rfl

end Value

abbrev ValuesLinked (k : Link) : List Value → List Value → Prop := List.Forall₂ (Value.Linked k)

theorem ValuesLinked.mono {k k' : Link} (hle : k ≤ k') {vs vs' : List Value}
    (h : ValuesLinked k vs vs') : ValuesLinked k' vs vs' :=
  h.imp fun _ _ => Value.Linked.mono hle

namespace Bindings

variable {α β : Type} {R : α → β → Prop} {a : Bindings α} {b : Bindings β}

/-- The same names in the same order, with related things bound to them. -/
def Rel (R : α → β → Prop) (a : Bindings α) (b : Bindings β) : Prop :=
  List.Forall₂ (fun x y => x.1 = y.1 ∧ R x.2 y.2) a.entries b.entries

theorem rel_empty : (empty : Bindings α).Rel R (empty : Bindings β) := .nil

theorem Rel.get? (h : a.Rel R b) (name : Name) : Option.Rel R (a.get? name) (b.get? name) := by
  change List.Forall₂ _ a.entries b.entries at h
  change Option.Rel R (a.entries.lookup name) (b.entries.lookup name)
  generalize a.entries = xs, b.entries = ys at h
  induction h with
  | nil => exact .none
  | @cons x y xs ys hxy _ ih =>
    obtain ⟨n, v⟩ := x
    obtain ⟨n', v'⟩ := y
    obtain ⟨rfl, hv⟩ := hxy
    simp only [List.lookup_cons]
    split
    · exact .some hv
    · exact ih

theorem Rel.insert (h : a.Rel R b) (name : Name) {v : α} {v' : β} (hv : R v v') :
    (a.insert name v).Rel R (b.insert name v') := by
  change List.Forall₂ _ a.entries b.entries at h
  change List.Forall₂ _ (insertEntry name v a.entries) (insertEntry name v' b.entries)
  generalize a.entries = xs, b.entries = ys at h
  induction h with
  | nil => exact .cons ⟨rfl, hv⟩ .nil
  | @cons x y xs ys hxy hrest ih =>
    obtain ⟨n, u⟩ := x
    obtain ⟨n', u'⟩ := y
    obtain ⟨rfl, hu⟩ := hxy
    simp only [insertEntry]
    split
    · exact .cons ⟨rfl, hv⟩ hrest
    · exact .cons ⟨rfl, hu⟩ ih

theorem Rel.erase (h : a.Rel R b) (name : Name) : (a.erase name).Rel R (b.erase name) := by
  change List.Forall₂ _ a.entries b.entries at h
  change List.Forall₂ _ (a.entries.filter _) (b.entries.filter _)
  generalize a.entries = xs, b.entries = ys at h
  induction h with
  | nil => exact .nil
  | @cons x y xs ys hxy _ ih =>
    rw [List.filter_cons, List.filter_cons, ← hxy.1]
    split
    · exact .cons hxy ih
    · exact ih

theorem rel_ofList {xs : List (Name × α)} {ys : List (Name × β)}
    (h : List.Forall₂ (fun x y => x.1 = y.1 ∧ R x.2 y.2) xs ys) : (ofList xs).Rel R (ofList ys) := by
  have hfold (a : Bindings α) (b : Bindings β) (hab : a.Rel R b) :
      (xs.foldl (fun b x => b.insert x.1 x.2) a).Rel R
        (ys.foldl (fun b y => b.insert y.1 y.2) b) := by
    induction h generalizing a b with
    | nil => exact hab
    | @cons x y xs ys hxy _ ih =>
      obtain ⟨n, v⟩ := x
      obtain ⟨n', v'⟩ := y
      obtain ⟨rfl, hv⟩ := hxy
      exact ih _ _ (hab.insert n hv)
  exact hfold empty empty rel_empty

theorem Rel.names_eq (h : a.Rel R b) : b.names = a.names := by
  have hnames : a.entries.map Prod.fst = b.entries.map Prod.fst := by
    refine List.forall₂_eq_eq_eq ▸ List.forall₂_map_left_iff.mpr (List.forall₂_map_right_iff.mpr ?_)
    exact List.Forall₂.imp (fun _ _ hxy => hxy.1) h
  rw [names, names, hnames]

end Bindings

/-- The same names in the same order, with linked values. -/
def EntriesLinked (k : Link) : List (Name × Value) → List (Name × Value) → Prop :=
  List.Forall₂ fun x y => x.1 = y.1 ∧ x.2.Linked k y.2

def Bindings.Linked (k : Link) (a b : Bindings Value) : Prop := EntriesLinked k a.entries b.entries

namespace Bindings

variable {k k' : Link} {a b : Bindings Value}

theorem Linked.mono (hle : k ≤ k') (h : a.Linked k b) : a.Linked k' b :=
  List.Forall₂.imp (fun _ _ h => ⟨h.1, h.2.mono hle⟩) h

theorem Linked.get? (h : a.Linked k b) (name : Name) :
    Option.Rel (Value.Linked k) (a.get? name) (b.get? name) :=
  Rel.get? h name

theorem Linked.insert (h : a.Linked k b) (name : Name) {v v' : Value} (hv : v.Linked k v') :
    (a.insert name v).Linked k (b.insert name v') :=
  Rel.insert h name hv

theorem Linked.erase (h : a.Linked k b) (name : Name) : (a.erase name).Linked k (b.erase name) :=
  Rel.erase h name

theorem linked_ofList {xs ys : List (Name × Value)} (h : EntriesLinked k xs ys) :
    (ofList xs).Linked k (ofList ys) :=
  rel_ofList h

end Bindings

structure Scope.Linked (k : Link) (a b : Scope) : Prop where
  bindings : a.bindings.Linked k b.bindings
  outer : List.Forall₂ k.scope a.outer b.outer

theorem Scope.Linked.mono {k k' : Link} (hle : k ≤ k') {a b : Scope} (h : a.Linked k b) :
    a.Linked k' b :=
  ⟨h.bindings.mono hle, h.outer.imp fun _ _ => Link.scope_le hle⟩

namespace Store

/-- What is linked is there on both sides, and the same on both sides. -/
structure Linked (k : Link) (s t : Store) : Prop where
  scopes : ∀ {i j}, k.scope i j →
    ∃ a b, s.scopes[i]? = some a ∧ t.scopes[j]? = some b ∧ a.Linked k b
  loops : ∀ {i j}, k.stack i j →
    i < s.loopStacks.size ∧ j < t.loopStacks.size ∧ t.stack j = s.stack i
  closures : ∀ {i j}, k.closure i j → i < s.closures ∧ j < t.closures
  scope_unique : Relator.BiUnique k.scope
  stack_unique : Relator.BiUnique k.stack
  closure_unique : Relator.BiUnique k.closure

namespace Linked

variable {k : Link} {s t : Store} {i j : ScopeId} {a b : Nat}

theorem scope_lt (h : s.Linked k t) (hij : k.scope i j) : i < s.scopes.size ∧ j < t.scopes.size := by
  obtain ⟨a, b, ha, hb, -⟩ := h.scopes hij
  exact ⟨(Array.getElem?_eq_some_iff.mp ha).1, (Array.getElem?_eq_some_iff.mp hb).1⟩

theorem scope_eq_iff (h : s.Linked k t) {i' j' : ScopeId} (hij : k.scope i j) (hij' : k.scope i' j') :
    i = i' ↔ j = j' :=
  Relator.rel_eq h.scope_unique hij hij'

theorem stack_eq_iff (h : s.Linked k t) {a' b' : Nat} (hab : k.stack a b) (hab' : k.stack a' b') :
    a = a' ↔ b = b' :=
  Relator.rel_eq h.stack_unique hab hab'

theorem chain (h : s.Linked k t) (hij : k.scope i j) :
    List.Forall₂ k.scope (s.chain i) (t.chain j) := by
  obtain ⟨a, b, ha, hb, hab⟩ := h.scopes hij
  simp only [Store.chain, ha, hb]
  exact .cons hij hab.outer

theorem bindings (h : s.Linked k t) (hij : k.scope i j) : (s.bindings i).Linked k (t.bindings j) := by
  obtain ⟨a, b, ha, hb, hab⟩ := h.scopes hij
  simp only [Store.bindings, ha, hb]
  exact hab.bindings

theorem lookup? (h : s.Linked k t) (hij : k.scope i j) (name : Name) :
    Option.Rel (Value.Linked k) (s.lookup? i name) (t.lookup? j name) :=
  (h.bindings hij).get? name

theorem get? (h : s.Linked k t) (hij : k.scope i j) (name : Name) :
    Option.Rel (Value.Linked k) (s.get? i name) (t.get? j name) := by
  have hchain := h.chain hij
  rw [Store.get?, Store.get?]
  generalize s.chain i = is at hchain
  generalize t.chain j = js at hchain
  induction hchain with
  | nil => exact .none
  | @cons i' j' is js hij' _ ih =>
    rw [List.findSome?_cons, List.findSome?_cons]
    have hfirst := h.lookup? hij' name
    generalize s.lookup? i' name = x at hfirst
    generalize t.lookup? j' name = y at hfirst
    cases hfirst with
    | none => exact ih
    | some hv => exact .some hv

/-- The loop stacks of linked scopes are linked, or neither has one. -/
theorem loops? (h : s.Linked k t) (hij : k.scope i j) :
    Option.Rel k.stack (s.loops? i) (t.loops? j) := by
  have hlookup := h.lookup? hij loopBinding
  rw [Store.loops?, Store.loops?]
  generalize s.lookup? i loopBinding = x at hlookup
  generalize t.lookup? j loopBinding = y at hlookup
  cases hlookup with
  | none => exact .none
  | @some v v' hv =>
    obtain ⟨rfl, hscalar⟩ | ⟨c, c', rfl, rfl, -⟩ | ⟨ref, ref', rfl, rfl, href⟩ := hv.cases
    · cases v' with
      | loops => cases hscalar
      | _ => exact .none
    · exact .none
    · exact .some href

theorem frames_eq (h : s.Linked k t) (hij : k.scope i j) : t.frames j = s.frames i := by
  have hloops := h.loops? hij
  rw [Store.frames, Store.frames]
  generalize s.loops? i = x at hloops
  generalize t.loops? j = y at hloops
  cases hloops with
  | none => rfl
  | some href => exact (h.loops href).2.2

theorem text_eq (h : s.Linked k t) {v v' : Value} (hv : v.Linked k v') : t.text v' = s.text v := by
  obtain ⟨rfl, hscalar⟩ | ⟨c, c', rfl, rfl, -, hliteral, -⟩ | ⟨ref, ref', rfl, rfl, href⟩ := hv.cases
  · cases v' with
    | loops => cases hscalar
    | boolean b => cases b <;> rfl
    | _ => rfl
  · simp only [Store.text, hliteral]
  · simp only [Store.text, (h.loops href).2.2]

/-- Linked scopes may change in the same way. -/
theorem modify (h : s.Linked k t) (hij : k.scope i j) {f g : Scope → Scope}
    (hfg : ∀ a b, Scope.Linked k a b → (f a).Linked k (g b)) :
    Linked k { s with scopes := s.scopes.modify i f } { t with scopes := t.scopes.modify j g } where
  scopes := by
    intro i' j' hij'
    obtain ⟨a, b, ha, hb, hab⟩ := h.scopes hij'
    simp only [Array.getElem?_modify, ha, hb]
    by_cases hi : i = i'
    · have hj := (h.scope_eq_iff hij hij').mp hi
      rw [if_pos hi, if_pos hj]
      exact ⟨_, _, rfl, rfl, hfg a b hab⟩
    · have hj : j ≠ j' := fun hj => hi ((h.scope_eq_iff hij hij').mpr hj)
      rw [if_neg hi, if_neg hj]
      exact ⟨a, b, rfl, rfl, hab⟩
  loops := h.loops
  closures := h.closures
  scope_unique := h.scope_unique
  stack_unique := h.stack_unique
  closure_unique := h.closure_unique

theorem set (h : s.Linked k t) (hij : k.scope i j) (name : Name) {v v' : Value} (hv : v.Linked k v') :
    (s.set i name v).Linked k (t.set j name v') :=
  h.modify hij fun _ _ hab => ⟨hab.bindings.insert name hv, hab.outer⟩

theorem delete (h : s.Linked k t) (hij : k.scope i j) (name : Name) :
    (s.delete i name).Linked k (t.delete j name) :=
  h.modify hij fun _ _ hab => ⟨hab.bindings.erase name, hab.outer⟩

theorem setStack (h : s.Linked k t) (hab : k.stack a b) (frames : LoopStack) :
    (s.setStack a frames).Linked k (t.setStack b frames) where
  scopes := h.scopes
  loops := by
    intro a' b' hab'
    obtain ⟨ha, hb, hstack⟩ := h.loops hab'
    refine ⟨by simpa [Store.setStack] using ha, by simpa [Store.setStack] using hb, ?_⟩
    by_cases he : a = a'
    · subst he
      obtain rfl := (h.stack_eq_iff hab hab').mp rfl
      rw [stack_setStack_self ha, stack_setStack_self hb]
    · have he' : b ≠ b' := fun hb => he ((h.stack_eq_iff hab hab').mpr hb)
      rw [stack_setStack_of_ne he, stack_setStack_of_ne he', hstack]
  closures := h.closures
  scope_unique := h.scope_unique
  stack_unique := h.stack_unique
  closure_unique := h.closure_unique

theorem addStack (h : s.Linked k t) (frames : LoopStack) :
    (s.addStack frames).Linked (k.withStack s.nextStack t.nextStack) (t.addStack frames) where
  scopes := by
    intro i j hij
    obtain ⟨a, b, ha, hb, hab⟩ := h.scopes hij
    exact ⟨a, b, ha, hb, hab.mono (k.le_withStack _ _)⟩
  loops := by
    rintro a b (hab | ⟨rfl, rfl⟩)
    · obtain ⟨ha, hb, hstack⟩ := h.loops hab
      refine ⟨by simp [Store.addStack]; omega, by simp [Store.addStack]; omega, ?_⟩
      simpa [Store.stack, Store.addStack, Array.getElem?_push, Nat.ne_of_lt ha, Nat.ne_of_lt hb]
        using hstack
    · simp [Store.addStack, Store.nextStack, Store.stack]
  closures := h.closures
  scope_unique := h.scope_unique
  stack_unique := Link.join_biUnique h.stack_unique fun a b hab =>
    ⟨(h.loops hab).1, (h.loops hab).2.1⟩
  closure_unique := h.closure_unique

theorem countClosure (h : s.Linked k t) :
    s.countClosure.Linked (k.withClosure s.closures t.closures) t.countClosure where
  scopes := by
    intro i j hij
    obtain ⟨a, b, ha, hb, hab⟩ := h.scopes hij
    exact ⟨a, b, ha, hb, hab.mono (k.le_withClosure _ _)⟩
  loops := h.loops
  closures := by
    rintro a b (hab | ⟨rfl, rfl⟩)
    · obtain ⟨ha, hb⟩ := h.closures hab
      exact ⟨Nat.lt_succ_of_lt ha, Nat.lt_succ_of_lt hb⟩
    · exact ⟨Nat.lt_succ_self _, Nat.lt_succ_self _⟩
  scope_unique := h.scope_unique
  stack_unique := h.stack_unique
  closure_unique := Link.join_biUnique h.closure_unique fun _ _ hab => h.closures hab

theorem extend (h : s.Linked k t) (hij : k.scope i j) {b b' : Bindings Value} (hb : b.Linked k b') :
    (s.extend i b).Linked (k.withScope s.nextScope t.nextScope) (t.extend j b') where
  scopes := by
    have hle := k.le_withScope s.nextScope t.nextScope
    rintro i' j' (hij' | ⟨rfl, rfl⟩)
    · obtain ⟨hi, hj⟩ := h.scope_lt hij'
      obtain ⟨a, a', ha, ha', haa⟩ := h.scopes hij'
      refine ⟨a, a', ?_, ?_, haa.mono hle⟩
      · rw [Store.extend, Array.getElem?_push, if_neg (Nat.ne_of_lt hi), ha]
      · rw [Store.extend, Array.getElem?_push, if_neg (Nat.ne_of_lt hj), ha']
    · refine ⟨⟨b, s.chain i⟩, ⟨b', t.chain j⟩, ?_, ?_, hb.mono hle, ?_⟩
      · simp [Store.extend, Store.nextScope]
      · simp [Store.extend, Store.nextScope]
      · exact (h.chain hij).imp fun _ _ => Link.scope_le hle
  loops := h.loops
  closures := h.closures
  scope_unique := Link.join_biUnique h.scope_unique fun _ _ => h.scope_lt
  stack_unique := h.stack_unique
  closure_unique := h.closure_unique

end Linked

end Store

/-- From `t` to `t'` the link has only come to lead to what was made in the meantime. -/
structure Link.Onward (k : Link) (t : Store) (k' : Link) (t' : Store) : Prop where
  le : k ≤ k'
  size : t.scopes.size ≤ t'.scopes.size
  count : t.loopStacks.size ≤ t'.loopStacks.size
  scope : ∀ {i j}, k'.scope i j → k.scope i j ∨ t.nextScope ≤ j
  stack : ∀ {i j}, k'.stack i j → k.stack i j ∨ t.nextStack ≤ j

namespace Link.Onward

variable {k k' k'' : Link} {t t' t'' : Store}

theorem refl (k : Link) (t : Store) : k.Onward t k t :=
  ⟨le_rfl, Nat.le_refl _, Nat.le_refl _, .inl, .inl⟩

theorem trans (h : k.Onward t k' t') (h' : k'.Onward t' k'' t'') : k.Onward t k'' t'' where
  le := h.le.trans h'.le
  size := Nat.le_trans h.size h'.size
  count := Nat.le_trans h.count h'.count
  scope hij := by
    obtain hij | hlate := h'.scope hij
    · exact h.scope hij
    · exact .inr (Nat.le_trans h.size hlate)
  stack hij := by
    obtain hij | hlate := h'.stack hij
    · exact h.stack hij
    · exact .inr (Nat.le_trans h.count hlate)

/-- Nothing is made where a store is only written. -/
theorem written (h : k.Onward t k' t') (hsize : t''.scopes.size = t'.scopes.size)
    (hcount : t''.loopStacks.size = t'.loopStacks.size) : k.Onward t k' t'' :=
  ⟨h.le, hsize ▸ h.size, hcount ▸ h.count, h.scope, h.stack⟩

theorem set (h : k.Onward t k' t') (id : ScopeId) (name : Name) (v : Value) :
    k.Onward t k' (t'.set id name v) :=
  h.written (by simp [Store.set]) rfl

theorem delete (h : k.Onward t k' t') (id : ScopeId) (name : Name) :
    k.Onward t k' (t'.delete id name) :=
  h.written (by simp [Store.delete]) rfl

theorem setStack (h : k.Onward t k' t') (ref : Nat) (frames : LoopStack) :
    k.Onward t k' (t'.setStack ref frames) :=
  h.written rfl (by simp [Store.setStack])

theorem addStack (k : Link) (t : Store) (a : Nat) (frames : LoopStack) :
    k.Onward t (k.withStack a t.nextStack) (t.addStack frames) where
  le := k.le_withStack a t.nextStack
  size := Nat.le_refl _
  count := by simp [Store.addStack]
  scope := .inl
  stack hij := hij.imp_right fun h => Nat.le_of_eq h.2.symm

theorem countClosure (k : Link) (t : Store) (a : Nat) :
    k.Onward t (k.withClosure a t.closures) t.countClosure :=
  ⟨k.le_withClosure a t.closures, Nat.le_refl _, Nat.le_refl _, .inl, .inl⟩

theorem extend (k : Link) (t : Store) (i parent : ScopeId) (b : Bindings Value) :
    k.Onward t (k.withScope i t.nextScope) (t.extend parent b) where
  le := k.le_withScope i t.nextScope
  size := by simp [Store.extend]
  count := Nat.le_refl _
  scope hij := hij.imp_right fun h => Nat.le_of_eq h.2.symm
  stack := .inl

end Link.Onward

/-- All that a value refers to is there. -/
def Value.Within (s : Store) : Value → Prop
  | .function c => c.id < s.closures ∧ c.scope < s.scopes.size
  | .loops ref => ref < s.loopStacks.size
  | _ => True

theorem Value.within_of_isScalar {v : Value} (h : v.isScalar) (s : Store) : v.Within s := by
  cases v with
  | function | loops => cases h
  | absent | null | boolean | integer | string | native => trivial

/-- All that a store refers to is there. -/
structure Store.Closed (s : Store) : Prop where
  values : ∀ scope ∈ s.scopes, ∀ entry ∈ scope.bindings.entries, entry.2.Within s
  outer : ∀ scope ∈ s.scopes, ∀ id ∈ scope.outer, id < s.scopes.size

theorem closed_topLevel : Store.empty.addTopLevel.Closed := by
  have hscope (scope : Scope) (h : scope ∈ Store.empty.addTopLevel.scopes) :
      (scope.bindings.entries.all fun entry => entry.2.isScalar) ∧ scope.outer = [] := by
    obtain rfl : scope = _ := by simpa [Store.addTopLevel, Store.addRoot, Store.empty] using h
    exact ⟨by decide, rfl⟩
  constructor
  · intro scope h entry hentry
    exact Value.within_of_isScalar (List.all_eq_true.mp (hscope scope h).1 entry hentry) _
  · intro scope h id hid
    rw [(hscope scope h).2] at hid
    cases hid

/-- Everything there is, linked to itself. -/
def Link.self (s : Store) : Link where
  scope i j := i = j ∧ i < s.scopes.size
  stack i j := i = j ∧ i < s.loopStacks.size
  closure i j := i = j ∧ i < s.closures

theorem Value.Within.linked {s : Store} {v : Value} (h : v.Within s) : v.Linked (.self s) v := by
  cases v with
  | function c => exact ⟨c, rfl, ⟨rfl, h.1⟩, rfl, ⟨rfl, h.2⟩⟩
  | loops ref => exact ⟨ref, rfl, rfl, h⟩
  | absent | null | boolean | integer | string | native => rfl

theorem entriesLinked_self {s : Store} {entries : List (Name × Value)}
    (h : ∀ entry ∈ entries, entry.2.Within s) : EntriesLinked (.self s) entries entries :=
  List.forall₂_same.mpr fun entry hentry => ⟨rfl, (h entry hentry).linked⟩

theorem Store.Closed.linked {s : Store} (h : s.Closed) : s.Linked (.self s) s where
  scopes := by
    rintro i j ⟨rfl, hi⟩
    have hmem : s.scopes[i] ∈ s.scopes := Array.getElem_mem hi
    refine ⟨s.scopes[i], s.scopes[i], Array.getElem?_eq_getElem hi, Array.getElem?_eq_getElem hi, ?_, ?_⟩
    · exact entriesLinked_self (h.values _ hmem)
    · exact List.forall₂_same.mpr fun id hid => ⟨rfl, h.outer _ hmem id hid⟩
  loops := by
    rintro i j ⟨rfl, hi⟩
    exact ⟨hi, hi, rfl⟩
  closures := by
    rintro i j ⟨rfl, hi⟩
    exact ⟨hi, hi⟩
  scope_unique := ⟨fun _ _ _ ha hb => ha.1.trans hb.1.symm, fun _ _ _ ha hb => ha.1.symm.trans hb.1⟩
  stack_unique := ⟨fun _ _ _ ha hb => ha.1.trans hb.1.symm, fun _ _ _ ha hb => ha.1.symm.trans hb.1⟩
  closure_unique := ⟨fun _ _ _ ha hb => ha.1.trans hb.1.symm, fun _ _ _ ha hb => ha.1.symm.trans hb.1⟩

end Stepwise
