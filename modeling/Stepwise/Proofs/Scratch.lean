import Stepwise.Check
import Stepwise.Proofs.Execution
import Stepwise.Proofs.Lexical

/-! The scratch scopes of a check. Visiting a part of a body binds what the part assigns in the scope of
the visit, makes scopes of its own, and puts off the functions written in the part; it leaves everything
else as it was. -/

namespace Stepwise

theorem Bindings.get?_isSome_iff {α : Type} (b : Bindings α) (x : Name) :
    (b.get? x).isSome ↔ x ∈ b.names := by
  rw [names, List.mem_mergeSort, get?]
  simp

theorem Bindings.get?_ofList_const {α : Type} (names : List Name) (a : α) (x : Name) :
    (Bindings.ofList (names.map fun n => (n, a))).get? x = if x ∈ names then some a else none := by
  have hfold (b : Bindings α) : ((names.map fun n => (n, a)).foldl
      (fun b entry => b.insert entry.1 entry.2) b).get? x =
        if x ∈ names then some a else b.get? x := by
    induction names generalizing b with
    | nil => simp
    | cons n names ih =>
      rw [List.map_cons, List.foldl_cons, ih, get?_insert]
      by_cases hx : x ∈ names
      · simp [hx]
      · simp [hx, List.mem_cons]
  exact hfold .empty

namespace CheckState

variable {c c' c'' : CheckState} {S i : ScratchId} {x y : Name} {f : Finding}

theorem get?_of_scopes (h : c'.scopes = c.scopes) (ground : Ground) (S : ScratchId) :
    c'.get? ground S = c.get? ground S := by
  obtain ⟨scopes, waiting, visited, written⟩ := c
  obtain ⟨scopes', waiting', visited', written'⟩ := c'
  obtain rfl : scopes' = scopes := h
  rfl

def find (c : CheckState) (chain : List ScratchId) (x : Name) : Option Finding :=
  chain.findSome? fun i => (c.bindings i).get? x

theorem get?_eq (c : CheckState) (ground : Ground) (S : ScratchId) (x : Name) :
    c.get? ground S x =
      (c.find (c.chain S) x).or ((ground.store.get? ground.scope x).map .known) := by
  rw [get?, ← find]
  cases c.find (c.chain S) x <;> rfl

theorem find_append (c : CheckState) (xs ys : List ScratchId) (x : Name) :
    c.find (xs ++ ys) x = (c.find xs x).or (c.find ys x) := by
  rw [find, List.findSome?_append, ← find, ← find]

theorem find_cons (c : CheckState) (i : ScratchId) (chain : List ScratchId) (x : Name) :
    c.find (i :: chain) x = ((c.bindings i).get? x).or (c.find chain x) := by
  rw [find, List.findSome?_cons, ← find]
  cases (c.bindings i).get? x <;> rfl

theorem find_congr {chain : List ScratchId}
    (h : ∀ i ∈ chain, (c'.bindings i).get? x = (c.bindings i).get? x) :
    c'.find chain x = c.find chain x := by
  induction chain with
  | nil => rfl
  | cons i chain ih =>
    simp only [find, List.findSome?_cons, h i List.mem_cons_self]
    cases (c.bindings i).get? x with
    | some f => rfl
    | none => exact ih fun j hj => h j (List.mem_cons_of_mem i hj)

theorem bindings_congr (h : c'.scopes[i]? = c.scopes[i]?) : c'.bindings i = c.bindings i := by
  rw [bindings, bindings, h]

theorem chain_eq_cons (h : S < c.scopes.size) : ∃ outer, c.chain S = S :: outer := by
  simp [chain, h]

@[simp] theorem size_set (c : CheckState) (S : ScratchId) (x : Name) (f : Finding) :
    (c.set S x f).scopes.size = c.scopes.size := by
  simp [set]

theorem getElem?_set_of_ne (h : i ≠ S) (c : CheckState) (x : Name) (f : Finding) :
    (c.set S x f).scopes[i]? = c.scopes[i]? := by
  simp [set, Array.getElem?_modify, Ne.symm h]

theorem chain_set (c : CheckState) (S : ScratchId) (x : Name) (f : Finding) (i : ScratchId) :
    (c.set S x f).chain i = c.chain i := by
  by_cases h : i = S
  · subst h
    simp only [chain, set, Array.getElem?_modify, if_true]
    cases c.scopes[i]? <;> rfl
  · simp only [chain, getElem?_set_of_ne h]

theorem get?_set (hS : S < c.scopes.size) (x y : Name) (f : Finding) :
    ((c.set S x f).bindings S).get? y = if y = x then some f else (c.bindings S).get? y := by
  simp [bindings, set, Array.getElem?_modify, Array.getElem?_eq_getElem hS, Bindings.get?_insert]

theorem find_set (hS : S < c.scopes.size) (y : Name) (f : Finding) (x : Name) :
    (c.set S y f).find ((c.set S y f).chain S) x = if x = y then some f else c.find (c.chain S) x := by
  obtain ⟨outer, houter⟩ := chain_eq_cons hS
  rw [chain_set]
  by_cases hx : x = y
  · rw [houter, find_cons, get?_set hS, if_pos hx, if_pos hx]
    rfl
  · rw [if_neg hx]
    refine find_congr fun i _ => ?_
    by_cases hi : i = S
    · rw [hi, get?_set hS, if_neg hx]
    · rw [bindings_congr (getElem?_set_of_ne hi c y f)]

theorem get?_set_of_ne (hne : y ≠ x) (hS : S < c.scopes.size) (ground : Ground) (f : Finding) :
    (c.set S x f).get? ground S y = c.get? ground S y := by
  rw [get?_eq, get?_eq, find_set hS, if_neg hne]

@[simp] theorem size_forgetAll (c : CheckState) (S : ScratchId) (names : List Name) :
    (c.forgetAll S names).scopes.size = c.scopes.size := by
  induction names generalizing c with
  | nil => rfl
  | cons x names ih => exact (ih (c.set S x .unknown)).trans (size_set c S x .unknown)

theorem getElem?_forgetAll_of_ne (h : i ≠ S) (c : CheckState) (names : List Name) :
    (c.forgetAll S names).scopes[i]? = c.scopes[i]? := by
  induction names generalizing c with
  | nil => rfl
  | cons x names ih => exact (ih (c.set S x .unknown)).trans (getElem?_set_of_ne h c x .unknown)

theorem chain_forgetAll (c : CheckState) (S : ScratchId) (names : List Name) (i : ScratchId) :
    (c.forgetAll S names).chain i = c.chain i := by
  induction names generalizing c with
  | nil => rfl
  | cons x names ih => exact (ih (c.set S x .unknown)).trans (chain_set c S x .unknown i)

theorem waiting_forgetAll (c : CheckState) (S : ScratchId) (names : List Name) :
    (c.forgetAll S names).waiting = c.waiting := by
  induction names generalizing c with
  | nil => rfl
  | cons x names ih => exact ih (c.set S x .unknown)

theorem visited_forgetAll (c : CheckState) (S : ScratchId) (names : List Name) :
    (c.forgetAll S names).visited = c.visited := by
  induction names generalizing c with
  | nil => rfl
  | cons x names ih => exact ih (c.set S x .unknown)

theorem get?_forgetAll (hS : S < c.scopes.size) (names : List Name) (y : Name) :
    ((c.forgetAll S names).bindings S).get? y =
      if y ∈ names then some .unknown else (c.bindings S).get? y := by
  induction names generalizing c with
  | nil => simp [forgetAll]
  | cons x names ih =>
    have hrest := ih (c := c.set S x .unknown) (by simpa using hS)
    rw [get?_set hS] at hrest
    refine hrest.trans ?_
    by_cases hy : y ∈ names
    · simp [hy]
    · by_cases hx : y = x
      · simp [hx]
      · simp [hy, hx]

theorem getElem?_extend_of_lt (h : i < c.scopes.size) (outer : List ScratchId)
    (b : Bindings Finding) : (c.extend outer b).scopes[i]? = c.scopes[i]? := by
  simp [extend, Array.getElem?_push, Nat.ne_of_lt h]

@[simp] theorem size_extend (c : CheckState) (outer : List ScratchId) (b : Bindings Finding) :
    (c.extend outer b).scopes.size = c.scopes.size + 1 := by
  simp [extend]

theorem chain_extend_of_lt (h : i < c.scopes.size) (outer : List ScratchId)
    (b : Bindings Finding) : (c.extend outer b).chain i = c.chain i := by
  rw [chain, getElem?_extend_of_lt h, chain]

theorem chain_extend_new (c : CheckState) (outer : List ScratchId) (b : Bindings Finding) :
    (c.extend outer b).chain c.scopes.size = c.scopes.size :: outer := by
  simp [chain, extend]

theorem bindings_extend_new (c : CheckState) (outer : List ScratchId) (b : Bindings Finding) :
    (c.extend outer b).bindings c.scopes.size = b := by
  simp [bindings, extend]

/-- A scratch scope and those around it are there. -/
def Rooted (c : CheckState) (S : ScratchId) : Prop :=
  S < c.scopes.size ∧ ∀ i ∈ c.chain S, i < c.scopes.size

theorem Rooted.extend (h : c.Rooted S) (b : Bindings Finding) :
    (c.extend (c.chain S) b).Rooted c.scopes.size := by
  rw [Rooted, chain_extend_new, size_extend]
  refine ⟨Nat.lt_succ_self _, fun i hi => ?_⟩
  obtain rfl | hi := List.mem_cons.mp hi
  · exact Nat.lt_succ_self _
  · exact Nat.lt_succ_of_lt (h.2 i hi)

theorem find_extend_new (hS : c.Rooted S) (b : Bindings Finding) (x : Name) :
    (c.extend (c.chain S) b).find ((c.extend (c.chain S) b).chain c.scopes.size) x =
      (b.get? x).or (c.find (c.chain S) x) := by
  rw [chain_extend_new, find_cons, bindings_extend_new]
  congr 1
  exact find_congr fun i hi => by rw [bindings_congr (getElem?_extend_of_lt (hS.2 i hi) _ _)]

theorem Rooted.extended (h : c.Rooted i) (outer : List ScratchId) (b : Bindings Finding) :
    (c.extend outer b).Rooted i := by
  rw [Rooted, size_extend, chain_extend_of_lt h.1]
  exact ⟨Nat.lt_succ_of_lt h.1, fun j hj => Nat.lt_succ_of_lt (h.2 j hj)⟩

/-- What a visit of a part of a body does, in the scope of the visit. -/
structure Visited (S : ScratchId) (t : Task) (c c' : CheckState) : Prop where
  size : c.scopes.size ≤ c'.scopes.size
  others : ∀ i, i < c.scopes.size → i ≠ S → c'.scopes[i]? = c.scopes[i]?
  chain : ∀ i, i < c.scopes.size → c'.chain i = c.chain i
  kept : ∀ x, x ∉ t.assigned → (c'.bindings S).get? x = (c.bindings S).get? x
  bound : ∀ x, x ∈ t.assigned → ((c'.bindings S).get? x).isSome
  waiting : ∃ new, c'.waiting = c.waiting ++ new ∧ ∀ w ∈ new,
    (∀ around, (w.literal, around) ∈ t.functions around) ∧ c'.Rooted w.scope ∧
      c.chain S <:+ c'.chain w.scope

variable {t u z : Task}

theorem Visited.rooted (h : Visited S t c c') (hc : c.Rooted i) : c'.Rooted i := by
  refine ⟨Nat.lt_of_lt_of_le hc.1 h.size, fun j hj => ?_⟩
  rw [h.chain i hc.1] at hj
  exact Nat.lt_of_lt_of_le (hc.2 j hj) h.size

theorem Visited.bindings_of_ne (h : Visited S t c c') (hi : i < c.scopes.size) (hne : i ≠ S) :
    c'.bindings i = c.bindings i :=
  bindings_congr (h.others i hi hne)

theorem Visited.find_kept (h : Visited S t c c') (hc : c.Rooted S) (hx : x ∉ t.assigned) :
    c'.find (c'.chain S) x = c.find (c.chain S) x := by
  rw [h.chain S hc.1]
  refine find_congr fun i hi => ?_
  by_cases heq : i = S
  · rw [heq, h.kept x hx]
  · rw [h.bindings_of_ne (hc.2 i hi) heq]

theorem Visited.get?_kept (h : Visited S t c c') (hc : c.Rooted S) (ground : Ground)
    (hx : x ∉ t.assigned) : c'.get? ground S x = c.get? ground S x := by
  rw [get?_eq, get?_eq, h.find_kept hc hx]

theorem get?_eq_of_bound (hS : S < c.scopes.size) (ground : Ground)
    (hf : (c.bindings S).get? x = some f) : c.get? ground S x = some f := by
  obtain ⟨outer, houter⟩ := chain_eq_cons hS
  rw [get?_eq, houter, find, List.findSome?_cons, hf]
  rfl

theorem Visited.trans (h : Visited S t c c') (h' : Visited S u c' c'') (hS : S < c.scopes.size)
    (ht : t.PartOf z) (hu : u.PartOf z) (hz : z.assigned ⊆ t.assigned ++ u.assigned) :
    Visited S z c c'' where
  size := Nat.le_trans h.size h'.size
  others i hi hne := (h'.others i (Nat.lt_of_lt_of_le hi h.size) hne).trans (h.others i hi hne)
  chain i hi := (h'.chain i (Nat.lt_of_lt_of_le hi h.size)).trans (h.chain i hi)
  kept x hx := (h'.kept x fun hmem => hx (hu.assigned hmem)).trans
    (h.kept x fun hmem => hx (ht.assigned hmem))
  bound x hx := by
    by_cases hmem : x ∈ u.assigned
    · exact h'.bound x hmem
    · rw [h'.kept x hmem]
      exact h.bound x ((List.mem_append.mp (hz hx)).resolve_right hmem)
  waiting := by
    obtain ⟨new, hnew, hws⟩ := h.waiting
    obtain ⟨new', hnew', hws'⟩ := h'.waiting
    refine ⟨new ++ new', by rw [hnew', hnew, Array.append_assoc], fun w hw => ?_⟩
    obtain hw | hw := Array.mem_append.mp hw
    · obtain ⟨hwritten, hrooted, hsuffix⟩ := hws w hw
      refine ⟨fun around => ht.functions around (hwritten around), h'.rooted hrooted, ?_⟩
      rwa [h'.chain w.scope hrooted.1]
    · obtain ⟨hwritten, hrooted, hsuffix⟩ := hws' w hw
      refine ⟨fun around => hu.functions around (hwritten around), hrooted, ?_⟩
      rwa [h.chain S hS] at hsuffix

theorem Visited.part (h : Visited S t c c') (ht : t.PartOf z) (hz : z.assigned ⊆ t.assigned) :
    Visited S z c c' where
  size := h.size
  others := h.others
  chain := h.chain
  kept x hx := h.kept x fun hmem => hx (ht.assigned hmem)
  bound x hx := h.bound x (hz hx)
  waiting := by
    obtain ⟨new, hnew, hws⟩ := h.waiting
    exact ⟨new, hnew, fun w hw =>
      ⟨fun around => ht.functions around ((hws w hw).1 around), (hws w hw).2⟩⟩

theorem Visited.of_written {written : Array Bytes} (h : Visited S t c c') :
    Visited S t c { c' with written } :=
  ⟨h.size, h.others, h.chain, h.kept, h.bound, h.waiting⟩

theorem Visited.of_visit {visited : Array Stmt} (h : Visited S t { c with visited := visited } c') :
    Visited S t c c' :=
  ⟨h.size, h.others, h.chain, h.kept, h.bound, h.waiting⟩

theorem visited_refl (S : ScratchId) (c : CheckState) (ht : t.assigned = []) : Visited S t c c where
  size := Nat.le_refl _
  others _ _ _ := rfl
  chain _ _ := rfl
  kept _ _ := rfl
  bound x hx := by
    rw [ht] at hx
    cases hx
  waiting := ⟨#[], by simp, fun w hw => (Array.not_mem_empty w hw).elim⟩

theorem visited_wait {l : Literal} (hS : c.Rooted S) (ht : t.assigned = [])
    (hl : ∀ around, (l, around) ∈ t.functions around) :
    Visited S t c { c with waiting := c.waiting.push ⟨l, S⟩ } where
  size := Nat.le_refl _
  others _ _ _ := rfl
  chain _ _ := rfl
  kept _ _ := rfl
  bound x hx := by
    rw [ht] at hx
    cases hx
  waiting := by
    refine ⟨#[⟨l, S⟩], rfl, fun w hw => ?_⟩
    obtain rfl : w = ⟨l, S⟩ := by simpa using hw
    exact ⟨hl, hS, List.suffix_refl _⟩

theorem Visited.assign {e : Expr} (h : Visited S (.expr e) c c') (hS : S < c.scopes.size) (span : Span)
    (name : Symbol) (f : Finding) :
    Visited S (.stmt (.set span (some name) e)) c (c'.set S name.name f) where
  size := by simpa using h.size
  others i hi hne := (getElem?_set_of_ne hne c' _ _).trans (h.others i hi hne)
  chain i hi := (chain_set c' S _ _ i).trans (h.chain i hi)
  kept x hx := by
    have hne : x ≠ name.name := by simpa [Task.assigned, Stmt.assigned] using hx
    rw [get?_set (Nat.lt_of_lt_of_le hS h.size), if_neg hne]
    exact h.kept x List.not_mem_nil
  bound x hx := by
    have heq : x = name.name := by simpa [Task.assigned, Stmt.assigned] using hx
    rw [get?_set (Nat.lt_of_lt_of_le hS h.size), if_pos heq]
    rfl
  waiting := by
    obtain ⟨new, hnew, hws⟩ := h.waiting
    refine ⟨new, hnew, fun w hw => ?_⟩
    obtain ⟨hwritten, hrooted, hsuffix⟩ := hws w hw
    refine ⟨fun around => Task.value_partOf.functions around (hwritten around), ?_, ?_⟩
    · rwa [Rooted, size_set, chain_set]
    · rwa [chain_set]

/-- The state after a body that has been visited in a scope of its own inside another. -/
def leave (c : CheckState) (S inner : ScratchId) : CheckState :=
  c.forgetAll S (c.bindings inner).names

theorem branch_eq (S : ScratchId) (body : ScratchId → Checking Finding) (c : CheckState) :
    Checking.branch S body c = (do
      let _ ← body c.scopes.size
      modify fun c' : CheckState => c'.leave S c.scopes.size) (c.extend (c.chain S) .empty) :=
  rfl

theorem Visited.leave {b : Block} (hS : S < c.scopes.size)
    (h : Visited c.scopes.size (.block b) (c.extend (c.chain S) .empty) c') :
    Visited S (.block b) c (c'.leave S c.scopes.size) ∧
      ∀ x ∈ b.assigned, ((c'.leave S c.scopes.size).bindings S).get? x = some .unknown := by
  have hne : S ≠ c.scopes.size := Nat.ne_of_lt hS
  have hlt {i : ScratchId} (hi : i < c.scopes.size) :
      i < (c.extend (c.chain S) .empty).scopes.size := by
    rw [size_extend]
    exact Nat.lt_succ_of_lt hi
  have hnames (x : Name) : x ∈ (c'.bindings c.scopes.size).names ↔ x ∈ b.assigned := by
    rw [← Bindings.get?_isSome_iff]
    refine ⟨fun hsome => ?_, h.bound x⟩
    by_contra hx
    rw [h.kept x hx, bindings_extend_new] at hsome
    cases hsome
  have hold {i : ScratchId} (hi : i < c.scopes.size) : c'.scopes[i]? = c.scopes[i]? :=
    (h.others i (hlt hi) (Nat.ne_of_lt hi)).trans (getElem?_extend_of_lt hi _ _)
  have hget (x : Name) : ((c'.leave S c.scopes.size).bindings S).get? x =
      if x ∈ b.assigned then some .unknown else (c.bindings S).get? x := by
    rw [CheckState.leave, get?_forgetAll (Nat.lt_of_lt_of_le (hlt hS) h.size), bindings_congr (hold hS)]
    simp only [hnames]
  constructor
  · constructor
    · rw [CheckState.leave, size_forgetAll]
      exact Nat.le_trans (by simp) h.size
    · exact fun i hi hi' => (getElem?_forgetAll_of_ne hi' _ _).trans (hold hi)
    · intro i hi
      rw [CheckState.leave, chain_forgetAll, h.chain i (hlt hi), chain_extend_of_lt hi]
    · exact fun x hx => (hget x).trans (if_neg hx)
    · intro x hx
      rw [hget x, if_pos (show x ∈ b.assigned from hx)]
      rfl
    · obtain ⟨new, hnew, hws⟩ := h.waiting
      refine ⟨new, (waiting_forgetAll _ _ _).trans hnew, fun w hw => ?_⟩
      obtain ⟨hwritten, hrooted, hsuffix⟩ := hws w hw
      rw [chain_extend_new] at hsuffix
      refine ⟨hwritten, ?_, ?_⟩
      · rwa [CheckState.leave, Rooted, size_forgetAll, chain_forgetAll]
      · rw [CheckState.leave, chain_forgetAll]
        exact (List.suffix_cons _ _).trans hsuffix
  · exact fun x hx => (hget x).trans (if_pos hx)

theorem chain_forget (c : CheckState) (i : ScratchId) : c.forget.chain i = c.chain i := by
  simp only [chain, forget, Array.getElem?_map]
  cases c.scopes[i]? <;> rfl

theorem get?_forget (c : CheckState) (i : ScratchId) (x : Name) : (c.forget.bindings i).get? x =
    ((c.bindings i).get? x).map Finding.forgotten := by
  simp only [bindings, forget, Array.getElem?_map]
  cases c.scopes[i]? with
  | none => rfl
  | some scratch => exact Bindings.get?_map _ scratch.bindings x

theorem Rooted.forget (h : c.Rooted S) : c.forget.Rooted S := by
  rw [Rooted, chain_forget, CheckState.forget, Array.size_map]
  exact h

/-- A scratch scope or one around it binds the name. -/
def Binds (c : CheckState) (S : ScratchId) (x : Name) : Prop :=
  ∃ i ∈ c.chain S, ((c.bindings i).get? x).isSome

theorem get?_of_not_binds (h : ¬ c.Binds S x) (ground : Ground) :
    c.get? ground S x = (ground.store.get? ground.scope x).map .known := by
  have hnone : c.find (c.chain S) x = none := by
    rw [find, List.findSome?_eq_none_iff]
    exact fun i hi => Option.not_isSome_iff_eq_none.mp fun hsome => h ⟨i, hi, hsome⟩
  rw [get?_eq, hnone]
  rfl

theorem Binds.get? (h : c.Binds S x) (ground : Ground) :
    ∃ i f, (c.bindings i).get? x = some f ∧ c.get? ground S x = some f := by
  obtain ⟨i, hi, hsome⟩ := h
  have hfound : (c.find (c.chain S) x).isSome := List.findSome?_isSome_iff.mpr ⟨i, hi, hsome⟩
  obtain ⟨f, hf⟩ := Option.isSome_iff_exists.mp hfound
  obtain ⟨j, -, hj⟩ := List.exists_of_findSome?_eq_some hf
  refine ⟨j, f, hj, ?_⟩
  rw [get?_eq, hf]
  rfl

theorem Binds.forget (h : c.Binds S x) : c.forget.Binds S x := by
  obtain ⟨i, hi, hsome⟩ := h
  exact ⟨i, by rwa [chain_forget], by rwa [get?_forget, Option.isSome_map]⟩

theorem Binds.extend (h : c.Binds i x) (hc : c.Rooted i) (outer : List ScratchId)
    (b : Bindings Finding) : (c.extend outer b).Binds i x := by
  obtain ⟨j, hj, hsome⟩ := h
  refine ⟨j, by rwa [chain_extend_of_lt hc.1], ?_⟩
  rwa [bindings_congr (getElem?_extend_of_lt (hc.2 j hj) outer b)]

theorem binds_extend_new (hc : c.Rooted S) {b : Bindings Finding} (h : (b.get? x).isSome ∨ c.Binds S x) :
    (c.extend (c.chain S) b).Binds c.scopes.size x := by
  rw [Binds, chain_extend_new]
  obtain hb | ⟨i, hi, hsome⟩ := h
  · exact ⟨c.scopes.size, List.mem_cons_self, by rwa [bindings_extend_new]⟩
  · refine ⟨i, List.mem_cons_of_mem _ hi, ?_⟩
    rwa [bindings_congr (getElem?_extend_of_lt (hc.2 i hi) _ b)]

theorem Binds.visited (h : c.Binds i x) (hc : c.Rooted i) (hv : Visited S t c c') : c'.Binds i x := by
  obtain ⟨j, hj, hsome⟩ := h
  refine ⟨j, by rwa [hv.chain i hc.1], ?_⟩
  by_cases heq : j = S
  · subst heq
    by_cases hx : x ∈ t.assigned
    · exact hv.bound x hx
    · rwa [hv.kept x hx]
  · rwa [hv.bindings_of_ne (hc.2 j hj) heq]

theorem Binds.inside (h : c.Binds S x) (hchain : c.chain S <:+ c.chain i) : c.Binds i x := by
  obtain ⟨j, hj, hsome⟩ := h
  exact ⟨j, hchain.subset hj, hsome⟩

theorem Visited.binds (h : Visited S t c c') (hc : c.Rooted S) (hx : x ∈ t.assigned) : c'.Binds S x := by
  obtain ⟨outer, houter⟩ := chain_eq_cons (h.rooted hc).1
  exact ⟨S, by simp [houter], h.bound x hx⟩

end CheckState

end Stepwise
