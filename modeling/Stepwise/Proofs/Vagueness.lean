import Stepwise.Proofs.Inspection
import Stepwise.Proofs.Verdicts

/-! Checks that know less. What passes a check passes another one that knows less of the names in it: where
the first knows a value, the other knows it as well or knows nothing, and a name that only the other has
stands for nothing known. So the other meets no failure that the first does not meet. -/

namespace Stepwise

open Checking

/-- Closures are as good as each other if they are of one function in one scope. -/
def Link.ofFunctions : Link := ⟨(· = ·), (· = ·), fun _ _ => True⟩

theorem Value.linked_ofFunctions (v : Value) : v.Linked .ofFunctions v := by
  cases v with
  | function c => exact ⟨c, rfl, trivial, rfl, rfl⟩
  | loops ref => exact ⟨ref, rfl, rfl⟩
  | absent | null | boolean | integer | string | native => rfl

namespace Finding

/-- The second finding is the first one, or nothing is known any more. -/
inductive Fades : Finding → Finding → Prop
  | lost (f : Finding) : Fades f .unknown
  | known {v v' : Value} : v.Linked .ofFunctions v' → Fades (.known v) (.known v')

variable {f f' : Finding}

theorem Fades.refl (f : Finding) : f.Fades f := by
  cases f with
  | known v => exact .known v.linked_ofFunctions
  | unknown => exact .lost _

theorem Fades.orNull (h : f.Fades f') : f.orNull.Fades f'.orNull := by
  cases h with
  | lost f => exact .lost _
  | known hv => exact .known hv.orNull

theorem values?_fade {fs fs' : List Finding} (h : List.Forall₂ Fades fs fs') :
    values? fs' = none ∨ ∃ vs vs', values? fs = some vs ∧ values? fs' = some vs' ∧
      ValuesLinked .ofFunctions vs vs' := by
  induction h with
  | nil => exact .inr ⟨[], [], rfl, rfl, .nil⟩
  | cons hf _ ih =>
    cases hf with
    | lost f => exact .inl rfl
    | known hv =>
      simp only [values?]
      obtain hnone | ⟨vs, vs', hvs, hvs', hlinked⟩ := ih
      · exact .inl (by rw [hnone]; rfl)
      · exact .inr ⟨_, _, by rw [hvs]; rfl, by rw [hvs']; rfl, .cons hv hlinked⟩

theorem forgotten_forgotten (f : Finding) : f.forgotten.forgotten = f.forgotten := by
  cases h : f.isFunction <;> simp [forgotten, h]

theorem Fades.forgotten (h : f.Fades f') : f.forgotten.Fades f'.forgotten := by
  cases h with
  | lost f => exact .lost _
  | @known v v' hv =>
    obtain ⟨rfl, -⟩ | ⟨c, c', rfl, rfl, -⟩ | ⟨i, j, rfl, rfl, -⟩ := hv.cases
    · exact .refl _
    · exact .known hv
    · exact .lost _

/-- Of what a scope has for a name the second scope knows less, or it has the name and knows nothing. -/
inductive Dims : Option Finding → Option Finding → Prop
  | found {g g' : Finding} : g.Fades g' → Dims (some g) (some g')
  | unbound : Dims none none
  | clouded : Dims none (some .unknown)

namespace Dims

variable {o o' p p' : Option Finding}

theorem refl (o : Option Finding) : Dims o o := by
  cases o with
  | none => exact .unbound
  | some f => exact .found (.refl f)

theorem to_unknown (o : Option Finding) : Dims o (some .unknown) := by
  cases o with
  | none => exact .clouded
  | some f => exact .found (.lost f)

theorem or (h : Dims o o') (hp : Dims p p') : Dims (o.or p) (o'.or p') := by
  cases h with
  | found hf => exact .found hf
  | unbound => exact hp
  | clouded =>
    cases hp with
    | found hf => exact .found (.lost _)
    | unbound => exact .clouded
    | clouded => exact .clouded

theorem map_forgotten (h : Dims o o') : Dims (o.map forgotten) (o'.map forgotten) := by
  cases h with
  | found hf => exact .found hf.forgotten
  | unbound => exact .unbound
  | clouded => exact .clouded

/-- Names that are assigned in a branch stand for nothing known after it. -/
theorem leave (h : Dims o o') (hp : Dims p p') :
    Dims (if o.isSome then some .unknown else p) (if o'.isSome then some .unknown else p') := by
  cases h with
  | found hf => exact .refl _
  | unbound => exact hp
  | clouded => exact to_unknown p

end Dims

end Finding

open Finding

namespace CheckState

variable {c c' d d' e e' : CheckState} {S S' i : ScratchId} {x : Name} {N : Name → Prop}

theorem find_forget (c : CheckState) (chain : List ScratchId) (x : Name) :
    c.forget.find chain x = (c.find chain x).map forgotten := by
  induction chain with
  | nil => rfl
  | cons i chain ih =>
    rw [find_cons, find_cons, ih, get?_forget]
    cases (c.bindings i).get? x <;> rfl

/-- In its scope the second check knows less of the names that count. -/
structure Vaguer (N : Name → Prop) (c : CheckState) (S : ScratchId) (c' : CheckState) (S' : ScratchId) :
    Prop where
  seen : ∀ x, N x → Dims (c.find (c.chain S) x) (c'.find (c'.chain S') x)
  own : ∀ x, N x → Dims ((c.bindings S).get? x) ((c'.bindings S').get? x)

theorem Vaguer.mono {M : Name → Prop} (h : c.Vaguer N S c' S') (hM : ∀ x, M x → N x) : c.Vaguer M S c' S' :=
  ⟨fun x hx => h.seen x (hM x hx), fun x hx => h.own x (hM x hx)⟩

theorem Vaguer.congr (h : c.Vaguer N S c' S') (hd : d.scopes = c.scopes) (hd' : d'.scopes = c'.scopes) :
    d.Vaguer N S d' S' := by
  obtain ⟨scopes, waiting, visited, written⟩ := d
  obtain ⟨scopes', waiting', visited', written'⟩ := d'
  obtain rfl : scopes = c.scopes := hd
  obtain rfl : scopes' = c'.scopes := hd'
  exact ⟨h.seen, h.own⟩

theorem Vaguer.set (h : c.Vaguer N S c' S') (hS : S < c.scopes.size) (hS' : S' < c'.scopes.size)
    (y : Name) {f f' : Finding} (hf : f.Fades f') : (c.set S y f).Vaguer N S (c'.set S' y f') S' where
  seen x hx := by
    rw [find_set hS, find_set hS']
    split
    · exact .found hf
    · exact h.seen x hx
  own x hx := by
    rw [get?_set hS, get?_set hS']
    split
    · exact .found hf
    · exact h.own x hx

/-- Of the scopes that are there a check writes the one it stands in. -/
structure Onward (S : ScratchId) (c d : CheckState) : Prop where
  size : c.scopes.size ≤ d.scopes.size
  others : ∀ i, i < c.scopes.size → i ≠ S → d.scopes[i]? = c.scopes[i]?
  chain : ∀ i, i < c.scopes.size → d.chain i = c.chain i

theorem onward_of_scopes (h : d.scopes = c.scopes) : Onward S c d := by
  obtain ⟨scopes, waiting, visited, written⟩ := d
  obtain rfl : scopes = c.scopes := h
  exact ⟨Nat.le_refl _, fun _ _ _ => rfl, fun _ _ => rfl⟩

theorem Onward.refl (S : ScratchId) (c : CheckState) : Onward S c c := onward_of_scopes rfl

theorem Onward.trans (h : Onward S c d) (h' : Onward S d e) : Onward S c e where
  size := Nat.le_trans h.size h'.size
  others i hi hne := (h'.others i (Nat.lt_of_lt_of_le hi h.size) hne).trans (h.others i hi hne)
  chain i hi := (h'.chain i (Nat.lt_of_lt_of_le hi h.size)).trans (h.chain i hi)

theorem Onward.rooted (h : Onward S c d) (hc : c.Rooted i) : d.Rooted i := by
  refine ⟨Nat.lt_of_lt_of_le hc.1 h.size, fun j hj => ?_⟩
  rw [h.chain i hc.1] at hj
  exact Nat.lt_of_lt_of_le (hc.2 j hj) h.size

theorem onward_set (c : CheckState) (S : ScratchId) (y : Name) (f : Finding) : Onward S c (c.set S y f) where
  size := by rw [size_set]
  others i _ hne := getElem?_set_of_ne hne c y f
  chain i _ := chain_set c S y f i

theorem Onward.find_eq (h : Onward S c d) {chain : List ScratchId}
    (hchain : ∀ i ∈ chain, S < i ∧ i < c.scopes.size) (x : Name) : d.find chain x = c.find chain x :=
  find_congr fun i hi => by
    rw [bindings_congr (h.others i (hchain i hi).2 (Nat.ne_of_gt (hchain i hi).1))]

theorem lt_of_chain (h : c.chain i ≠ []) : i < c.scopes.size := by
  by_contra hi
  simp [chain, Array.getElem?_eq_none (Nat.le_of_not_lt hi)] at h

/-- Bodies of one function that wait for their turns, in scopes inside of `S` and of `S'`. Between these and
their own the second check knows less, as far as names count. -/
structure PairedIn (N : Name → Prop) (c : CheckState) (S : ScratchId) (c' : CheckState) (S' : ScratchId)
    (inner inner' : List ScratchId) (w w' : Waiting) : Prop where
  literal : w'.literal = w.literal
  chain : c.chain w.scope = inner ++ c.chain S
  chain' : c'.chain w'.scope = inner' ++ c'.chain S'
  inside : ∀ i ∈ inner, S < i ∧ i < c.scopes.size
  inside' : ∀ i ∈ inner', S' < i ∧ i < c'.scopes.size
  seen : ∀ x, N x → Dims (c.find inner x) (c'.find inner' x)

def Paired (N : Name → Prop) (c : CheckState) (S : ScratchId) (c' : CheckState) (S' : ScratchId)
    (w w' : Waiting) : Prop :=
  ∃ inner inner', PairedIn N c S c' S' inner inner' w w'

variable {w w' : Waiting} {t : Task}

theorem Paired.mono {M : Name → Prop} (h : Paired N c S c' S' w w') (hM : ∀ x, M x → N x) :
    Paired M c S c' S' w w' := by
  obtain ⟨inner, inner', h⟩ := h
  exact ⟨inner, inner', { h with seen := fun x hx => h.seen x (hM x hx) }⟩

theorem rooted_of_chain {inner : List ScratchId} (hS : c.Rooted S) (hchain : c.chain i = inner ++ c.chain S)
    (hinside : ∀ j ∈ inner, S < j ∧ j < c.scopes.size) : c.Rooted i := by
  obtain ⟨outer, houter⟩ := chain_eq_cons hS.1
  refine ⟨lt_of_chain (by simp [hchain, houter]), fun j hj => ?_⟩
  rw [hchain] at hj
  obtain hj | hj := List.mem_append.mp hj
  · exact (hinside j hj).2
  · exact hS.2 j hj

/-- What a body has found around it stays, but for what its check assigns in the scope it stands in. -/
theorem Paired.onward (h : Paired N c S c' S' w w') (hS : c.Rooted S) (hS' : c'.Rooted S')
    (ho : Onward S c d) (ho' : Onward S' c' d') : Paired N d S d' S' w w' := by
  obtain ⟨inner, inner', h⟩ := h
  refine ⟨inner, inner', h.literal, ?_, ?_, fun i hi => ?_, fun i hi => ?_, fun x hx => ?_⟩
  · rw [ho.chain _ (rooted_of_chain hS h.chain h.inside).1, ho.chain S hS.1, h.chain]
  · rw [ho'.chain _ (rooted_of_chain hS' h.chain' h.inside').1, ho'.chain S' hS'.1, h.chain']
  · exact ⟨(h.inside i hi).1, Nat.lt_of_lt_of_le (h.inside i hi).2 ho.size⟩
  · exact ⟨(h.inside' i hi).1, Nat.lt_of_lt_of_le (h.inside' i hi).2 ho'.size⟩
  · rw [ho.find_eq h.inside, ho'.find_eq h.inside']
    exact h.seen x hx

/-- Two checks come from `c` and `c'` to `d` and `d'`, and the second one still knows less. They have put off
the same functions. -/
structure Together (N : Name → Prop) (S S' : ScratchId) (c d c' d' : CheckState) : Prop where
  vaguer : d.Vaguer N S d' S'
  onward : Onward S c d
  onward' : Onward S' c' d'
  waiting : ∃ new new', d.waiting.toList = c.waiting.toList ++ new ∧
    d'.waiting.toList = c'.waiting.toList ++ new' ∧ List.Forall₂ (Paired N d S d' S') new new'

theorem Vaguer.stay (h : c.Vaguer N S c' S') (hd : d.scopes = c.scopes) (hd' : d'.scopes = c'.scopes)
    (hw : d.waiting = c.waiting) (hw' : d'.waiting = c'.waiting) : Together N S S' c d c' d' :=
  ⟨h.congr hd hd', onward_of_scopes hd, onward_of_scopes hd', [], [], by simp [hw], by simp [hw'], .nil⟩

theorem Together.trans (h : Together N S S' c d c' d') (h' : Together N S S' d e d' e') (hS : c.Rooted S)
    (hS' : c'.Rooted S') : Together N S S' c e c' e' where
  vaguer := h'.vaguer
  onward := h.onward.trans h'.onward
  onward' := h.onward'.trans h'.onward'
  waiting := by
    obtain ⟨new, new', hnew, hnew', hall⟩ := h.waiting
    obtain ⟨more, more', hmore, hmore', hall'⟩ := h'.waiting
    refine ⟨new ++ more, new' ++ more', ?_, ?_, ?_⟩
    · rw [hmore, hnew, List.append_assoc]
    · rw [hmore', hnew', List.append_assoc]
    · refine List.rel_append (hall.imp fun w w' hw => ?_) hall'
      exact hw.onward (h.onward.rooted hS) (h.onward'.rooted hS') h'.onward h'.onward'

theorem Visited.onward (h : Visited S t c d) : Onward S c d := ⟨h.size, h.others, h.chain⟩

/-- What one check visits takes nothing away from the other if none of the names that count is assigned
there. -/
theorem Vaguer.ahead (h : c.Vaguer N S c' S') (hv : Visited S t c d) (hS : c.Rooted S)
    (hN : ∀ x, N x → x ∉ t.assigned) : d.Vaguer N S c' S' where
  seen x hx := by
    rw [hv.find_kept hS (hN x hx)]
    exact h.seen x hx
  own x hx := by
    rw [hv.kept x (hN x hx)]
    exact h.own x hx

/-- After a branch the second check knows even less. -/
theorem Vaguer.behind (h : c.Vaguer N S c' S') (hv : Visited S' t c' d') (hS' : c'.Rooted S')
    (hunknown : ∀ x ∈ t.assigned, (d'.bindings S').get? x = some .unknown) : c.Vaguer N S d' S' := by
  obtain ⟨outer, houter⟩ := chain_eq_cons (hv.rooted hS').1
  refine ⟨fun x hx => ?_, fun x hx => ?_⟩
  · by_cases hassigned : x ∈ t.assigned
    · rw [houter, find_cons, hunknown x hassigned]
      exact .to_unknown _
    · rw [hv.find_kept hS' hassigned]
      exact h.seen x hx
  · by_cases hassigned : x ∈ t.assigned
    · rw [hunknown x hassigned]
      exact .to_unknown _
    · rw [hv.kept x hassigned]
      exact h.own x hx

theorem vaguer_extend (hS : c.Rooted S) (hS' : c'.Rooted S') {b b' : Bindings Finding}
    (hb : ∀ x, N x → Dims (b.get? x) (b'.get? x))
    (h : ∀ x, N x → Dims (c.find (c.chain S) x) (c'.find (c'.chain S') x)) :
    (c.extend (c.chain S) b).Vaguer N c.scopes.size (c'.extend (c'.chain S') b') c'.scopes.size where
  seen x hx := by
    rw [find_extend_new hS, find_extend_new hS']
    exact (hb x hx).or (h x hx)
  own x hx := by
    rw [bindings_extend_new, bindings_extend_new]
    exact hb x hx

theorem onward_leave (h : Onward c.scopes.size (c.extend (c.chain S) .empty) d) :
    Onward S c (d.leave S c.scopes.size) where
  size := by
    rw [CheckState.leave, size_forgetAll]
    exact Nat.le_trans (by simp) h.size
  others i hi hne := by
    rw [CheckState.leave, getElem?_forgetAll_of_ne hne]
    refine (h.others i ?_ (Nat.ne_of_lt hi)).trans (getElem?_extend_of_lt hi _ _)
    rw [size_extend]
    exact Nat.lt_succ_of_lt hi
  chain i hi := by
    rw [CheckState.leave, chain_forgetAll, h.chain i, chain_extend_of_lt hi]
    rw [size_extend]
    exact Nat.lt_succ_of_lt hi

/-- A check in a scope of its own inside of `S`, and what it leaves there. -/
abbrev Inside (S : ScratchId) (c d : CheckState) : Prop :=
  Onward c.scopes.size (c.extend (c.chain S) .empty) d

theorem Inside.getElem?_eq (h : Inside S c d) (hi : i < c.scopes.size) : d.scopes[i]? = c.scopes[i]? := by
  refine (h.others i ?_ (Nat.ne_of_lt hi)).trans (getElem?_extend_of_lt hi _ _)
  rw [size_extend]
  exact Nat.lt_succ_of_lt hi

theorem get?_leave (h : Inside S c d) (hS : S < c.scopes.size) (x : Name) :
    ((d.leave S c.scopes.size).bindings S).get? x =
      if ((d.bindings c.scopes.size).get? x).isSome then some .unknown else (c.bindings S).get? x := by
  have hsize : c.scopes.size + 1 ≤ d.scopes.size := by simpa using h.size
  have hlt : S < d.scopes.size := Nat.lt_of_lt_of_le (Nat.lt_succ_of_lt hS) hsize
  rw [CheckState.leave, get?_forgetAll hlt, bindings_congr (h.getElem?_eq hS)]
  simp only [Bindings.get?_isSome_iff]

theorem find_leave (h : Inside S c d) (hS : c.Rooted S) (x : Name) :
    (d.leave S c.scopes.size).find ((d.leave S c.scopes.size).chain S) x =
      if ((d.bindings c.scopes.size).get? x).isSome then some .unknown else c.find (c.chain S) x := by
  obtain ⟨outer, houter⟩ := chain_eq_cons hS.1
  rw [(onward_leave h).chain S hS.1]
  split
  · next hx =>
    rw [houter, find_cons, get?_leave h hS.1, if_pos hx]
    rfl
  · next hx =>
    refine find_congr fun i hi => ?_
    by_cases heq : i = S
    · rw [heq, get?_leave h hS.1, if_neg hx]
    · rw [bindings_congr ((onward_leave h).others i (hS.2 i hi) heq)]

theorem Paired.leave (h : Paired N d c.scopes.size d' c'.scopes.size w w') (hc : Inside S c d)
    (hc' : Inside S' c' d') (hS : S < c.scopes.size) (hS' : S' < c'.scopes.size)
    (hown : ∀ x, N x → Dims ((d.bindings c.scopes.size).get? x) ((d'.bindings c'.scopes.size).get? x)) :
    Paired N (d.leave S c.scopes.size) S (d'.leave S' c'.scopes.size) S' w w' := by
  have hchain {S : ScratchId} {c d : CheckState} (hc : Inside S c d) (hS : S < c.scopes.size)
      {i : ScratchId} {inner : List ScratchId} (hi : d.chain i = inner ++ d.chain c.scopes.size) :
      (d.leave S c.scopes.size).chain i = inner ++ [c.scopes.size] ++ (d.leave S c.scopes.size).chain S := by
    have hnew := hc.chain c.scopes.size (by simp)
    rw [chain_extend_new] at hnew
    rw [(onward_leave hc).chain S hS, CheckState.leave, chain_forgetAll, hi, hnew, List.append_assoc,
      List.singleton_append]
  have hinside {S : ScratchId} {c d : CheckState} (hc : Inside S c d) (hS : S < c.scopes.size)
      {inner : List ScratchId} (hinner : ∀ i ∈ inner, c.scopes.size < i ∧ i < d.scopes.size) :
      ∀ i ∈ inner ++ [c.scopes.size], S < i ∧ i < d.scopes.size := by
    have hsize : c.scopes.size + 1 ≤ d.scopes.size := by simpa using hc.size
    intro i hi
    obtain hi | hi := List.mem_append.mp hi
    · exact ⟨Nat.lt_trans hS (hinner i hi).1, (hinner i hi).2⟩
    · obtain rfl := List.mem_singleton.mp hi
      exact ⟨hS, hsize⟩
  have hfind {S : ScratchId} {c d : CheckState} {chain : List ScratchId}
      (hall : ∀ i ∈ chain, S < i ∧ i < d.scopes.size) (x : Name) :
      (d.leave S c.scopes.size).find chain x = d.find chain x :=
    find_congr fun i hi => by
      rw [CheckState.leave, bindings_congr (getElem?_forgetAll_of_ne (Nat.ne_of_gt (hall i hi).1) _ _)]
  obtain ⟨inner, inner', h⟩ := h
  have hall := hinside hc hS h.inside
  have hall' := hinside hc' hS' h.inside'
  refine ⟨_, _, h.literal, hchain hc hS h.chain, hchain hc' hS' h.chain', ?_, ?_, fun x hx => ?_⟩
  · rwa [CheckState.leave, size_forgetAll]
  · rwa [CheckState.leave, size_forgetAll]
  · rw [hfind hall, hfind hall', find_append, find_append, find_cons, find_cons]
    exact (h.seen x hx).or ((hown x hx).or .unbound)

theorem Together.leave (hS : c.Rooted S) (hS' : c'.Rooted S') (hc : c.Vaguer N S c' S')
    (h : Together N c.scopes.size c'.scopes.size (c.extend (c.chain S) .empty) d
      (c'.extend (c'.chain S') .empty) d') :
    Together N S S' c (d.leave S c.scopes.size) c' (d'.leave S' c'.scopes.size) where
  vaguer := by
    refine ⟨fun x hx => ?_, fun x hx => ?_⟩
    · rw [find_leave h.onward hS, find_leave h.onward' hS']
      exact (h.vaguer.own x hx).leave (hc.seen x hx)
    · rw [get?_leave h.onward hS.1, get?_leave h.onward' hS'.1]
      exact (h.vaguer.own x hx).leave (hc.own x hx)
  onward := onward_leave h.onward
  onward' := onward_leave h.onward'
  waiting := by
    obtain ⟨new, new', hnew, hnew', hall⟩ := h.waiting
    refine ⟨new, new', ?_, ?_, hall.imp fun w w' hw => ?_⟩
    · rw [CheckState.leave, waiting_forgetAll, hnew]
      rfl
    · rw [CheckState.leave, waiting_forgetAll, hnew']
      rfl
    · exact hw.leave h.onward h.onward' hS.1 hS'.1 h.vaguer.own

end CheckState

namespace Checking

open CheckState

variable {α β γ δ : Type} {N : Name → Prop} {S S' : ScratchId} {P : α → β → Prop} {Q : γ → δ → Prop}
  {g : Ground}

/-- Where the first check passes, so does the second one, which knows less. -/
def Forgives (N : Name → Prop) (S S' : ScratchId) (P : α → β → Prop) (x : Checking α) (y : Checking β) :
    Prop :=
  ∀ c c', c.Rooted S → c'.Rooted S' → c.Vaguer N S c' S' → ∀ a d, x c = .ok a d →
    ∃ b d', y c' = .ok b d' ∧ P a b ∧ Together N S S' c d c' d'

theorem Forgives.bind {x : Checking α} {y : Checking β} {f : α → Checking γ} {f' : β → Checking δ}
    (h : Forgives N S S' P x y) (hf : ∀ a b, P a b → Forgives N S S' Q (f a) (f' b)) :
    Forgives N S S' Q (x >>= f) (y >>= f') := by
  intro c c' hS hS' hc a d hx
  obtain ⟨a₁, d₁, hx₁, hrest⟩ := bind_eq_ok hx
  obtain ⟨b₁, d₁', hy₁, hP, ht⟩ := h c c' hS hS' hc a₁ d₁ hx₁
  obtain ⟨b, d', hy, hQ, ht'⟩ :=
    hf a₁ b₁ hP d₁ d₁' (ht.onward.rooted hS) (ht.onward'.rooted hS') ht.vaguer a d hrest
  exact ⟨b, d', (bind_ok hy₁).trans hy, hQ, ht.trans ht' hS hS'⟩

theorem forgives_pure {a : α} {b : β} (h : P a b) : Forgives N S S' P (pure a) (pure b) := by
  intro c c' _ _ hc _ _ hx
  cases hx
  exact ⟨b, c', rfl, h, hc.stay rfl rfl rfl rfl⟩

theorem forgives_fail (cause : Cause) (span : Span) (y : Checking β) :
    Forgives N S S' P (fail cause span) y := by
  rintro c c' _ _ _ _ _ ⟨⟩

theorem forgives_lookup (s : Symbol) (hs : N s.name) :
    Forgives N S S' Finding.Fades (lookup g S s) (lookup g S' s) := by
  intro c c' _ _ hc f d hx
  have hget : c.get? g S s.name = some f ∧ d = c := by
    rw [lookup] at hx
    cases h : c.get? g S s.name with
    | none => simp [h] at hx
    | some f' =>
      rw [h] at hx
      cases hx
      exact ⟨rfl, rfl⟩
  obtain ⟨hget, rfl⟩ := hget
  obtain ⟨f', hget', hfades⟩ : ∃ f', c'.get? g S' s.name = some f' ∧ f.Fades f' := by
    have hdims := (hc.seen s.name hs).or (Dims.refl ((g.store.get? g.scope s.name).map .known))
    rw [← get?_eq, ← get?_eq, hget] at hdims
    generalize c'.get? g S' s.name = o at hdims
    cases hdims with
    | found hfades => exact ⟨_, rfl, hfades⟩
  exact ⟨f', c', by rw [lookup, hget'], hfades, hc.stay rfl rfl rfl rfl⟩

theorem forgives_assign (name : Name) {f f' : Finding} (hf : f.Fades f') :
    Forgives N S S' (fun _ _ => True) (assign S name f) (assign S' name f') := by
  intro c c' hS hS' hc _ _ hx
  cases hx
  exact ⟨(), c'.set S' name f', rfl, trivial, hc.set hS.1 hS'.1 name hf, onward_set c S name f,
    onward_set c' S' name f', [], [], by simp [CheckState.set], by simp [CheckState.set], .nil⟩

theorem forgives_visit (s s' : Stmt) : Forgives N S S' (fun _ _ => True) (visit s) (visit s') := by
  intro c c' _ _ hc _ _ hx
  cases hx
  exact ⟨(), _, rfl, trivial, hc.stay rfl rfl rfl rfl⟩

theorem forgives_wait (literal : Literal) :
    Forgives N S S' (fun _ _ => True) (wait literal S) (wait literal S') := by
  intro c c' _ _ hc _ _ hx
  cases hx
  have hpaired : Paired N { c with waiting := c.waiting.push ⟨literal, S⟩ } S
      { c' with waiting := c'.waiting.push ⟨literal, S'⟩ } S' ⟨literal, S⟩ ⟨literal, S'⟩ :=
    ⟨[], [], rfl, rfl, rfl, nofun, nofun, fun _ _ => .unbound⟩
  exact ⟨_, _, rfl, trivial, hc.congr rfl rfl, onward_of_scopes rfl, onward_of_scopes rfl,
    [⟨literal, S⟩], [⟨literal, S'⟩], by simp, by simp, .cons hpaired .nil⟩

theorem forgives_branch {body body' : ScratchId → Checking Finding}
    (hbody : ∀ I I', Forgives N I I' Finding.Fades (body I) (body' I')) :
    Forgives N S S' (fun _ _ => True) (branch S body) (branch S' body') := by
  intro c c' hS hS' hc _ d hx
  rw [branch_eq] at hx ⊢
  obtain ⟨f, d₁, hx₁, hrest⟩ := bind_eq_ok hx
  cases hrest
  have hinside : (c.extend (c.chain S) .empty).Vaguer N c.scopes.size (c'.extend (c'.chain S') .empty)
      c'.scopes.size := vaguer_extend hS hS' (fun x _ => .refl _) hc.seen
  obtain ⟨f', d₁', hy₁, -, ht⟩ := hbody _ _ _ _ (hS.extend .empty) (hS'.extend .empty) hinside f d₁ hx₁
  exact ⟨(), _, bind_ok hy₁, trivial, ht.leave hS hS' hc⟩

/-- A check that finds nothing out forgives all that one does which leaves its scopes alone. -/
theorem forgives_lost {x : Checking Finding}
    (h : ∀ c f d, x c = .ok f d → ∃ written, d = { c with written }) :
    Forgives N S S' Finding.Fades x (pure .unknown) := by
  intro c c' _ _ hc f d hx
  obtain ⟨written, rfl⟩ := h c f d hx
  exact ⟨.unknown, c', rfl, .lost f, hc.stay rfl rfl rfl rfl⟩

theorem forgives_askNative (hhost : g.host.PureRespects) (span : Span) {n : Native} (hn : n.isPure = true)
    {vs vs' : List Value} (hvs : ValuesLinked .ofFunctions vs vs') :
    Forgives N S S' Finding.Fades (askNative g S span n vs) (askNative g S' span n vs') := by
  intro c c' _ _ hc f d hx
  rw [askNative] at hx ⊢
  obtain ⟨e, hr, -⟩ | ⟨v, v', hr, hr', hv⟩ := hhost n hn .ofFunctions (c.shown g) (c'.shown g)
    (g.store.nextScope + S) (g.store.nextScope + S') vs vs' hvs c.written c'.written
  · simp only [hr] at hx
    cases hx
  · simp only [hr] at hx
    simp only [hr']
    cases hx
    exact ⟨_, _, rfl, .known hv, hc.stay rfl rfl rfl rfl⟩

theorem forgives_native (hhost : g.host.PureRespects) (span : Span) (n : Native) {fs fs' : List Finding}
    (hfs : List.Forall₂ Finding.Fades fs fs') :
    Forgives N S S' Finding.Fades (checkNative g S span n fs) (checkNative g S' span n fs') := by
  obtain hnone | ⟨vs, vs', hvs, hvs', hlinked⟩ := Finding.values?_fade hfs
  · have hlost : checkNative g S' span n fs' = pure .unknown := by
      rw [checkNative, hnone]
      split <;> rfl
    rw [hlost]
    exact forgives_lost fun c f d => of_checkNative
  · rw [checkNative, checkNative, hvs, hvs']
    split
    · next hpure => exact forgives_askNative hhost span hpure hlinked
    · exact forgives_pure (.refl _)

theorem checkApply_forgives (hhost : g.host.PureRespects) (span : Span) {f f' : Finding} (hf : f.Fades f')
    {fs fs' : List Finding} (hfs : List.Forall₂ Finding.Fades fs fs') :
    Forgives N S S' Finding.Fades (checkApply g S span f fs) (checkApply g S' span f' fs') := by
  cases hf with
  | lost f => exact forgives_lost fun c a d => of_checkApply
  | known hv =>
    rw [checkApply_known, checkApply_known, ← hfs.length_eq]
    obtain ⟨n, hd, hd'⟩ | ⟨c, c', hd, hd', -⟩ | ⟨cause, hd, hd'⟩ := Dispatch.of_linked hv fs.length
    · rw [hd, hd']
      exact forgives_native hhost span n hfs
    · rw [hd, hd']
      exact forgives_pure (.refl _)
    · rw [hd, hd']
      exact forgives_fail _ _ _

mutual

theorem checkExpr_forgives (hhost : g.host.PureRespects) (e : Expr) (he : ∀ x ∈ e.names, N x) :
    Forgives N S S' Finding.Fades (checkExpr g S e) (checkExpr g S' e) := by
  cases e with
  | missing | forever => exact forgives_fail _ _ _
  | symbol s => exact forgives_lookup s (he _ List.mem_cons_self)
  | number | boolean | null | string => exact forgives_pure (.refl _)
  | function span params body =>
    rw [checkExpr, checkExpr]
    split
    · exact forgives_fail _ _ _
    · exact (forgives_wait _).bind fun turn turn' _ => forgives_pure (.known ⟨_, rfl, trivial, rfl, rfl⟩)
  | call span callee args =>
    rw [Expr.names, List.forall_mem_append] at he
    rw [checkExpr, checkExpr]
    split
    · exact forgives_fail _ _ _
    · refine (checkExpr_forgives hhost callee he.1).bind fun f f' hf => ?_
      refine (checkArgs_forgives hhost args he.2).bind fun fs fs' hfs => ?_
      exact checkApply_forgives hhost span hf hfs
termination_by structural e

theorem checkArgs_forgives (hhost : g.host.PureRespects) (es : List Expr) (hes : ∀ x ∈ Expr.namesOf es, N x) :
    Forgives N S S' (List.Forall₂ Finding.Fades) (checkArgs g S es) (checkArgs g S' es) := by
  cases es with
  | nil => exact forgives_pure .nil
  | cons e es =>
    rw [Expr.namesOf, List.forall_mem_append] at hes
    rw [checkArgs, checkArgs]
    refine (checkExpr_forgives hhost e hes.1).bind fun f f' hf => ?_
    exact (checkArgs_forgives hhost es hes.2).bind fun fs fs' hfs => forgives_pure (.cons hf.orNull hfs)
termination_by structural es

end

theorem checkCount_forgives (span : Span) (count : Expr) (hcount : ∀ x ∈ count.names, N x) :
    Forgives N S S' (fun _ _ => True) (checkCount g S span count) (checkCount g S' span count) := by
  cases count with
  | missing | boolean | null | string | call | function => exact forgives_fail _ _ _
  | forever | number => exact forgives_pure trivial
  | symbol s =>
    refine (forgives_lookup s (hcount _ List.mem_cons_self)).bind fun f f' hf => ?_
    cases hf with
    | lost f =>
      rintro c c' _ _ hc ⟨⟩ d hx
      have hd : d = c := by
        cases f with
        | unknown =>
          cases hx
          rfl
        | known v =>
          cases v with
          | integer n =>
            cases hx
            rfl
          | _ => cases hx
      exact ⟨(), c', rfl, trivial, hd ▸ hc.stay rfl rfl rfl rfl⟩
    | @known v v' hv =>
      obtain ⟨rfl, -⟩ | ⟨c, c', rfl, rfl, -⟩ | ⟨i, j, rfl, rfl, -⟩ := hv.cases
      · cases v' with
        | integer n => exact forgives_pure trivial
        | _ => exact forgives_fail _ _ _
      · exact forgives_fail _ _ _
      · exact forgives_fail _ _ _

mutual

theorem checkStmt_forgives (hhost : g.host.PureRespects) (s : Stmt) (hs : ∀ x ∈ s.names, N x)
    {S S' : ScratchId} : Forgives N S S' Finding.Fades (checkStmt g S s) (checkStmt g S' s) := by
  cases s with
  | missing => exact forgives_fail _ _ _
  | set span target value =>
    cases target with
    | none => exact forgives_fail _ _ _
    | some symbol =>
      rw [Stmt.names, List.forall_mem_append] at hs
      rw [checkStmt, checkStmt]
      split
      · exact forgives_fail _ _ _
      · refine (checkExpr_forgives hhost value hs.2).bind fun f f' hf => ?_
        exact (forgives_assign symbol.name hf.orNull).bind fun _ _ _ => forgives_pure hf.orNull
  | branch span condition thenBlock elseBlock =>
    rw [Stmt.names, List.forall_mem_append, List.forall_mem_append] at hs
    rw [checkStmt, checkStmt]
    split
    · exact forgives_fail _ _ _
    refine (checkExpr_forgives hhost condition hs.1).bind fun _ _ _ => ?_
    refine (forgives_branch fun I I' => checkBlock_forgives hhost thenBlock hs.2.1).bind fun _ _ _ => ?_
    split
    · exact (forgives_branch fun I I' => checkBlock_forgives hhost elseBlock hs.2.2).bind fun _ _ _ =>
        forgives_pure (.refl _)
    · exact forgives_pure (.refl _)
  | times span count body =>
    rw [Stmt.names, List.forall_mem_append] at hs
    rw [checkStmt, checkStmt]
    split
    · exact forgives_fail _ _ _
    refine (checkCount_forgives span count hs.1).bind fun _ _ _ => ?_
    exact (forgives_branch fun I I' => checkBlock_forgives hhost body hs.2).bind fun _ _ _ =>
      forgives_pure (.refl _)
  | call span callee args => exact checkExpr_forgives hhost (.call span callee args) hs
termination_by structural s

theorem checkBlock_forgives (hhost : g.host.PureRespects) (b : Block) (hb : ∀ x ∈ b.names, N x)
    {S S' : ScratchId} : Forgives N S S' Finding.Fades (checkBlock g S b) (checkBlock g S' b) := by
  cases b with
  | missing => exact forgives_pure (.refl _)
  | of span body => exact checkBody_forgives hhost (.refl _) body hb
termination_by structural b

theorem checkBody_forgives (hhost : g.host.PureRespects) {last last' : Finding} (hlast : last.Fades last')
    (body : List Stmt) (hbody : ∀ x ∈ Stmt.namesOf body, N x) {S S' : ScratchId} :
    Forgives N S S' Finding.Fades (checkBody g S last body) (checkBody g S' last' body) := by
  cases body with
  | nil => exact forgives_pure hlast
  | cons s rest =>
    rw [Stmt.namesOf, List.forall_mem_append] at hbody
    rw [checkBody, checkBody]
    refine (forgives_visit s s).bind fun _ _ _ => ?_
    refine (checkStmt_forgives hhost s hbody.1).bind fun f f' hf => ?_
    exact checkBody_forgives hhost hf rest hbody.2
termination_by structural body

end

end Checking

end Stepwise
