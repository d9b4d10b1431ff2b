import Stepwise.Proofs.Inspection
import Stepwise.Proofs.Scratch
import Stepwise.Proofs.Sessions

/-! A check in the one heap that all scopes lie in. The scopes of the store come first, those that the
check makes come after them, and it reads and writes both in the same way. It comes to the same as the check
that keeps its scratch scopes apart; so it leaves everything that was there before as it was. -/

namespace Stepwise

open Checking

theorem Bindings.map_seen_known (b : Bindings Value) : (b.map .known).map Finding.seen = b := by
  refine Bindings.ext ?_
  simp only [Bindings.map, List.map_map]
  exact List.map_id' b.entries

def Scratch.forget (scratch : Scratch) : Scratch :=
  { scratch with bindings := scratch.bindings.map Finding.forgotten }

namespace CheckState

/-- The scopes of a store. The check has made none of them. -/
def ofStore (s : Store) : CheckState :=
  { initial with scopes := s.scopes.map fun scope => ⟨scope.bindings.map .known, scope.outer⟩ }

/-- Nothing assigned in the scopes that the check has made is known any more. -/
def forgetMade (c : CheckState) : CheckState :=
  { c with scopes := c.scopes.mapIdx fun i scratch => if i ∈ c.made then scratch.forget else scratch }

end CheckState

namespace Ground

/-- A ground without scopes of its own: everything is looked up in the heap. -/
def inHeap (g : Ground) : Ground := { g with store := { g.store with scopes := #[] } }

def place (g : Ground) (i : ScratchId) : ScratchId := g.store.scopes.size + i

/-- A scratch scope in the heap lies inside the scope that is checked against. -/
def lodge (g : Ground) (scratch : Scratch) : Scratch :=
  ⟨scratch.bindings, scratch.outer.map g.place ++ g.store.chain g.scope⟩

/-- In the heap every scope is shown where it is. -/
theorem inHeap_shown (g : Ground) (scratch : Scratch) :
    g.inHeap.shown scratch = ⟨scratch.bindings.map Finding.seen, scratch.outer⟩ := by
  have houter : scratch.outer.map (g.inHeap.store.nextScope + ·) = scratch.outer :=
    List.map_id'' Nat.zero_add scratch.outer
  rw [shown, houter]
  exact congrArg (Scope.mk _) (List.append_nil _)

/-- The scopes around the one that is checked against are there. -/
def Inside (g : Ground) : Prop := ∀ i ∈ g.store.chain g.scope, i < g.store.scopes.size

end Ground

def heapWaiting (g : Ground) (w : Waiting) : Checking Unit := do
  modify CheckState.forgetMade
  let params := w.literal.paramNames.map fun name => (name, Finding.unknown)
  let scope ← openScope ((← get).chain w.scope) (.ofList params)
  let _ ← checkBlock g.inHeap scope w.literal.body

def heapAllWaiting (g : Ground) : (bodies : Nat) → (turn : Nat) → Checking Unit
  | 0, _ => return
  | bodies + 1, turn => do
    match (← get).waiting[turn]? with
    | none => return
    | some w =>
      heapWaiting g w
      heapAllWaiting g bodies (turn + 1)

/-- A check that has the scopes of the store in its state, and is free to write to them. -/
def heapCheck (g : Ground) (n : Node) : Checking Value := do
  let scope ← openScope ((← get).chain g.scope) .empty
  let f ← checkNode g.inHeap scope n
  heapAllWaiting g n.literalCount 0
  match f with
  | .known v => return v
  | .unknown => return .absent

namespace CheckState

/-- The heap of a check that keeps its scratch scopes apart. -/
def inHeap (g : Ground) (c : CheckState) : CheckState where
  scopes := (ofStore g.store).scopes ++ c.scopes.map g.lodge
  made := c.made.map g.place
  waiting := c.waiting.map fun w => ⟨w.literal, g.place w.scope⟩
  visited := c.visited
  written := c.written

variable {g : Ground} {c : CheckState} {S i : ScratchId}

theorem size_ofStore (s : Store) : (ofStore s).scopes.size = s.scopes.size := Array.size_map

theorem size_inHeap (g : Ground) (c : CheckState) :
    (c.inHeap g).scopes.size = g.place c.scopes.size := by
  simp [inHeap, size_ofStore, Ground.place]

theorem getElem?_inHeap_of_lt (h : i < g.store.scopes.size) :
    (c.inHeap g).scopes[i]? = (ofStore g.store).scopes[i]? :=
  Array.getElem?_append_left (by rwa [size_ofStore])

theorem getElem?_inHeap_place (g : Ground) (c : CheckState) (i : ScratchId) :
    (c.inHeap g).scopes[g.place i]? = c.scopes[i]?.map g.lodge := by
  rw [inHeap, Array.getElem?_append_right (by rw [size_ofStore]; exact Nat.le_add_right _ _),
    size_ofStore, Ground.place, Nat.add_sub_cancel_left, Array.getElem?_map]

theorem bindings_place (g : Ground) (c : CheckState) (i : ScratchId) :
    (c.inHeap g).bindings (g.place i) = c.bindings i := by
  rw [bindings, getElem?_inHeap_place, bindings]
  cases c.scopes[i]? <;> rfl

theorem chain_place (hS : S < c.scopes.size) :
    (c.inHeap g).chain (g.place S) = (c.chain S).map g.place ++ g.store.chain g.scope := by
  rw [chain, getElem?_inHeap_place, chain, Array.getElem?_eq_getElem hS]
  rfl

theorem mem_chain_place {j : ScratchId} (h : j ∈ (c.inHeap g).chain (g.place i)) :
    g.store.scopes.size ≤ j ∨ j ∈ g.store.chain g.scope := by
  by_cases hi : i < c.scopes.size
  · rw [chain_place hi] at h
    obtain h | h := List.mem_append.mp h
    · obtain ⟨k, -, rfl⟩ := List.mem_map.mp h
      exact .inl (Nat.le_add_right _ _)
    · exact .inr h
  · rw [chain, getElem?_inHeap_place, Array.getElem?_eq_none (Nat.le_of_not_lt hi)] at h
    cases h

theorem get?_bindings_of_lt (h : i < g.store.scopes.size) (x : Name) :
    ((c.inHeap g).bindings i).get? x = (g.store.lookup? i x).map .known := by
  rw [bindings, getElem?_inHeap_of_lt h, ofStore, Array.getElem?_map, Store.lookup?, Store.bindings,
    Array.getElem?_eq_getElem h]
  exact Bindings.get?_map _ _ x

theorem get?_inHeap (hg : g.Inside) (hS : S < c.scopes.size) (x : Name) :
    (c.inHeap g).get? g.inHeap (g.place S) x = c.get? g S x := by
  have hscratch : (c.inHeap g).find ((c.chain S).map g.place) x = c.find (c.chain S) x := by
    rw [find, List.findSome?_map, find]
    congr 1
    funext i
    rw [Function.comp_apply, bindings_place]
  have hstore : (c.inHeap g).find (g.store.chain g.scope) x =
      (g.store.get? g.scope x).map .known := by
    rw [Store.get?]
    have hchain : ∀ i ∈ g.store.chain g.scope, i < g.store.scopes.size := hg
    generalize g.store.chain g.scope = chain at hchain ⊢
    induction chain with
    | nil => rfl
    | cons i chain ih =>
      have hi := get?_bindings_of_lt (c := c) (hchain i List.mem_cons_self) x
      have ih := ih fun j hj => hchain j (List.mem_cons_of_mem i hj)
      rw [find] at ih ⊢
      rw [List.findSome?_cons, List.findSome?_cons, hi]
      cases g.store.lookup? i x with
      | none => exact ih
      | some v => rfl
  have hnone : g.inHeap.store.get? g.inHeap.scope x = none := rfl
  rw [get?_eq, chain_place hS, get?_eq, hnone, Option.map_none, Option.or_none, ← hscratch, ← hstore]
  simp only [find, List.findSome?_append]

theorem modify_inHeap (g : Ground) (c : CheckState) (S : ScratchId) {f : Scratch → Scratch}
    (hf : ∀ scratch, g.lodge (f scratch) = f (g.lodge scratch)) :
    (c.inHeap g).scopes.modify (g.place S) f =
      (ofStore g.store).scopes ++ (c.scopes.modify S f).map g.lodge := by
  apply Array.ext_getElem?
  intro j
  have hsize := size_ofStore g.store
  rw [inHeap, Array.getElem?_modify, Array.getElem?_append, Array.getElem?_append, hsize,
    Ground.place]
  by_cases hj : j < g.store.scopes.size
  · rw [if_pos hj, if_pos hj, if_neg (by omega)]
  · rw [if_neg hj, if_neg hj, Array.getElem?_map, Array.getElem?_map, Array.getElem?_modify]
    by_cases hS : g.store.scopes.size + S = j
    · rw [if_pos hS, if_pos (by omega), Option.map_map, Option.map_map]
      congr 1
      exact funext fun scratch => (hf scratch).symm
    · rw [if_neg hS, if_neg (by omega)]

theorem set_inHeap (g : Ground) (c : CheckState) (S : ScratchId) (x : Name) (f : Finding) :
    (c.inHeap g).set (g.place S) x f = (c.set S x f).inHeap g := by
  have hscopes := modify_inHeap g c S
    (f := fun scratch => { scratch with bindings := scratch.bindings.insert x f }) fun _ => rfl
  rw [set, hscopes]
  rfl

theorem forgetAll_inHeap (g : Ground) (c : CheckState) (S : ScratchId) (names : List Name) :
    (c.inHeap g).forgetAll (g.place S) names = (c.forgetAll S names).inHeap g := by
  induction names generalizing c with
  | nil => rfl
  | cons x names ih =>
    have hset := set_inHeap g c S x .unknown
    rw [forgetAll, List.foldl_cons, hset]
    exact ih (c.set S x .unknown)

theorem extend_inHeap (g : Ground) (c : CheckState) (outer : List ScratchId) (b : Bindings Finding) :
    (c.inHeap g).extend (outer.map g.place ++ g.store.chain g.scope) b =
      (c.extend outer b).inHeap g := by
  have hscopes : ((c.inHeap g).scopes.push ⟨b, outer.map g.place ++ g.store.chain g.scope⟩) =
      (ofStore g.store).scopes ++ (c.scopes.push ⟨b, outer⟩).map g.lodge := by
    rw [Array.map_push, Array.append_push]
    rfl
  have hmade : (c.inHeap g).made.push (c.inHeap g).scopes.size =
      (c.made.push c.scopes.size).map g.place := by
    rw [Array.map_push, size_inHeap]
    rfl
  rw [extend, hscopes, hmade]
  rfl

/-- All scratch scopes are in the record, those up to some number are there, and so are those that bodies
wait in. -/
structure Ranges (k : Nat) (c : CheckState) : Prop where
  made : ∀ i, i ∈ c.made ↔ i < c.scopes.size
  size : k ≤ c.scopes.size
  waiting : ∀ w ∈ c.waiting, w.scope < c.scopes.size

theorem Ranges.extend {k : Nat} (h : c.Ranges k) (outer : List ScratchId) (b : Bindings Finding) :
    (c.extend outer b).Ranges (c.scopes.size + 1) where
  made i := by
    simp only [CheckState.extend, Array.mem_push, Array.size_push, h.made]
    exact Nat.lt_succ_iff_lt_or_eq.symm
  size := by simp [CheckState.extend]
  waiting w hw := by
    simp only [CheckState.extend, Array.size_push]
    exact Nat.lt_succ_of_lt (h.waiting w hw)

theorem Ranges.set {k : Nat} (h : c.Ranges k) (S : ScratchId) (x : Name) (f : Finding) :
    (c.set S x f).Ranges k := by
  have hsize : (c.set S x f).scopes.size = c.scopes.size := size_set c S x f
  exact ⟨fun i => by rw [hsize]; exact h.made i, hsize ▸ h.size, fun w hw => hsize ▸ h.waiting w hw⟩

theorem Ranges.forgetAll {k : Nat} (h : c.Ranges k) (S : ScratchId) (names : List Name) :
    (c.forgetAll S names).Ranges k := by
  induction names generalizing c with
  | nil => exact h
  | cons x names ih => exact ih (h.set S x .unknown)

theorem Ranges.forget {k : Nat} (h : c.Ranges k) : c.forget.Ranges k := by
  have hsize : c.forget.scopes.size = c.scopes.size := Array.size_map
  exact ⟨fun i => by rw [hsize]; exact h.made i, hsize ▸ h.size, fun w hw => hsize ▸ h.waiting w hw⟩

/-- The scopes that the check has made are those behind the store. -/
theorem mem_made_inHeap {k : Nat} (h : c.Ranges k) {j : ScratchId} :
    j ∈ (c.inHeap g).made ↔ g.store.scopes.size ≤ j ∧ j < g.place c.scopes.size := by
  simp only [inHeap, Array.mem_map, h.made]
  constructor
  · rintro ⟨i, hi, rfl⟩
    exact ⟨Nat.le_add_right _ _, Nat.add_lt_add_left hi _⟩
  · rintro ⟨hle, hlt⟩
    obtain ⟨i, rfl⟩ := Nat.exists_eq_add_of_le hle
    exact ⟨i, Nat.lt_of_add_lt_add_left hlt, rfl⟩

theorem forget_inHeap {k : Nat} (h : c.Ranges k) : (c.inHeap g).forgetMade = c.forget.inHeap g := by
  have hscopes : ((c.inHeap g).scopes.mapIdx fun i scratch =>
      if i ∈ (c.inHeap g).made then scratch.forget else scratch) =
        (ofStore g.store).scopes ++ (c.scopes.map Scratch.forget).map g.lodge := by
    apply Array.ext_getElem?
    intro j
    have hsize := size_ofStore g.store
    simp only [Array.getElem?_mapIdx, mem_made_inHeap h, Ground.place]
    rw [inHeap, Array.getElem?_append, Array.getElem?_append, hsize]
    by_cases hj : j < g.store.scopes.size
    · simp only [if_pos hj, Nat.not_le.mpr hj, false_and, if_false, Option.map_id']
    · simp only [if_neg hj, Nat.le_of_not_lt hj, true_and, Array.getElem?_map, Option.map_map]
      -- beyond the scopes of the check there is nothing to forget
      by_cases hlt : j < g.store.scopes.size + c.scopes.size
      · simp only [if_pos hlt]
        rfl
      · rw [Array.getElem?_eq_none (by omega)]
        rfl
  rw [forgetMade, hscopes]
  rfl

/-- Natives are shown the same. -/
theorem shown_inHeap (g : Ground) (c : CheckState) : (c.inHeap g).shown g.inHeap = c.shown g := by
  have hstore : (ofStore g.store).scopes.map g.inHeap.shown = g.store.scopes := by
    apply Array.ext_getElem?
    intro i
    simp only [ofStore, Array.getElem?_map, Option.map_map]
    cases g.store.scopes[i]? with
    | none => rfl
    | some scope =>
      rw [Option.map_some, Function.comp_apply, Ground.inHeap_shown, Bindings.map_seen_known]
  have hscratch : g.inHeap.shown ∘ g.lodge = g.shown :=
    funext fun scratch => (g.inHeap_shown (g.lodge scratch)).trans rfl
  have hscopes : g.inHeap.store.scopes ++ (c.inHeap g).scopes.map g.inHeap.shown =
      g.store.scopes ++ c.scopes.map g.shown := by
    rw [inHeap, Array.map_append, hstore, Array.map_map, hscratch]
    exact Array.empty_append
  rw [shown, hscopes]
  rfl

end CheckState

section Mirror

variable {g : Ground} {α β : Type} {k : Nat}

def outcomeInHeap (g : Ground) : EStateM.Result Failure CheckState α → EStateM.Result Failure CheckState α
  | .ok a c => .ok a (c.inHeap g)
  | .error f c => .error f (c.inHeap g)

namespace Checking

/-- The second check does in the heap what the first one does with its scratch scopes apart. -/
def Mirrors (g : Ground) (k : Nat) (x x' : Checking α) : Prop :=
  ∀ c, c.Ranges k → x' (c.inHeap g) = outcomeInHeap g (x c) ∧ ∀ a c', x c = .ok a c' → c'.Ranges k

theorem mirrors_of_ok {x x' : Checking α}
    (h : ∀ c, c.Ranges k → ∃ a c', x c = .ok a c' ∧ x' (c.inHeap g) = .ok a (c'.inHeap g) ∧
      c'.Ranges k) : Mirrors g k x x' := by
  intro c hc
  obtain ⟨a, c', hx, hx', hc'⟩ := h c hc
  refine ⟨by rw [hx, hx']; rfl, fun b c'' h => ?_⟩
  rw [hx] at h
  cases h
  exact hc'

/-- What comes after a part goes the same way in the heap if it does so from where the part leads. -/
theorem bind_inHeap {x x' : Checking α} {f f' : α → Checking β} {c d : CheckState}
    (hx : x' d = outcomeInHeap g (x c))
    (hf : ∀ a c₁, x c = .ok a c₁ → f' a (c₁.inHeap g) = outcomeInHeap g (f a c₁)) :
    (x' >>= f') d = outcomeInHeap g ((x >>= f) c) := by
  cases h : x c with
  | ok a c₁ =>
    rw [h] at hx
    rw [bind_ok h, bind_ok hx]
    exact hf a c₁ h
  | error e c₁ =>
    rw [h] at hx
    rw [bind_error h, bind_error hx]
    rfl

theorem Mirrors.bind {x x' : Checking α} {f f' : α → Checking β} (hx : Mirrors g k x x')
    (hf : ∀ a, Mirrors g k (f a) (f' a)) : Mirrors g k (x >>= f) (x' >>= f') := by
  intro c hc
  obtain ⟨hout, hranges⟩ := hx c hc
  refine ⟨bind_inHeap hout fun a c₁ h => (hf a c₁ (hranges a c₁ h)).1, fun b c' h => ?_⟩
  obtain ⟨a, c₁, hx, h⟩ := bind_eq_ok h
  exact (hf a c₁ (hranges a c₁ hx)).2 b c' h

theorem mirrors_pure (a : α) : Mirrors g k (pure a : Checking α) (pure a) :=
  mirrors_of_ok fun c hc => ⟨a, c, rfl, rfl, hc⟩

theorem mirrors_throw (f : Failure) : Mirrors g k (throw f : Checking α) (throw f) :=
  fun _ _ => ⟨rfl, by rintro _ _ ⟨⟩⟩

theorem mirrors_askNative (S : ScratchId) (span : Span) (n : Native) (args : List Value) :
    Mirrors g k (askNative g S span n args) (askNative g.inHeap (g.place S) span n args) := by
  intro c hc
  have hscope : g.inHeap.store.nextScope + g.place S = g.store.nextScope + S := Nat.zero_add _
  have hreply : g.inHeap.host n ((c.inHeap g).shown g.inHeap) (g.inHeap.store.nextScope + g.place S) args
      (c.inHeap g).written = g.host n (c.shown g) (g.store.nextScope + S) args c.written := by
    rw [CheckState.shown_inHeap, hscope]
    rfl
  simp only [askNative, hreply]
  cases (g.host n (c.shown g) (g.store.nextScope + S) args c.written).result with
  | ok v =>
    refine ⟨rfl, ?_⟩
    rintro _ _ ⟨⟩
    exact ⟨hc.made, hc.size, hc.waiting⟩
  | error f => exact ⟨rfl, by rintro _ _ ⟨⟩⟩

theorem mirrors_native (S : ScratchId) (span : Span) (n : Native) (args : List Finding) :
    Mirrors g k (checkNative g S span n args) (checkNative g.inHeap (g.place S) span n args) := by
  rw [checkNative, checkNative]
  split
  · split
    · next vs _ => exact mirrors_askNative S span n vs
    · exact mirrors_pure _
  · exact mirrors_pure _

theorem Mirrors.branch {S : ScratchId} {body body' : ScratchId → Checking Finding} (hS : S < k)
    (hbody : ∀ i, Mirrors g (i + 1) (body i) (body' (g.place i))) :
    Mirrors g k (Checking.branch S body) (Checking.branch (g.place S) body') := by
  intro c hc
  have hS : S < c.scopes.size := Nat.lt_of_lt_of_le hS hc.size
  have hopen : (c.inHeap g).extend ((c.inHeap g).chain (g.place S)) .empty =
      (c.extend (c.chain S) .empty).inHeap g := by
    rw [CheckState.chain_place hS, CheckState.extend_inHeap]
  obtain ⟨hout, hranges⟩ := hbody c.scopes.size _ (hc.extend (c.chain S) .empty)
  have hx : Checking.branch S body c = (do
      let _ ← body c.scopes.size
      modify fun c' : CheckState => c'.forgetAll S (c'.bindings c.scopes.size).names)
        (c.extend (c.chain S) .empty) := rfl
  have hx' : Checking.branch (g.place S) body' (c.inHeap g) = (do
      let _ ← body' (g.place c.scopes.size)
      modify fun c' : CheckState => c'.forgetAll (g.place S) (c'.bindings (g.place c.scopes.size)).names)
        ((c.extend (c.chain S) .empty).inHeap g) := by
    rw [← hopen, ← CheckState.size_inHeap]
    rfl
  rw [hx, hx']
  refine ⟨bind_inHeap hout fun f c₁ _ => ?_, ?_⟩
  · simp only [outcomeInHeap, modify, modifyGet, MonadStateOf.modifyGet, EStateM.modifyGet,
      CheckState.bindings_place, CheckState.forgetAll_inHeap]
  · intro u c' h
    obtain ⟨f, c₁, hbody, h⟩ := bind_eq_ok h
    cases h
    have hc₁ := hranges f c₁ hbody
    have hle : k ≤ c₁.scopes.size := Nat.le_trans hc.size (Nat.le_of_succ_le hc₁.size)
    exact CheckState.Ranges.forgetAll ⟨hc₁.made, hle, hc₁.waiting⟩ S _

/-- A check of parts in the heap mirrors one of the parts, with no regard to what fails. -/
theorem mirrors_relates {t : Terms} (hg : g.Inside) :
    t.Relates (fun k _ => Mirrors g k) g g.inHeap g.place where
  closures := rfl
  scope := rfl
  pure := mirrors_pure
  bind := Mirrors.bind
  fail _ _ := mirrors_throw _
  lookup {k S s} hS _ c hc := by
    have hget := CheckState.get?_inHeap hg (Nat.lt_of_lt_of_le hS hc.size) s.name
    simp only [lookup, hget]
    cases c.get? g S s.name with
    | some f =>
      refine ⟨rfl, ?_⟩
      rintro _ _ ⟨⟩
      exact hc
    | none => exact ⟨rfl, by rintro _ _ ⟨⟩⟩
  assign _ name f := mirrors_of_ok fun c hc => by
    refine ⟨(), _, rfl, ?_, hc.set _ name f⟩
    rw [assign, CheckState.set_inHeap]
  wait {k S literal} hS _ := mirrors_of_ok fun c hc => by
    refine ⟨_, _, rfl, ?_, hc.made, hc.size, fun w hw => ?_⟩
    · simp only [wait, CheckState.inHeap, Array.size_map, Array.map_push]
    · obtain hw | rfl := Array.mem_push.mp hw
      · exact hc.waiting w hw
      · exact Nat.lt_of_lt_of_le hS hc.size
  native _ _ := mirrors_native _ _
  visit _ := mirrors_of_ok fun c hc => ⟨(), _, rfl, rfl, hc.made, hc.size, hc.waiting⟩
  branch := Mirrors.branch

def anything : Terms :=
  ⟨fun _ _ => True, fun _ => True, True, fun _ => True, fun _ _ => trivial, fun _ => trivial⟩

theorem anything_lenient : anything.Lenient := ⟨fun _ _ => trivial, fun _ => trivial, trivial⟩

theorem meets_anything (n : Node) : n.Meets anything :=
  n.meets_of_walk anything_lenient fun _ _ => ⟨fun _ => trivial, fun _ _ => trivial⟩

theorem mirrors_checkWaiting (hg : g.Inside) {w : Waiting} {c : CheckState} (hc : c.Ranges 0)
    (hw : w.scope < c.scopes.size) :
    heapWaiting g ⟨w.literal, g.place w.scope⟩ (c.inHeap g) = outcomeInHeap g (checkWaiting g w c) ∧
      ∀ a c', checkWaiting g w c = .ok a c' → c'.Ranges 0 := by
  let frame : Bindings Finding := .ofList (w.literal.paramNames.map fun name => (name, .unknown))
  let entered := c.forget.extend (c.forget.chain w.scope) frame
  have hsize : c.forget.scopes.size = c.scopes.size := Array.size_map
  have hentered : entered.Ranges (c.scopes.size + 1) :=
    hsize ▸ hc.forget.extend (c.forget.chain w.scope) frame
  have hblock := (mirrors_relates (t := anything) hg).checkBlock (Nat.lt_succ_self c.scopes.size)
    w.literal.body (meets_anything (.block w.literal.body))
  have hbody : Mirrors g (c.scopes.size + 1)
      (do let _ ← checkBlock g c.scopes.size w.literal.body)
      (do let _ ← checkBlock g.inHeap (g.place c.scopes.size) w.literal.body) :=
    Mirrors.bind hblock fun _ => mirrors_pure _
  obtain ⟨hout, hranges⟩ := hbody entered hentered
  have hx : checkWaiting g w c = (do let _ ← checkBlock g c.scopes.size w.literal.body) entered := by
    rw [← hsize]
    rfl
  have hx' : heapWaiting g ⟨w.literal, g.place w.scope⟩ (c.inHeap g) =
      (do let _ ← checkBlock g.inHeap (g.place c.scopes.size) w.literal.body) (entered.inHeap g) := by
    have hopen : (c.forget.inHeap g).extend ((c.forget.inHeap g).chain (g.place w.scope)) frame =
        entered.inHeap g := by
      rw [CheckState.chain_place (hsize ▸ hw), CheckState.extend_inHeap]
    rw [← hopen, ← hsize, ← CheckState.size_inHeap, ← CheckState.forget_inHeap hc]
    rfl
  rw [hx, hx', hout]
  exact ⟨rfl, fun a c' h => ⟨(hranges a c' h).made, Nat.zero_le _, (hranges a c' h).waiting⟩⟩

theorem mirrors_checkAllWaiting (hg : g.Inside) (bodies turn : Nat) :
    Mirrors g 0 (checkAllWaiting g bodies turn) (heapAllWaiting g bodies turn) := by
  induction bodies generalizing turn with
  | zero => exact mirrors_pure ()
  | succ bodies ih =>
    intro c hc
    have hwaiting : (c.inHeap g).waiting[turn]? =
        c.waiting[turn]?.map fun w => ⟨w.literal, g.place w.scope⟩ := by
      simp only [CheckState.inHeap, Array.getElem?_map]
    obtain ⟨hnone, hx⟩ | ⟨w, hw, hx⟩ := checkAllWaiting_cases g bodies turn c
    · have hx' : heapAllWaiting g (bodies + 1) turn (c.inHeap g) = .ok () (c.inHeap g) := by
        rw [hnone, Option.map_none] at hwaiting
        simp only [heapAllWaiting, get_bind_apply, hwaiting]
        rfl
      rw [hx, hx']
      refine ⟨rfl, ?_⟩
      rintro _ _ ⟨⟩
      exact hc
    · have hx' : heapAllWaiting g (bodies + 1) turn (c.inHeap g) =
          (do heapWaiting g ⟨w.literal, g.place w.scope⟩
              heapAllWaiting g bodies (turn + 1)) (c.inHeap g) := by
        rw [hw, Option.map_some] at hwaiting
        simp only [heapAllWaiting, get_bind_apply, hwaiting]
      rw [hx, hx']
      obtain ⟨hout, hranges⟩ := mirrors_checkWaiting hg hc (hc.waiting w (Array.mem_of_getElem? hw))
      refine ⟨bind_inHeap hout fun a c₁ h => (ih (turn + 1) c₁ (hranges a c₁ h)).1, fun u c' h => ?_⟩
      obtain ⟨a, c₁, hturn, h⟩ := bind_eq_ok h
      exact (ih (turn + 1) c₁ (hranges a c₁ hturn)).2 u c' h

theorem heapCheck_eq (hg : g.Inside) (n : Node) :
    heapCheck g n (.ofStore g.store) = outcomeInHeap g (check g n .initial) := by
  let entered := CheckState.initial.extend [] .empty
  have hchain : (CheckState.ofStore g.store).chain g.scope = g.store.chain g.scope := by
    simp only [CheckState.chain, CheckState.ofStore, Array.getElem?_map, Store.chain]
    cases g.store.scopes[g.scope]? <;> rfl
  have hinitial : CheckState.initial.inHeap g = .ofStore g.store := by
    simp [CheckState.inHeap, CheckState.initial, CheckState.ofStore]
  have hopen : (CheckState.ofStore g.store).extend ((CheckState.ofStore g.store).chain g.scope)
      .empty = entered.inHeap g := by
    rw [hchain, ← hinitial]
    exact CheckState.extend_inHeap g .initial [] .empty
  have hsize : (CheckState.ofStore g.store).scopes.size = g.place 0 := by
    rw [CheckState.size_ofStore]
    rfl
  have hnode := (mirrors_relates hg).checkNode Nat.zero_lt_one n (meets_anything n)
  have hinitial : CheckState.initial.Ranges 0 :=
    ⟨fun i => by simp [CheckState.initial], Nat.le_refl _, fun _ hw => absurd hw (Array.not_mem_empty _)⟩
  have hentered : entered.Ranges 1 := hinitial.extend [] .empty
  obtain ⟨hout, hranges⟩ := hnode entered hentered
  let rest (f : Finding) (waiting : Checking Unit) : Checking Value := do
    waiting
    match f with
    | .known v => return v
    | .unknown => return .absent
  have hrest (f : Finding) : Mirrors g 0 (rest f (checkAllWaiting g n.literalCount 0))
      (rest f (heapAllWaiting g n.literalCount 0)) := by
    refine (mirrors_checkAllWaiting hg _ _).bind fun _ => ?_
    cases f <;> exact mirrors_pure _
  have hx : check g n .initial =
      (do let f ← checkNode g 0 n; rest f (checkAllWaiting g n.literalCount 0)) entered := rfl
  have hx' : heapCheck g n (.ofStore g.store) =
      (do let f ← checkNode g.inHeap (g.place 0) n
          rest f (heapAllWaiting g n.literalCount 0)) (entered.inHeap g) := by
    rw [← hopen, ← hsize]
    rfl
  rw [hx, hx']
  refine bind_inHeap hout fun f c h => ?_
  exact (hrest f c ⟨(hranges f c h).made, Nat.zero_le _, (hranges f c h).waiting⟩).1

end Checking

end Mirror

section Host

variable {g : Ground} {host : Host}

def Ground.withHost (g : Ground) (host : Host) : Ground := { g with host }

theorem eq_relates (hhost : ∀ n, n.isPure = true → host n = g.host n) :
    Checking.anything.Relates (fun _ _ x x' => x' = x) g (g.withHost host) id where
  closures := rfl
  scope := rfl
  pure _ := rfl
  bind hx hf := by rw [hx, funext hf]
  fail _ _ := rfl
  lookup _ _ := rfl
  assign _ _ _ := rfl
  wait _ _ := rfl
  native {_ S span} _ _ n args := by
    rw [checkNative, checkNative]
    split
    · next hn =>
      have hask (vs : List Value) :
          askNative (g.withHost host) S span n vs = askNative g S span n vs := by
        unfold askNative
        rw [show (g.withHost host).host n = g.host n from hhost n hn]
        rfl
      cases Finding.values? args with
      | none => rfl
      | some vs => exact hask vs
    · rfl
  visit _ := rfl
  branch {_ S body body'} _ hbody := by
    have hbodies : body' = body := funext hbody
    rw [hbodies]
    rfl

/-- No native is called in a check but those that are pure. -/
theorem check_withHost (hhost : ∀ n, n.isPure = true → host n = g.host n) (n : Node) :
    check (g.withHost host) n = check g n := by
  have hrelates := eq_relates hhost
  have hwaiting (w : Waiting) : checkWaiting (g.withHost host) w = checkWaiting g w := by
    have hblock (scope : ScratchId) :
        checkBlock (g.withHost host) scope w.literal.body = checkBlock g scope w.literal.body :=
      hrelates.checkBlock (Nat.lt_succ_self scope) w.literal.body
        (Checking.meets_anything (.block w.literal.body))
    simp only [checkWaiting, hblock]
  have hall (bodies turn : Nat) :
      checkAllWaiting (g.withHost host) bodies turn = checkAllWaiting g bodies turn := by
    induction bodies generalizing turn with
    | zero => rfl
    | succ bodies ih => simp only [checkAllWaiting, hwaiting, ih]
  have hnode (scope : ScratchId) : checkNode (g.withHost host) scope n = checkNode g scope n :=
    hrelates.checkNode (Nat.lt_succ_self scope) n (Checking.meets_anything n)
  simp only [check, hnode, hall]

/-- Pure natives print nothing. -/
def Host.PureSilent (host : Host) : Prop :=
  ∀ n s scope args written, n.isPure = true → (host n s scope args written).writes = []

theorem primitivesOn_pureSilent (writer : Writer) : (primitivesOn writer).PureSilent := by
  intro n s scope args written hn
  unfold primitivesOn
  split
  · next p hp =>
    obtain rfl := Primitive.ofNative?_eq_some_iff.mp hp
    unfold Primitive.call
    split
    · rfl
    · cases hn
    · split <;> rfl
    · rfl
  · rfl

end Host

/-- A statement of a tree, or what stands for a missing one. -/
def Node.HasStmt (n : Node) (s : Stmt) : Prop :=
  s = .missing ∨ ∃ visit ∈ n.walk fun _ => true, visit.node = .stmt s

/-- Terms that a tree meets, and with it only what stands in it. -/
def Node.terms (n : Node) : Terms :=
  ⟨fun _ _ => True, fun _ => True, True, n.HasStmt, fun _ _ => trivial, fun _ => trivial⟩

theorem Node.meets_terms (n : Node) : n.Meets n.terms := by
  have hlenient : n.terms.Lenient := ⟨fun _ _ => trivial, fun _ => trivial, .inl rfl⟩
  refine n.meets_of_walk hlenient fun visit hvisit => ⟨fun _ => trivial, fun s hs => ?_⟩
  exact .inr ⟨visit, hvisit, hs⟩

namespace Checking

/-- The state that a check leaves behind, whether it went well or not. -/
def after {α : Type} (x : Checking α) (c : CheckState) : CheckState :=
  match x c with
  | .ok _ c => c
  | .error _ c => c

theorem Keeps.after {α : Type} {I : CheckState → Prop} {F : Failure → Prop} {x : Checking α}
    (hx : Keeps I F x) {c : CheckState} (hc : I c) : I (x.after c) := by
  obtain ⟨hok, herror⟩ := hx c hc
  rw [Checking.after]
  split
  · next h => exact hok _ _ h
  · next h => exact (herror _ _ h).1

theorem after_heapCheck {g : Ground} (hg : g.Inside) (n : Node) :
    (heapCheck g n).after (.ofStore g.store) = ((check g n).after .initial).inHeap g := by
  rw [after, heapCheck_eq hg, after]
  cases check g n .initial <;> rfl

/-- A check visits statements of the tree alone, and prints nothing if pure natives do not. -/
theorem check_quiet {g : Ground} (hsilent : g.host.PureSilent) (n : Node) :
    (∀ s ∈ ((check g n).after .initial).visited, n.HasStmt s) ∧
      ((check g n).after .initial).written = #[] := by
  have hmaintains : n.terms.Maintains g (fun c => c.Meets n.terms ∧ c.written = #[])
      fun _ => True :=
    { scopes := fun _ _ hc => ⟨⟨hc.1.waiting, hc.1.visited⟩, hc.2⟩
      wait := fun hc hw => ⟨hc.1.wait hw, hc.2⟩
      visit := fun hc hs => ⟨hc.1.visit hs, hc.2⟩
      write := fun {c m s i args} hc hm => by
        refine ⟨⟨hc.1.waiting, hc.1.visited⟩, ?_⟩
        dsimp only
        rw [hsilent m s i args c.written hm, hc.2]
        rfl
      body := fun hc hw => hc.1.waiting _ hw
      fail := fun _ _ => trivial
      native := fun _ _ => trivial }
  have hkept := (keeps_check hmaintains n.meets_terms).after ⟨.initial _, rfl⟩
  exact ⟨hkept.1.visited, hkept.2⟩

end Checking

theorem Session.after_check {l : Live} (hsilent : l.session.options.setting.host.PureSilent) :
    Running.after Session.check l = l := by
  obtain ⟨session, world⟩ := l
  rw [Running.after, Session.check]
  cases session.program with
  | error stop => rfl
  | ok p =>
    let g : Ground := ⟨session.options.setting.host, world.store, session.scope⟩
    have hwritten := (Checking.check_quiet (g := g) hsilent (.program p)).2
    dsimp only
    rw [Checking.after] at hwritten
    cases h : Stepwise.check g (.program p) .initial with
    | ok v c =>
      rw [h] at hwritten
      dsimp only at hwritten
      simp only [hwritten, Array.append_empty]
    | error f c =>
      rw [h] at hwritten
      dsimp only at hwritten
      simp only [hwritten, Array.append_empty]

/-- A check has no effect, as long as pure natives print nothing. Though it works in one heap with the
store, it leaves every scope there as it was, whether it goes well or not, and its record of scopes to
forget holds none of them. The scopes that it makes lie inside each other and the scope that is checked
against; what it visits are statements of the tree, so no function that is bound is entered; no native is
called that is not pure, and nothing is printed. A session is as it was before: its place, its result and
its loops. -/
theorem check_has_no_effect {host : Host} (hsilent : host.PureSilent) :
    (∀ (store : Store) (scope : ScopeId) (n : Node),
      (∀ i ∈ store.chain scope, i < store.scopes.size) →
      let g : Ground := ⟨host, store, scope⟩
      let before := CheckState.ofStore store
      let after := (heapCheck g n).after before
      heapCheck g n before = outcomeInHeap g (check g n .initial) ∧
      (∀ i < store.scopes.size, after.scopes[i]? = before.scopes[i]?) ∧
      (∀ i ∈ after.made, store.scopes.size ≤ i) ∧
      (∀ i, store.scopes.size ≤ i → ∀ j ∈ after.chain i,
        store.scopes.size ≤ j ∨ j ∈ store.chain scope) ∧
      (∀ s ∈ after.visited, n.HasStmt s) ∧ after.written = #[] ∧
      ∀ host' : Host, (∀ m, m.isPure = true → host' m = host m) →
        check ⟨host', store, scope⟩ n = check g n) ∧
    ∀ l : Live, l.session.options.setting.host = host → Running.after Session.check l = l := by
  constructor
  · intro store scope n hinside g before after
    have hinside : g.Inside := hinside
    have hafter : after = ((check g n).after .initial).inHeap g := Checking.after_heapCheck hinside n
    obtain ⟨hvisited, hwritten⟩ := Checking.check_quiet (g := g) hsilent n
    refine ⟨Checking.heapCheck_eq hinside n, fun i hi => ?_, fun i hi => ?_, fun i hi j hj => ?_, ?_, ?_,
      fun host' hhost => check_withHost (g := g) hhost n⟩
    · rw [hafter]
      exact CheckState.getElem?_inHeap_of_lt hi
    · rw [hafter] at hi
      obtain ⟨k, -, rfl⟩ := Array.mem_map.mp hi
      exact Nat.le_add_right _ _
    · obtain ⟨k, rfl⟩ := Nat.exists_eq_add_of_le hi
      rw [hafter] at hj
      exact CheckState.mem_chain_place hj
    · rw [hafter]
      exact hvisited
    · rw [hafter]
      exact hwritten
  · intro l hl
    exact Session.after_check (hl ▸ hsilent)

/-- A tree assigns a name that is bound in its scope, and where a function that it calls was made. The check
makes two scopes for that, behind the three that there are. -/
theorem check_has_no_effect_assigning :
    let f : Symbol := ⟨.nowhere, [102]⟩
    let y : Symbol := ⟨.nowhere, [121]⟩
    let add : Expr := .call .nowhere (.symbol ⟨.nowhere, Primitive.add.name⟩)
      [.symbol y, .number .nowhere 1]
    let c : Closure := ⟨0, ⟨.nowhere, none, .of .nowhere [.set .nowhere (some y) add]⟩, 1⟩
    let store := ((Store.empty.addTopLevel.extend 0 (.ofList [(y.name, .integer 1)])).extend 0
      (.ofList [(f.name, .function c), (y.name, .integer 2)])).countClosure
    let n : Node := .program ⟨.nowhere, [.set .nowhere (some y) add,
      .times .nowhere (.symbol y) (.of .nowhere [.set .nowhere (some f) (.null .nowhere)]),
      .call .nowhere (.symbol f) []]⟩
    let after := (heapCheck ⟨primitives, store, 2⟩ n).after (.ofStore store)
    after.scopes.size = 5 ∧
      (∀ i < 3, after.scopes[i]? = (CheckState.ofStore store).scopes[i]?) ∧ after.written = #[] := by
  intro f y add c store n after
  have hinside : ∀ i ∈ store.chain 2, i < store.scopes.size := by decide
  obtain ⟨-, hscopes, -, -, -, hwritten, -⟩ :=
    (check_has_no_effect (primitivesOn_pureSilent .unfailing)).1 store 2 n hinside
  have hsize : after.scopes.size = 5 := by
    dsimp only [after, n, store, c, add, y, f]
    cbv
  exact ⟨hsize, hscopes, hwritten⟩

end Stepwise
