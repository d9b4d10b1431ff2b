import Stepwise.Proofs.Ownership

/-! A session that is reset to a new scope is as good as new. Whatever has been done with it, and whatever
its host has bound in its scope, nothing has written the top level that its scopes are made in, and what
else is left of the past nobody refers to any more. -/

namespace Stepwise

open Execution

/-- A value that the host of a session binds: one that it has brought, a closure or a loop stack that it
makes, or one that it has got from the session. -/
inductive Gift where
  | given (v : Value)
  | closure (literal : Literal) (inside : Bool)
  | loops (frames : LoopStack)
  | bound (name : Name)
  | result

namespace Gift

/-- The store with the gift made. -/
def store (l : Live) : Gift → Store
  | .closure _ _ => l.world.store.countClosure
  | .loops frames => l.world.store.addStack frames
  | .given _ | .bound _ | .result => l.world.store

def value (l : Live) : Gift → Value
  | .given v => v
  | .closure literal inside =>
    .function (l.world.store.closure literal (if inside then l.session.scope else l.session.options.root))
  | .loops _ => .loops l.world.store.nextStack
  | .bound name => (l.world.store.get? l.session.scope name).getD .absent
  | .result => l.session.result

/-- The host brings nothing that refers to scopes, loop stacks or closures of a certain store. -/
def IsPortable : Gift → Prop
  | .given v => v.isScalar
  | _ => True

end Gift

/-- A session is asked for something and canceled after so many polls, or its host binds a name. -/
inductive Deed where
  | ask (polls : Nat) (request : Request)
  | bind (name : Name) (gift : Gift)

namespace Deed

def perform (l : Live) : Deed → Live
  | .ask polls request => (l.withPolls polls).perform request.action
  | .bind name gift => l.withStore fun _ => (gift.store l).set l.session.scope name (gift.value l)

def answer (l : Live) : Deed → Answer
  | .ask polls request => (l.withPolls polls).answer request
  | .bind _ _ => .done

def IsPortable : Deed → Prop
  | .ask _ _ => True
  | .bind _ gift => gift.IsPortable

end Deed

/-- The scope is linked to itself, and nothing else to anything. -/
def Link.only (id : ScopeId) : Link where
  scope i j := i = id ∧ j = id
  stack _ _ := False
  closure _ _ := False

/-- A scope with nothing around it, in which only scalars are bound, refers to nothing else. -/
theorem Store.linked_only {s t : Store} {id : ScopeId} {scope : Scope} (hs : s.scopes[id]? = some scope)
    (ht : t.scopes[id]? = some scope) (hscalar : ∀ entry ∈ scope.bindings.entries, entry.2.isScalar)
    (houter : scope.outer = []) : s.Linked (.only id) t where
  scopes := by
    rintro i j ⟨rfl, rfl⟩
    refine ⟨scope, scope, hs, ht, ?_, ?_⟩
    · exact List.forall₂_same.mpr fun entry hentry => ⟨rfl, Value.linked_self (hscalar entry hentry)⟩
    · rw [houter]
      exact .nil
  loops h := h.elim
  closures h := h.elim
  scope_unique := ⟨fun _ _ _ ha hb => ha.1.trans hb.1.symm, fun _ _ _ ha hb => ha.2.trans hb.2.symm⟩
  stack_unique := ⟨fun _ _ _ h => h.elim, fun _ _ _ h => h.elim⟩
  closure_unique := ⟨fun _ _ _ h => h.elim, fun _ _ _ h => h.elim⟩

namespace Live

def undergo (l : Live) (deeds : List Deed) : Live := deeds.foldl Deed.perform l

def answers : Live → List Deed → List Answer
  | _, [] => []
  | l, deed :: deeds => deed.answer l :: answers (deed.perform l) deeds

/-- The session lives in a scope of its own, and its top level is as it was made. -/
structure Rooted (base : Store) (o : SessionOptions) (l : Live) : Prop where
  options : l.session.options = o
  housed : l.Housed
  scope : base.nextScope < l.session.scope
  top : l.world.store.scopes[base.nextScope]? = base.addTopLevel.scopes[base.nextScope]?

variable {base : Store} {o : SessionOptions} {l l' m m' : Live} {k : Link}

theorem Rooted.request (h : l.Rooted base o) (hseeds : o.SeedsNoLoops) (hhost : o.setting.host.PureSilent)
    (request : Request) : (l.perform request.action).Rooted base o := by
  have hmoves := perform_moves h.options hseeds hhost h.housed request
  have hlt : base.nextScope < l.world.store.nextScope := Nat.lt_trans h.scope h.housed.scope_lt
  refine ⟨hmoves.options.trans h.options, hmoves.housed, ?_, ?_⟩
  · obtain heq | hnew := hmoves.scope
    · rw [heq]
      exact h.scope
    · exact Nat.lt_of_lt_of_le hlt hnew
  · exact (hmoves.touches.others _ hlt (Nat.ne_of_lt h.scope)).trans h.top

theorem Gift.scopes_store (l : Live) (gift : Gift) : (gift.store l).scopes = l.world.store.scopes := by
  cases gift <;> rfl

theorem Rooted.bind (h : l.Rooted base o) (name : Name) (gift : Gift) :
    ((Deed.bind name gift).perform l).Rooted base o where
  options := h.options
  housed := by
    refine ⟨?_, h.housed.loaded⟩
    change l.session.scope < ((gift.store l).set l.session.scope name (gift.value l)).scopes.size
    rw [Store.size_set, Gift.scopes_store]
    exact h.housed.scope_lt
  scope := h.scope
  top := by
    change ((gift.store l).set l.session.scope name (gift.value l)).scopes[base.nextScope]? = _
    rw [Store.getElem?_set, if_neg (Nat.ne_of_gt h.scope), Gift.scopes_store]
    exact h.top

theorem Rooted.deed (h : l.Rooted base o) (hseeds : o.SeedsNoLoops) (hhost : o.setting.host.PureSilent)
    (deed : Deed) : (deed.perform l).Rooted base o := by
  cases deed with
  | ask polls request =>
    have hpolls : (l.withPolls polls).Rooted base o :=
      ⟨h.options, ⟨h.housed.scope_lt, h.housed.loaded⟩, h.scope, h.top⟩
    exact hpolls.request hseeds hhost request
  | bind name gift => exact h.bind name gift

theorem Rooted.undergo (h : l.Rooted base o) (hseeds : o.SeedsNoLoops) (hhost : o.setting.host.PureSilent)
    (deeds : List Deed) : (l.undergo deeds).Rooted base o := by
  induction deeds generalizing l with
  | nil => exact h
  | cons deed deeds ih => exact ih (h.deed hseeds hhost deed)

/-- A gift of the host is the same for both sessions. -/
theorem Abreast.gift (h : m.Abreast m' k l l') (hroot : k.scope l.session.options.root l.session.options.root)
    {gift : Gift} (hgift : gift.IsPortable) :
    ∃ k', k ≤ k' ∧ (gift.store l).Linked k' (gift.store l') ∧ (gift.value l).Linked k' (gift.value l') := by
  have hstore := h.linked.store
  cases gift with
  | given v => exact ⟨k, le_rfl, hstore, Value.linked_self hgift⟩
  | closure literal inside =>
    have hscope : k.scope (if inside then l.session.scope else l.session.options.root)
        (if inside then l'.session.scope else l'.session.options.root) := by
      rw [h.linked.options]
      split
      · exact h.linked.scope
      · exact hroot
    exact ⟨_, k.le_withClosure _ _, hstore.countClosure, _, rfl, .inr ⟨rfl, rfl⟩, rfl, hscope⟩
  | loops frames => exact ⟨_, k.le_withStack _ _, hstore.addStack frames, _, rfl, .inr ⟨rfl, rfl⟩⟩
  | bound name =>
    refine ⟨k, le_rfl, hstore, ?_⟩
    have hget := hstore.get? h.linked.scope name
    rw [Gift.value, Gift.value]
    generalize l.world.store.get? l.session.scope name = x at hget
    generalize l'.world.store.get? l'.session.scope name = y at hget
    cases hget with
    | none => exact Value.linked_self rfl
    | some hv => exact hv
  | result => exact ⟨k, le_rfl, hstore, h.linked.result⟩

theorem Abreast.deed (ho : l.session.options = o) {writer : Writer}
    (hhost : o.setting.host = primitivesOn writer)
    (hm : (primitivesOn writer).Confuses m.world.written m'.world.written)
    (hroot : k.scope o.root o.root) (hseeds : ∀ entry ∈ o.seeds.entries, entry.2.isScalar)
    (h : m.Abreast m' k l l') {deed : Deed} (hdeed : deed.IsPortable) :
    ∃ k', k ≤ k' ∧ m.Abreast m' k' (deed.perform l) (deed.perform l') ∧
      (deed.answer l).Linked k' (deed.answer l') := by
  cases deed with
  | ask polls request =>
    obtain ⟨k', honward, h', hanswer⟩ :=
      (h.withPolls polls).perform (l := l.withPolls polls) ho hhost hm hroot hseeds request
    exact ⟨k', honward.le, h', hanswer⟩
  | bind name gift =>
    obtain ⟨k', hle, hstore, hvalue⟩ := h.gift (ho ▸ hroot) hdeed
    have hset := hstore.set (Link.scope_le hle h.linked.scope) name hvalue
    refine ⟨k', hle, ⟨⟨h.linked.options, h.linked.loaded, Link.scope_le hle h.linked.scope, h.linked.location,
      h.linked.result.mono hle, hset⟩, h.polls, h.written, h.trace⟩, .done⟩

/-- What is done to both sessions comes to the same. -/
theorem Abreast.undergo (hl : l.Rooted base o) {writer : Writer}
    (hhost : o.setting.host = primitivesOn writer)
    (hm : (primitivesOn writer).Confuses m.world.written m'.world.written)
    (hroot : k.scope o.root o.root) (hseeds : ∀ entry ∈ o.seeds.entries, entry.2.isScalar)
    (h : m.Abreast m' k l l') {deeds : List Deed} (hdeeds : ∀ deed ∈ deeds, deed.IsPortable) :
    ∃ k', k ≤ k' ∧ m.Abreast m' k' (l.undergo deeds) (l'.undergo deeds) ∧
      List.Forall₂ (Answer.Linked k') (l.answers deeds) (l'.answers deeds) := by
  induction deeds generalizing k l l' with
  | nil => exact ⟨k, le_rfl, h, .nil⟩
  | cons deed deeds ih =>
    rw [List.forall_mem_cons] at hdeeds
    obtain ⟨k₁, hle₁, h₁, hanswer⟩ := h.deed hl.options hhost hm hroot hseeds hdeeds.1
    have hl₁ := hl.deed (SessionOptions.seedsNoLoops_of_scalar hseeds)
      (hhost ▸ primitivesOn_pureSilent writer) deed
    obtain ⟨k₂, hle₂, h₂, hanswers⟩ := ih hl₁ (Link.scope_le hle₁ hroot) h₁ hdeeds.2
    exact ⟨k₂, hle₁.trans hle₂, h₂, .cons (hanswer.mono hle₂) hanswers⟩

/-- Nothing of the top level has changed, and it refers to nothing else. -/
theorem Rooted.linked (h : l.Rooted base o) :
    l.world.store.Linked (.only base.nextScope) base.addTopLevel := by
  have hscope : base.addTopLevel.scopes[base.nextScope]? =
      some ⟨.ofList (Primitive.all.map fun p => (p.name, .native p.native)), []⟩ := by
    simp [Store.addTopLevel, Store.addRoot, Store.nextScope]
  refine Store.linked_only (h.top.trans hscope) hscope ?_ rfl
  exact List.all_eq_true.mp (by decide)

end Live

end Stepwise
