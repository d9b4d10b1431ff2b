import Stepwise.Proofs.Coherence
import Stepwise.Proofs.Depth
import Stepwise.Proofs.Shelter

/-! Programs without `forever` come to an end, evaluated or stepped, whatever the limit on calls is.
Neither the tree nor a function that the namespace leads to may loop forever. Stepping keeps the frames
of its loops on a stack in the store, so there it takes one thing more: the program leaves the binding
of its loop stack alone, or no stack that it can get hold of has the frame of an endless loop on it. -/

namespace Stepwise

open Execution

/-- Some loop in a tree, in the body of a function perhaps, has `forever` for its count. -/
def Node.hasForever (n : Node) : Bool :=
  (n.walk fun _ => true).any fun visit => visit.node.loopsForever

def Terms.finite : Terms :=
  ⟨fun _ _ => True, fun _ => True, False, fun _ => True, fun _ _ => trivial, fun _ => trivial⟩

theorem finite_lenient : Terms.finite.Lenient := ⟨fun _ _ => trivial, fun _ => trivial, trivial⟩

theorem allows_finite {visits : List Visit}
    (h : visits.any (fun visit => visit.node.loopsForever) = false) :
    ∀ visit ∈ visits, Terms.finite.Allows visit.node := by
  intro visit hvisit
  refine ⟨fun hforever => ?_, fun _ _ => trivial⟩
  rw [List.any_eq_false] at h
  exact absurd hforever (h visit hvisit)

theorem Block.meets_finite (b : Block) (h : (Node.block b).hasForever = false) : b.Meets .finite :=
  b.meets_of_walk finite_lenient (allows_finite h)

theorem Program.allMeet_finite {p : Program} (h : (Node.program p).hasForever = false) :
    Stmt.AllMeet .finite p.body := by
  simp only [Node.hasForever, Node.walk, Visit.enter, if_true, List.any_cons,
    Bool.or_eq_false_iff] at h
  exact Stmt.allMeet_of_walk finite_lenient p.body (allows_finite h.2)

/-- The scopes that one can come to from some: by a function that is bound in such a scope or around
it, to the scope where it was made. -/
inductive Store.Visible (s : Store) (roots : ScopeId → Prop) : ScopeId → Prop
  | root {i : ScopeId} : roots i → s.Visible roots i
  | captured {i j : ScopeId} {x : Name} {c : Closure} : s.Visible roots i → j ∈ s.chain i →
    s.lookup? j x = some (.function c) → s.Visible roots c.scope

def Store.Offers (s : Store) (roots : ScopeId → Prop) (v : Value) : Prop :=
  ∃ i, s.Visible roots i ∧ ∃ j ∈ s.chain i, ∃ x, s.lookup? j x = some v

def handed (scope : ScopeId) (args : List Value) (i : ScopeId) : Prop :=
  i = scope ∨ ∃ c, .function c ∈ args ∧ c.scope = i

/-- A function or loop stack that a native answers with is one it was handed, or could look up from
there; or it is a function without `forever` in a scope of these. -/
def Host.Relays (host : Host) : Prop :=
  ∀ n s scope args written v, (host n s scope args written).result = .ok v → v.isScalar = true ∨ v ∈ args ∨
    s.Offers (handed scope args) v ∨ ∃ c, v = .function c ∧
      (Node.block c.literal.body).hasForever = false ∧ s.Visible (handed scope args) c.scope

theorem primitives_relays : primitives.Relays := fun _ _ _ _ _ _ h => .inl (primitivesOn_isScalar h)

namespace Realm

variable {r : Realm} {s : Store}

theorem Upholds.home_of_visible (h : r.Upholds s) {roots : ScopeId → Prop}
    (hroots : ∀ i, roots i → r.home i) {i : ScopeId} (hi : s.Visible roots i) : r.home i := by
  induction hi with
  | root hroot => exact hroots _ hroot
  | captured _ hj hlookup ih =>
    have hadmits : r.Admits (.function _) := h.bound _ ih _ hj _ _ hlookup
    exact hadmits.2

theorem keeps_of_relays {host : Host} (hhost : host.Relays) (hterms : r.terms = .finite) :
    host.Keeps r := by
  intro n s scope args written hs hscope hargs
  refine ⟨fun v hv => ?_, fun f span _ _ d _ => by rw [hterms]; trivial⟩
  have hroots : ∀ i, handed scope args i → r.home i := by
    rintro i (rfl | ⟨c, hc, rfl⟩)
    · exact hscope
    · have hadmits : r.Admits (.function c) := hargs _ hc
      exact hadmits.2
  obtain hscalar | hmem | ⟨i, hi, j, hj, x, hlookup⟩ | ⟨c, rfl, hbody, hvisible⟩ :=
    hhost n s scope args written v hv
  · exact admits_of_isScalar hscalar
  · exact hargs v hmem
  · exact hs.bound i (hs.home_of_visible hroots hi) j hj x v hlookup
  · refine ⟨?_, hs.home_of_visible hroots hvisible⟩
    rw [hterms]
    exact c.literal.body.meets_finite hbody

/-- What the namespace leads to, and everything made later. -/
def below (s : Store) (scope : ScopeId) (loose : Nat → Prop) (frame : LoopFrame → Prop)
    (counted : ∀ n, frame (.counted n)) (next : ∀ {f : LoopFrame}, frame f → frame f.next) : Realm where
  terms := .finite
  home i := s.Visible (· = scope) i ∨ s.scopes.size ≤ i
  held ref := loose ref ∨ s.loopStacks.size ≤ ref
  frame := frame
  counted := counted
  endless := False.elim
  next := next

theorem upholds_below {scope : ScopeId} {loose : Nat → Prop} {frame : LoopFrame → Prop}
    {counted : ∀ n, frame (.counted n)} {next : ∀ {f : LoopFrame}, frame f → frame f.next}
    (hheap : ∀ c, s.Offers (· = scope) (.function c) → (Node.block c.literal.body).hasForever = false)
    (hloose : ∀ ref, s.Offers (· = scope) (.loops ref) → loose ref)
    (hframes : ∀ ref, loose ref → ∀ f ∈ s.stack ref, frame f) :
    (below s scope loose frame counted next).Upholds s where
  bound i hi j hj x v hv := by
    obtain hi | hi := hi
    · have hoffers : s.Offers (· = scope) v := ⟨i, hi, j, hj, x, hv⟩
      cases v with
      | function c =>
        exact ⟨c.literal.body.meets_finite (hheap c hoffers), .inl (.captured hi hj hv)⟩
      | loops ref => exact .inl (hloose ref hoffers)
      | _ => trivial
    · rw [Store.chain, Array.getElem?_eq_none hi] at hj
      cases hj
  framed ref href f hf := by
    obtain href | href := href
    · exact hframes ref href f hf
    · rw [Store.stack_eq_nil_of_size_le href] at hf
      cases hf
  nextScope i hi := .inr hi
  nextStack ref href := .inr href

end Realm

section Stepping

variable {setting : Setting} {scope : ScopeId} {p : Program} {loc : Location} {w w' : World}
  {r : Stepped}

theorem step_ok_cases (hloc : loc.done = false)
    (h : setting.step scope (.program p) loc w = .ok r w') :
    ∃ w₁ s, w₁.store = w.store ∧ setting.stepBody scope loc p.body w₁ = .ok s w' ∧ r = s.closed := by
  rw [step_program hloc] at h
  obtain ⟨_, w₁, hpoll, h⟩ := bind_eq_ok h
  obtain ⟨s, hs, rfl⟩ := map_eq_ok h
  exact ⟨w₁, s, poll_ok_store hpoll, guarded_eq_ok hs, rfl⟩

/-- The program is over after a step among loops with a count, or less is left to do. -/
theorem step_advances (hloc : loc.done = false)
    (htame : Tame (w.store.frames scope) (p.block.nesting loc))
    (h : setting.step scope (.program p) loc w = .ok r w') :
    r.next.done = true ∨ Behind (p.block.togo w'.store.due 0 r.next) (p.block.togo w.store.due 0 loc) := by
  obtain ⟨w₁, s, hstore, hs, rfl⟩ := step_ok_cases hloc h
  rw [← hstore] at htame
  rw [Stepped.closed]
  split
  · exact .inl rfl
  · next hdone =>
    have hadvances := stepBlock_advances (invokeAt_spares setting setting.depth) p.block 0 []
      (.inl rfl) htame hs
    obtain hpast | ⟨-, hbehind⟩ := hadvances
    · have hhead : loc.head = 0 := by simpa [Location.done] using hloc
      rw [hpast, Location.past, hhead] at hdone
      exact absurd rfl hdone
    · rw [Store.under_nil, Store.under_nil, hstore] at hbehind
      exact .inr hbehind

theorem step_shelters (hloc : loc.done = false) (hp : Stmt.AllMeet .finite p.body)
    (hassigned : loopBinding ∉ Stmt.assignedIn p.body) (hscope : scope < w.store.scopes.size)
    (htame : Tame (w.store.frames scope) (p.block.nesting loc))
    (h : setting.step scope (.program p) loc w = .ok r w') :
    scope < w'.store.scopes.size ∧
      (r.next.done = true ∨ Tame (w'.store.frames scope) (p.block.nesting r.next)) := by
  obtain ⟨w₁, s, hstore, hs, rfl⟩ := step_ok_cases hloc h
  rw [← hstore] at htame hscope
  have hinv := invokeAt_spares setting setting.depth
  have hfinite : ¬ Terms.finite.endless := not_false
  have hshelters := stepBlock_shelters hinv hfinite p.block hp hassigned hscope htame hs
  refine ⟨Nat.lt_of_lt_of_le hscope hshelters.size, ?_⟩
  rw [Stepped.closed]
  split
  · exact .inl rfl
  · next hdone =>
    refine .inr (hshelters.tame.resolve_left fun hpast => hdone ?_)
    have hhead : loc.head = 0 := by simpa [Location.done] using hloc
    rw [hpast, Location.past, hhead]
    rfl

/-- A condition on the place and the store that every step keeps, and under which every step returns
and the loops on the way have a count, makes stepping come to an end. -/
theorem stepsOut_of_kept {I : Location → Store → Prop}
    (hhalts : ∀ loc (m : Memory), I loc m.store → HaltsAt (setting.step scope (.program p) loc) m)
    (htame : ∀ loc s, I loc s → Tame (s.frames scope) (p.block.nesting loc))
    (hkept : ∀ loc w s w', I loc w.store → loc.done = false → s.next.done = false →
      setting.step scope (.program p) loc w = .ok s w' → I s.next w'.store)
    {a : Pause} (ha : I a.location a.memory.store) :
    ∃ r m', setting.StepsOut scope (.program p) a r m' := by
  have hlen (s : Store) (loc : Location) : (p.block.togo s.due 0 loc).length ≤ 2 * sizeOf p.block :=
    p.block.length_togo_le s.due 0 loc
  have hacc := acc_behind _ _ (hlen a.memory.store a.location)
  generalize htogo : p.block.togo a.memory.store.due 0 a.location = togo at hacc
  induction hacc generalizing a with
  | intro togo _ ih =>
    cases hdone : a.location.done with
    | true => exact ⟨.ok a.value, a.memory, a, .refl, hdone, rfl, rfl⟩
    | false =>
      obtain ⟨res, m', hends⟩ := hhalts a.location a.memory ha
      cases res with
      | error f => exact ⟨.error f, m', a, .refl, hdone, hends⟩
      | ok s =>
        let b : Pause := ⟨s.value, s.next, m'⟩
        have hto : setting.StepTo scope (.program p) a b := ⟨hdone, hends⟩
        cases hnext : s.next.done with
        | true => exact ⟨.ok s.value, m', b, .single hto, hnext, rfl, rfl⟩
        | false =>
          obtain ⟨used, hends⟩ := hends
          have hstep : setting.step scope (.program p) a.location (a.memory.world used) =
              .ok s (m'.world 0) := hends 0
          have hbehind := (step_advances hdone (htame _ _ ha) hstep).resolve_left (by simp [hnext])
          have hb : I b.location b.memory.store :=
            hkept _ _ _ _ ha hdone hnext hstep
          obtain ⟨r, m'', c, hreach, hend⟩ := ih _ ⟨hlen _ _, htogo ▸ hbehind⟩ hb rfl
          exact ⟨r, m'', c, .head hto hreach, hend⟩

end Stepping

namespace Store

/-- Nothing that one can look up from a scope, or from where such a function was made, is a function
with `forever` in it. -/
def IsFinite (s : Store) (scope : ScopeId) : Prop :=
  ∀ c, s.Offers (· = scope) (.function c) → (Node.block c.literal.body).hasForever = false

/-- A store with one scope that binds one name, to no function, offers no function. -/
theorem isFinite_of_single {s : Store} {x : Name} {v : Value} {scope : ScopeId}
    (hs : s.scopes[0]? = some ⟨.ofList [(x, v)], []⟩) (hsize : s.scopes.size = 1)
    (hv : ∀ c, v ≠ .function c) : s.IsFinite scope := by
  rintro c ⟨-, -, j, -, y, hy⟩
  cases j with
  | zero =>
    rw [Store.lookup?, Store.bindings, hs] at hy
    obtain ⟨-, rfl⟩ := Prod.mk.inj (List.mem_singleton.mp (Bindings.mem_of_get?_ofList hy))
    exact absurd rfl (hv c)
  | succ j =>
    rw [Store.lookup?, Store.bindings, Array.getElem?_eq_none (by omega)] at hy
    cases hy

/-- No loop stack that one can look up so has the frame of an endless loop on it. -/
def IsCounted (s : Store) (scope : ScopeId) : Prop :=
  ∀ ref, s.Offers (· = scope) (.loops ref) → ∀ f ∈ s.stack ref, f.forever = false

end Store

section

variable {setting : Setting} {scope : ScopeId} {p : Program} {m : Memory}

def Realm.ofNamespace (s : Store) (scope : ScopeId) : Realm :=
  .below s scope (fun _ => True) (fun _ => True) (fun _ => trivial) fun _ => trivial

theorem upholds_ofNamespace (hheap : m.store.IsFinite scope) :
    (Realm.ofNamespace m.store scope).Upholds m.store :=
  Realm.upholds_below hheap (fun _ _ => trivial) fun _ _ _ _ => trivial

theorem judges_ofNamespace (hhost : setting.host.Relays) (s : Store) (scope : ScopeId) :
    (Realm.ofNamespace s scope).Judges setting.host
      fun _ => Execution.Halts (Realm.ofNamespace s scope) :=
  (Realm.keeps_of_relays hhost rfl).halts not_false

theorem stepsOut_of_unassigned (hhost : setting.host.Relays) (hscope : scope < m.store.scopes.size)
    (hp : Stmt.AllMeet .finite p.body) (hheap : m.store.IsFinite scope)
    (hassigned : loopBinding ∉ Stmt.assignedIn p.body) :
    ∃ r m', setting.StepsOut scope (.program p) ⟨.absent, .start, m⟩ r m' := by
  let realm := Realm.ofNamespace m.store scope
  have hhome : realm.home scope := .inl (.root rfl)
  have hstep (loc : Location) := (judges_ofNamespace hhost m.store scope).step hhome hp loc
  let I (loc : Location) (s : Store) : Prop :=
    realm.Upholds s ∧ scope < s.scopes.size ∧ Tame (s.frames scope) (p.block.nesting loc)
  refine stepsOut_of_kept (I := I) (fun loc m hI => (hstep loc).2 m hI.1) (fun loc s hI => hI.2.2)
    (fun loc w s w' hI hloc hnext h => ?_) ⟨upholds_ofNamespace hheap, hscope, ?_⟩
  · have hafter := ((hstep loc).1 w hI.1).1
    rw [after_ok h] at hafter
    obtain ⟨hsize, htame⟩ := step_shelters hloc hp hassigned hI.2.1 hI.2.2 h
    exact ⟨hafter, hsize, htame.resolve_left (by simp [hnext])⟩
  · have hstart : p.block.nesting .start = 0 := Stmt.nestingAt_nil _ p.body
    rw [hstart]
    exact tame_zero _

theorem stepsOut_of_counted (hhost : setting.host.Relays) (hp : Stmt.AllMeet .finite p.body)
    (hheap : m.store.IsFinite scope) (hcounted : m.store.IsCounted scope) :
    ∃ r m', setting.StepsOut scope (.program p) ⟨.absent, .start, m⟩ r m' := by
  let realm := Realm.below m.store scope (fun ref => m.store.Offers (· = scope) (.loops ref))
    (fun f => f.forever = false) (fun _ => rfl) id
  have hhome : realm.home scope := .inl (.root rfl)
  have hkeeps : setting.host.Keeps realm := Realm.keeps_of_relays hhost rfl
  have hstep (loc : Location) := (hkeeps.halts not_false).step hhome hp loc
  refine stepsOut_of_kept (I := fun _ s => realm.Upholds s) (fun loc m hI => (hstep loc).2 m hI)
    (fun loc s hI => ?_) (fun loc w s w' hI _ _ h => ?_)
    (Realm.upholds_below hheap (fun _ href => href) hcounted)
  · intro f hf
    cases hloops : s.loops? scope with
    | none =>
      rw [Store.frames, hloops, List.take_nil] at hf
      cases hf
    | some ref =>
      rw [Store.frames_of_loops hloops] at hf
      exact hI.framed ref (hI.loops hhome hloops) f (List.mem_of_mem_take hf)
  · have hafter := ((hstep loc).1 w hI).1
    rwa [after_ok h] at hafter

/-- A program without `forever`, in a namespace that leads to no function with it, comes to an end.
Evaluation ends, with the failure that calls nest too deep or as it would under any higher limit; every
step returns, wherever it starts from; and steps from the start lead to the end of the program or to a
failure, unless the program takes up a loop stack on its own that has the frame of an endless loop. -/
theorem finite_programs_end (hhost : setting.host.Relays) (hscope : scope < m.store.scopes.size)
    (hp : (Node.program p).hasForever = false) (hheap : m.store.IsFinite scope) :
    (∃ r m', (setting.evaluate scope (.program p)).Ends m r m' ∧ ∀ limit, setting.depth ≤ limit →
      (∃ f, r = .error f ∧ TooDeep setting.depth f) ∨
        (Setting.evaluate ⟨setting.host, limit⟩ scope (.program p)).Ends m r m') ∧
    (∀ v loc b, setting.Reaches scope (.program p) ⟨v, loc, m⟩ b →
      ∃ r m', (setting.step scope (.program p) b.location).Ends b.memory r m') ∧
    (loopBinding ∉ Stmt.assignedIn p.body ∨ m.store.IsCounted scope →
      ∃ r m', setting.StepsOut scope (.program p) ⟨.absent, .start, m⟩ r m') := by
  have hp := Program.allMeet_finite hp
  have hjudges := judges_ofNamespace hhost m.store scope
  have hupholds := upholds_ofNamespace hheap
  have hhome : (Realm.ofNamespace m.store scope).home scope := .inl (.root rfl)
  refine ⟨?_, fun v loc b hreach => ?_, fun hloops => ?_⟩
  · obtain ⟨r, m', hends⟩ := (hjudges.evaluate hhome hp).2 m hupholds
    refine ⟨r, m', hends, fun limit hlimit => ?_⟩
    exact (evaluate_outlasts setting.host hlimit scope (.program p)).ends hends
  · have hb : (Realm.ofNamespace m.store scope).Upholds b.memory.store := by
      induction hreach with
      | refl => exact hupholds
      | tail _ hto ih => exact ((hjudges.step hhome hp _).1.ends ih hto.2).1
    exact (hjudges.step hhome hp b.location).2 b.memory hb
  · obtain hassigned | hcounted := hloops
    · exact stepsOut_of_unassigned hhost hscope hp hheap hassigned
    · exact stepsOut_of_counted hhost hp hheap hcounted

/-- A loop with the largest count there is calls a function that calls itself. The stack of the scope
has the frame of an endless loop, which is never taken off it. -/
theorem finite_programs_end_recursion :
    let f : Symbol := ⟨.nowhere, [102]⟩
    let again : Stmt := .call .nowhere (.symbol f) []
    let p : Program :=
      ⟨.nowhere, [.times .nowhere (.number .nowhere Int64.maxValue) (.of .nowhere [again])]⟩
    let c : Closure := ⟨0, ⟨.nowhere, none, .of .nowhere [again]⟩, 0⟩
    let s := ((Store.empty.addStack [.endless]).addRoot (.ofList [(f.name, .function c),
      (loopBinding, .loops 0)])).countClosure
    (∃ r m', (Setting.evaluate ⟨primitives, 5⟩ 0 (.program p)).Ends ⟨s, #[]⟩ r m') ∧
      ∃ r m', Setting.StepsOut ⟨primitives, 5⟩ 0 (.program p) ⟨.absent, .start, ⟨s, #[]⟩⟩ r m' := by
  intro f again p c s
  have hheap : s.IsFinite 0 := by
    rintro c ⟨-, -, j, -, x, hx⟩
    cases j with
    | zero =>
      have hmem := Bindings.mem_of_get?_ofList hx
      simp only [List.mem_cons, Prod.mk.injEq, List.not_mem_nil, or_false, Value.function.injEq,
        reduceCtorEq, and_false] at hmem
      obtain ⟨-, rfl⟩ := hmem
      decide
    | succ j => cases hx
  obtain ⟨⟨r, m', hends, -⟩, -, hsteps⟩ := @finite_programs_end ⟨primitives, 5⟩ 0 p ⟨s, #[]⟩
    primitives_relays (by decide) (by decide) hheap
  exact ⟨⟨r, m', hends⟩, hsteps (.inl (by decide))⟩

/-- Pauses from each of which a step leads to another one of them lead to no end. -/
theorem not_stepsOut_of_cycle {n : Node} {I : Pause → Prop}
    (hstep : ∀ a, I a → ∃ b, setting.StepTo scope n a b ∧ I b) {a : Pause} (ha : I a)
    (r : Except Failure Value) (m' : Memory) : ¬ setting.StepsOut scope n a r m' := by
  rintro ⟨b, hreach, hend⟩
  have hb : I b := by
    clear hend
    induction hreach with
    | refl => exact ha
    | @tail b c _ hto ih =>
      obtain ⟨c', hto', hc'⟩ := hstep b ih
      obtain ⟨hr, hm⟩ := hto.2.unique hto'.2
      obtain ⟨hv, hloc⟩ := Stepped.mk.inj (Except.ok.inj hr)
      have hsame : c = c' := by
        cases c
        cases c'
        congr
      exact hsame ▸ hc'
  obtain ⟨c, ⟨hdone, hc⟩, -⟩ := hstep b hb
  cases r with
  | ok v =>
    rw [hend.1] at hdone
    cases hdone
  | error f => cases (hend.2.unique hc).1

end

/-- An endless loop whose body does nothing takes all the polls there are. -/
theorem loopFrom_endless (v : Value) {frame : LoopFrame} (h : frame.forever = true) (last : Value)
    (m : Memory) (polls : Nat) :
    loopFrom (pure v) frame last (m.world polls) = .error .canceled (m.world 0) := by
  induction polls generalizing frame last with
  | zero =>
    rw [loopFrom_of_not_done (steady_pure v) (by simp [LoopFrame.done, h])]
    rfl
  | succ polls ih =>
    rw [loopFrom_of_not_done (steady_pure v) (by simp [LoopFrame.done, h])]
    exact @ih frame.next h v

/-- The first of both statements in a loop of one round has the scope take up a stack with the frame of
an endless loop. From there on the round that comes to its end is one of that loop. And a native may answer
with a function that loops forever, though nothing in the namespace does. -/
theorem programs_may_not_end :
    let other : Symbol := ⟨.nowhere, [111]⟩
    let swap : Stmt := .set .nowhere (some ⟨.nowhere, loopBinding⟩) (.symbol other)
    let p : Program :=
      ⟨.nowhere, [.times .nowhere (.number .nowhere 1) (.of .nowhere [swap, swap])]⟩
    let s := (Store.empty.addStack [.endless]).addRoot (.ofList [(other.name, .loops 0)])
    let make : Native := ⟨other.name, some 0, true⟩
    let loop : Block := .of .nowhere [.times .nowhere (.forever .nowhere) (.of .nowhere [])]
    let host : Host := fun _ _ scope _ _ => .value (.function ⟨0, ⟨.nowhere, none, loop⟩, scope⟩)
    let q : Program := ⟨.nowhere, [.call .nowhere (.call .nowhere (.symbol other) []) []]⟩
    let t := Store.empty.addRoot (.ofList [(other.name, .native make)])
    ((Node.program p).hasForever = false ∧ s.IsFinite 0 ∧
      ∀ r m', ¬ Setting.StepsOut ⟨primitives, 5⟩ 0 (.program p) ⟨.absent, .start, ⟨s, #[]⟩⟩ r m') ∧
    (Node.program q).hasForever = false ∧ t.IsFinite 0 ∧
      ∀ r m', ¬ (Setting.evaluate ⟨host, 5⟩ 0 (.program q)).Ends ⟨t, #[]⟩ r m' := by
  intro other swap p s make loop host q t
  refine ⟨⟨by decide, Store.isFinite_of_single rfl rfl (by simp), ?_⟩, by decide,
    Store.isFinite_of_single rfl rfl (by simp), ?_⟩
  · let held (k : Int64) : Store :=
      ((s.set 0 loopBinding (.loops 0)).addStack [.counted 1]).setStack 0 [⟨k, 0, true⟩]
    let going (i : Int) (k : Int64) : Pause := ⟨.loops 0, [0, 0, 1, i], ⟨held k, #[]⟩⟩
    let I (a : Pause) : Prop :=
      a = ⟨.absent, .start, ⟨s, #[]⟩⟩ ∨ ∃ k, a = going 0 k ∨ a = going 1 k
    refine not_stepsOut_of_cycle (I := I) ?_ (.inl rfl)
    rintro a (rfl | ⟨k, rfl | rfl⟩)
    · refine ⟨going 1 0, ⟨rfl, 1, fun spare => ?_⟩, .inr ⟨0, .inr rfl⟩⟩
      rw [Nat.add_comm]
      rfl
    · refine ⟨going 1 k, ⟨rfl, 1, fun spare => ?_⟩, .inr ⟨k, .inr rfl⟩⟩
      rw [Nat.add_comm]
      rfl
    · refine ⟨going 0 (k + 1), ⟨rfl, 1, fun spare => ?_⟩, .inr ⟨k + 1, .inl rfl⟩⟩
      rw [Nat.add_comm]
      rfl
  · rintro r m' ⟨used, hends⟩
    -- two calls are made, and then the loop takes all the polls there are
    let inner : Memory := ⟨t.extend 0 (.ofList []), #[]⟩
    have hforever : LoopFrame.endless.forever = true := rfl
    have hloop := loopFrom_endless .absent hforever .absent inner used
    have hbody : evalBlock host (invokeAt ⟨host, 5⟩ 4) 1 loop (inner.world used) =
        .error .canceled (inner.world 0) := by
      rw [evalBlock, evalBody, evalStmt_times]
      exact bind_error hloop
    have hcanceled : Setting.evaluate ⟨host, 5⟩ 0 (.program q) (Memory.world ⟨t, #[]⟩ (used + 2)) =
        .error .canceled (inner.world 0) := by
      change (evalBlock host (invokeAt ⟨host, 5⟩ 4) 1 loop >>= fun v => pure v) (inner.world used) = _
      exact bind_error hbody
    have hreply : reply (.error .canceled) (inner.world 0) = reply r (m'.world 2) :=
      hcanceled.symm.trans (hends 2)
    cases (world_inj (reply_inj hreply).2).2

end Stepwise
