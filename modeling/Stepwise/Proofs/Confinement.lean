import Stepwise.Proofs.Lexical
import Stepwise.Proofs.Store

/-! What a closure can see. The scope of a function binds only names of the bodies around it: all
other names have the bindings that the run started with. That holds from the start of a run to its
end, of every scope the run makes, since a body writes the scope of its own call alone. -/

namespace Stepwise

open Execution

namespace Store

variable {s : Store} {g f : ScopeId} {x y : Name} {u v : Value}

/-- The first scope of a chain that binds a name. -/
def findIn (s : Store) (chain : List ScopeId) (x : Name) : Option Value :=
  chain.findSome? fun i => s.lookup? i x

theorem get?_eq_findIn (s : Store) (g : ScopeId) (x : Name) : s.get? g x = s.findIn (s.chain g) x :=
  rfl

theorem findIn_congr {t : Store} {chain : List ScopeId} (h : ∀ i ∈ chain, t.lookup? i x = s.lookup? i x) :
    t.findIn chain x = s.findIn chain x := by
  induction chain with
  | nil => rfl
  | cons i chain ih =>
    simp only [findIn, List.findSome?_cons, h i List.mem_cons_self]
    cases s.lookup? i x with
    | some v => rfl
    | none => exact ih fun j hj => h j (List.mem_cons_of_mem i hj)

theorem get?_set_of_ne (hne : y ≠ x) (s : Store) (g f : ScopeId) (v : Value) :
    (s.set f x v).get? g y = s.get? g y := by
  rw [get?_eq_findIn, get?_eq_findIn, chain_set]
  exact findIn_congr fun i _ => by rw [lookup?_set, if_neg fun h => hne h.2.2]

theorem get?_set_self (hg : g < s.scopes.size) (x : Name) (v : Value) :
    (s.set g x v).get? g x = some v := by
  obtain ⟨outer, houter⟩ : ∃ outer, s.chain g = g :: outer := by simp [chain, hg]
  rw [get?_eq_findIn, chain_set, houter, findIn, List.findSome?_cons, lookup?_set, if_pos ⟨rfl, hg, rfl⟩]

theorem get?_set_of_not_mem (hf : f ∉ s.chain g) (x y : Name) (v : Value) :
    (s.set f x v).get? g y = s.get? g y := by
  rw [get?_eq_findIn, get?_eq_findIn, chain_set]
  exact findIn_congr fun i hi => by
    rw [lookup?_set, if_neg fun h : f = i ∧ _ => hf (h.1 ▸ hi)]

theorem get?_set_cases (h : (s.set f x v).get? g y = some u) : u = v ∨ s.get? g y = some u := by
  rw [get?_eq_findIn, chain_set] at h
  rw [get?_eq_findIn]
  generalize s.chain g = chain at h ⊢
  induction chain with
  | nil => cases h
  | cons i chain ih =>
    rw [findIn, List.findSome?_cons, lookup?_set] at h
    rw [findIn, List.findSome?_cons]
    by_cases hfirst : f = i ∧ i < s.scopes.size ∧ y = x
    · rw [if_pos hfirst] at h
      cases h
      exact .inl rfl
    · rw [if_neg hfirst] at h
      cases hi : s.lookup? i y with
      | some u' =>
        rw [hi] at h
        exact .inr h
      | none =>
        rw [hi] at h
        exact ih h

theorem chain_extend_old (hg : g < s.scopes.size) (parent : ScopeId) (b : Bindings Value) :
    (s.extend parent b).chain g = s.chain g := by
  rw [chain_extend, if_neg (Nat.ne_of_lt hg)]

theorem findIn_extend_old {chain : List ScopeId} (h : ∀ i ∈ chain, i < s.scopes.size)
    (parent : ScopeId) (b : Bindings Value) (x : Name) :
    (s.extend parent b).findIn chain x = s.findIn chain x :=
  findIn_congr fun i hi => by rw [lookup?_extend, if_neg (Nat.ne_of_lt (h i hi))]

theorem get?_extend_new {parent : ScopeId} (h : ∀ i ∈ s.chain parent, i < s.scopes.size)
    (b : Bindings Value) (x : Name) :
    (s.extend parent b).get? s.nextScope x = (b.get? x).or (s.get? parent x) := by
  rw [get?_eq_findIn, chain_extend, nextScope, if_pos rfl, findIn, List.findSome?_cons,
    lookup?_extend, if_pos rfl]
  cases b.get? x with
  | some v => rfl
  | none => exact findIn_extend_old h parent b x

end Store

/-- The names that scopes and those around them can bind, as far as they belong to a run. -/
abbrev Reach := ScopeId → List Name

namespace Run

variable (r : Run)

/-- The scope that the program runs in, and the scopes made since. -/
def Live (s : Store) (g : ScopeId) : Prop :=
  g = r.scope ∨ r.start.store.scopes.size ≤ g ∧ g < s.scopes.size

/-- A closure in the hands of the run comes from a function of the program. -/
def Traced (own : Reach) (s : Store) (v : Value) : Prop :=
  ∀ c, v = .function c → r.Live s c.scope ∧ (c.literal, own c.scope) ∈ r.program.functions

/-- Each scope of the run, and what is around it, binds the names it can; else it shows what was
bound at the start. -/
structure Confined (own : Reach) (s : Store) : Prop where
  inside : r.scope < r.start.store.scopes.size
  grown : r.start.store.scopes.size ≤ s.scopes.size
  chain : ∀ g, r.Live s g → ∀ i ∈ s.chain g, i < s.scopes.size ∧ (r.Live s i → own i ⊆ own g)
  unbound : ∀ g, r.Live s g → ∀ x, x ∉ own g → s.get? g x = r.start.store.get? r.scope x
  values : ∀ g, r.Live s g → ∀ x v, s.get? g x = some v → r.Traced own s v

/-- The scopes of a run stay what they are while new ones are made. -/
structure Evolves (own : Reach) (s : Store) (own' : Reach) (s' : Store) : Prop where
  size : s.scopes.size ≤ s'.scopes.size
  agree : ∀ g, r.Live s g → own' g = own g

variable {r} {own own' own'' : Reach} {s s' s'' : Store} {g : ScopeId} {v : Value}

theorem Live.mono (hsize : s.scopes.size ≤ s'.scopes.size) (h : r.Live s g) : r.Live s' g :=
  h.imp_right fun h => ⟨h.1, Nat.lt_of_lt_of_le h.2 hsize⟩

theorem Evolves.trans (h : r.Evolves own s own' s') (h' : r.Evolves own' s' own'' s'') :
    r.Evolves own s own'' s'' :=
  ⟨Nat.le_trans h.size h'.size, fun g hg => (h'.agree g (hg.mono h.size)).trans (h.agree g hg)⟩

theorem Traced.evolve (h : r.Traced own s v) (he : r.Evolves own s own' s') : r.Traced own' s' v := by
  intro c hc
  obtain ⟨hlive, hmem⟩ := h c hc
  exact ⟨hlive.mono he.size, by rwa [he.agree _ hlive]⟩

theorem traced_of_isScalar (h : v.isScalar) : r.Traced own s v := by
  rintro c rfl
  cases h

theorem Traced.orNull (h : r.Traced own s v) : r.Traced own s v.orNull := by
  cases v with
  | absent => exact traced_of_isScalar rfl
  | _ => exact h

theorem Confined.lt (h : r.Confined own s) (hg : r.Live s g) : g < s.scopes.size :=
  hg.elim (fun hg => hg ▸ Nat.lt_of_lt_of_le h.inside h.grown) And.right

theorem Confined.congr (h : r.Confined own s) (hs : s'.scopes = s.scopes) : r.Confined own s' := by
  obtain ⟨scopes, loops, closures⟩ := s
  obtain ⟨scopes', loops', closures'⟩ := s'
  obtain rfl : scopes' = scopes := hs
  exact ⟨h.inside, h.grown, h.chain, h.unbound, h.values⟩

theorem Confined.set (h : r.Confined own s) {f : ScopeId} (hf : r.Live s f) {x : Name}
    (hx : x ∈ own f) (hv : r.Traced own s v) : r.Confined own (s.set f x v) := by
  have hlive {g : ScopeId} (hg : r.Live (s.set f x v) g) : r.Live s g :=
    hg.mono (by simp)
  have htraced {u : Value} (hu : r.Traced own s u) : r.Traced own (s.set f x v) u :=
    hu.evolve ⟨by simp, fun _ _ => rfl⟩
  refine ⟨h.inside, by simpa using h.grown, fun g hg i hi => ?_, fun g hg y hy => ?_,
    fun g hg y u hu => ?_⟩
  · rw [Store.chain_set] at hi
    obtain ⟨hlt, hsub⟩ := h.chain g (hlive hg) i hi
    exact ⟨by simpa using hlt, fun hi => hsub (hlive hi)⟩
  · rw [← h.unbound g (hlive hg) y hy]
    by_cases hmem : f ∈ s.chain g
    · have hne : y ≠ x := by
        rintro rfl
        exact hy ((h.chain g (hlive hg) f hmem).2 hf hx)
      exact Store.get?_set_of_ne hne s g f v
    · exact Store.get?_set_of_not_mem hmem x y v
  · obtain rfl | hu := Store.get?_set_cases hu
    · exact htraced hv
    · exact htraced (h.values g (hlive hg) y u hu)

def withCall (own : Reach) (s : Store) (c : Closure) : Reach := fun g =>
  if g = s.nextScope then c.literal.bound ++ own c.scope else own g

theorem withCall_old (own : Reach) (c : Closure) (hg : g < s.scopes.size) :
    withCall own s c g = own g :=
  if_neg (Nat.ne_of_lt hg)

theorem withCall_new (own : Reach) (s : Store) (c : Closure) :
    withCall own s c s.nextScope = c.literal.bound ++ own c.scope :=
  if_pos rfl

theorem Confined.extend (h : r.Confined own s) {c : Closure} (hc : r.Live s c.scope) {vs : List Value}
    (hvs : ∀ u ∈ vs, r.Traced own s u) :
    r.Evolves own s (withCall own s c) (s.extend c.scope (.ofList (c.literal.paramNames.zip vs))) ∧
      r.Confined (withCall own s c) (s.extend c.scope (.ofList (c.literal.paramNames.zip vs))) := by
  have hbound {x : Name} {v : Value} (hv : (Bindings.ofList (c.literal.paramNames.zip vs)).get? x =
      some v) : x ∈ c.literal.paramNames ∧ v ∈ vs := List.of_mem_zip (Bindings.mem_of_get?_ofList hv)
  generalize Bindings.ofList (c.literal.paramNames.zip vs) = params at hbound ⊢
  have hsize : (s.extend c.scope params).scopes.size = s.scopes.size + 1 := by simp [Store.extend]
  have hparents : ∀ i ∈ s.chain c.scope, i < s.scopes.size := fun i hi => (h.chain _ hc i hi).1
  have hevolves : r.Evolves own s (withCall own s c) (s.extend c.scope params) :=
    ⟨by omega, fun g hg => withCall_old own c (h.lt hg)⟩
  have hcases {g : ScopeId} (hg : r.Live (s.extend c.scope params) g) :
      r.Live s g ∨ g = s.nextScope := by
    obtain hg | ⟨hle, hlt⟩ := hg
    · exact .inl (.inl hg)
    · obtain hlt | heq := Nat.lt_succ_iff_lt_or_eq.mp (hsize ▸ hlt)
      · exact .inl (.inr ⟨hle, hlt⟩)
      · exact .inr heq
  have hold {g : ScopeId} (hg : r.Live s g) (x : Name) :
      (s.extend c.scope params).get? g x = s.get? g x := by
    rw [Store.get?_eq_findIn, Store.chain_extend_old (h.lt hg)]
    exact Store.findIn_extend_old (fun i hi => (h.chain g hg i hi).1) _ _ x
  refine ⟨hevolves, h.inside, Nat.le_trans h.grown hevolves.size, fun g hg i hi => ?_, fun g hg x hx => ?_,
    fun g hg x v hv => ?_⟩
  · obtain hg | rfl := hcases hg
    · rw [Store.chain_extend_old (h.lt hg)] at hi
      obtain ⟨hlt, hsub⟩ := h.chain g hg i hi
      refine ⟨Nat.lt_of_lt_of_le hlt hevolves.size, fun hi => ?_⟩
      rw [withCall_old own c hlt, withCall_old own c (h.lt hg)]
      exact hsub ((hcases hi).resolve_right (Nat.ne_of_lt hlt))
    · rw [Store.chain_extend, Store.nextScope, if_pos rfl] at hi
      obtain rfl | hi := List.mem_cons.mp hi
      · exact ⟨hsize ▸ Nat.lt_succ_self _, fun _ => List.Subset.refl _⟩
      · have hlt := hparents i hi
        refine ⟨Nat.lt_of_lt_of_le hlt hevolves.size, fun hlive => ?_⟩
        rw [withCall_old own c hlt, withCall_new]
        have hsub := (h.chain _ hc i hi).2 ((hcases hlive).resolve_right (Nat.ne_of_lt hlt))
        exact List.Subset.trans hsub (List.subset_append_right _ _)
  · obtain hg | rfl := hcases hg
    · rw [withCall_old own c (h.lt hg)] at hx
      rw [hold hg, h.unbound g hg x hx]
    · rw [withCall_new, List.mem_append, not_or] at hx
      have hparam : params.get? x = none := by
        rw [Option.eq_none_iff_forall_ne_some]
        intro v hv
        exact hx.1 (List.mem_append_left _ (hbound hv).1)
      rw [Store.get?_extend_new hparents, hparam, Option.none_or]
      exact h.unbound _ hc x hx.2
  · refine Traced.evolve ?_ hevolves
    obtain hg | rfl := hcases hg
    · rw [hold hg] at hv
      exact h.values g hg x v hv
    · rw [Store.get?_extend_new hparents, Option.or_eq_some_iff] at hv
      obtain hv | ⟨-, hv⟩ := hv
      · exact hvs v (hbound hv).2
      · exact h.values _ hc x v hv

end Run

namespace Run

variable {r : Run} {own own' : Reach} {s : Store} {m : Moment} {t u : Task} {v : Value} {w : World}

/-- A task of the program at a moment of a confined run, in a scope that can bind what it assigns. -/
structure Fits (r : Run) (own : Reach) (m : Moment) (t : Task) : Prop where
  confined : r.Confined own m.world.store
  live : r.Live m.world.store m.scope
  functions : t.functions (own m.scope) ⊆ r.program.functions
  assigned : t.assigned ⊆ own m.scope

/-- The run goes on confined, and has something in its hands. -/
def Lands (r : Run) (own : Reach) (m : Moment) (w : World) (fine : Reach → Prop) : Prop :=
  ∃ own', r.Evolves own m.world.store own' w.store ∧ r.Confined own' w.store ∧ fine own'

theorem Fits.part (h : r.Fits own m u) (ht : t.PartOf u) : r.Fits own m t :=
  ⟨h.confined, h.live, List.Subset.trans (ht.functions _) h.functions,
    List.Subset.trans ht.assigned h.assigned⟩

theorem Fits.later (h : r.Fits own m t) (he : r.Evolves own m.world.store own' w.store)
    (hc : r.Confined own' w.store) : r.Fits own' (m.at w) t where
  confined := hc
  live := h.live.mono he.size
  functions := by
    rw [m.at_scope, he.agree _ h.live]
    exact h.functions
  assigned := by
    rw [m.at_scope, he.agree _ h.live]
    exact h.assigned

theorem Fits.stays (h : r.Fits own m t) {fine : Reach → Prop} (hw : w.store.scopes = m.world.store.scopes)
    (hfine : fine own) : r.Lands own m w fine :=
  ⟨own, ⟨Nat.le_of_eq (by rw [hw]), fun _ _ => rfl⟩, h.confined.congr hw, hfine⟩

/-- Calls from a level keep a run confined. -/
def CallsLand (r : Run) (left : Nat) : Prop :=
  ∀ (m : Moment) (own : Reach) (span : Span) (c : Closure) (vs : List Value) (v : Value) (w : World),
    m.left = left → r.Confined own m.world.store → r.Traced own m.world.store (.function c) →
    (∀ u ∈ vs, r.Traced own m.world.store u) → r.invoke m span c vs m.world = .ok v w →
    r.Lands own m w fun own' => r.Traced own' w.store v

theorem callNative_lands (hhost : r.setting.host = primitives) (h : r.Fits own m t) {span : Span}
    {n : Native} {vs : List Value} (hcall : callNative r.setting.host m.scope span n vs m.world = .ok v w) :
    r.Lands own m w fun own' => r.Traced own' w.store v := by
  rw [callNative, hhost] at hcall
  split at hcall
  · next hresult =>
    cases hcall
    exact h.stays rfl (traced_of_isScalar (primitivesOn_isScalar hresult))
  · cases hcall

mutual

theorem expr_lands (hhost : r.setting.host = primitives) (e : Expr) {own : Reach} {m : Moment}
    (hcalls : r.CallsLand m.left) (h : r.Fits own m (.expr e)) {v : Value} {w : World}
    (he : r.expr m e = .ok v w) :
    r.Lands own m w fun own' => r.Traced own' w.store v := by
  cases e with
  | missing | forever =>
    rw [expr, evalExpr] at he
    exact (fail_ne_ok he).elim
  | number | boolean | null | string =>
    rw [expr, evalExpr] at he
    cases he
    exact h.stays rfl (traced_of_isScalar rfl)
  | symbol s =>
    rw [expr, evalExpr, lookup] at he
    split at he
    · next hget =>
      cases he
      exact h.stays rfl (h.confined.values _ h.live _ _ hget)
    · cases he
  | function span params body =>
    rw [expr, evalExpr] at he
    obtain ⟨-, he⟩ | ⟨-, he⟩ := ite_eq_ok he
    · exact (fail_ne_ok he).elim
    · cases he
      refine h.stays rfl fun c hc => ?_
      cases hc
      refine ⟨h.live, h.functions ?_⟩
      rw [Task.functions, Expr.functions]
      exact List.mem_cons_self
  | call span callee args =>
    obtain ⟨-, f, w₁, vs, w₂, w₃, hf, hvs, hpoll, hrun⟩ := call_cases he
    obtain ⟨own₁, hev₁, hconf₁, hfine₁⟩ :=
      expr_lands hhost callee hcalls (h.part Task.callee_partOf) hf
    obtain ⟨own₂, hev₂, hconf₂, hfine₂⟩ :=
      args_lands hhost args (m := m.at w₁) hcalls ((h.part Task.args_partOf).later hev₁ hconf₁) hvs
    have hstore := poll_ok_store hpoll
    have hbefore : r.Evolves own m.world.store own₂ w₃.store := hstore ▸ hev₁.trans hev₂
    have hlands : r.Lands own₂ (m.at w₃) w fun own' => r.Traced own' w.store v := by
      cases hd : Dispatch.of vs.length f with
      | native n =>
        rw [hd] at hrun
        exact callNative_lands hhost (h.later hbefore (hstore ▸ hconf₂)) hrun
      | closure c =>
        rw [hd] at hrun
        have hc := Dispatch.of_closure hd
        subst hc
        refine hcalls (m.at w₃) own₂ span c vs v w rfl (hstore ▸ hconf₂) ?_ ?_ hrun
        · exact hstore ▸ hfine₁.evolve hev₂
        · exact fun u hu => hstore ▸ hfine₂ u hu
      | refused cause =>
        rw [hd] at hrun
        exact (fail_ne_ok hrun).elim
    obtain ⟨own₃, hev₃, hconf₃, hfine₃⟩ := hlands
    exact ⟨own₃, hbefore.trans hev₃, hconf₃, hfine₃⟩
termination_by structural e

theorem args_lands (hhost : r.setting.host = primitives) (es : List Expr) {own : Reach} {m : Moment}
    (hcalls : r.CallsLand m.left) (h : r.Fits own m (.args es)) {vs : List Value} {w : World}
    (hes : r.args m es = .ok vs w) :
    r.Lands own m w fun own' => ∀ u ∈ vs, r.Traced own' w.store u := by
  cases es with
  | nil =>
    rw [args, evalArgs] at hes
    cases hes
    exact h.stays rfl (by simp)
  | cons e es =>
    obtain ⟨u, w₁, us, hu, hus, rfl⟩ := args_cases hes
    obtain ⟨own₁, hev₁, hconf₁, hfine₁⟩ := expr_lands hhost e hcalls (h.part Task.arg_partOf) hu
    obtain ⟨own₂, hev₂, hconf₂, hfine₂⟩ :=
      args_lands hhost es (m := m.at w₁) hcalls ((h.part Task.nextArg_partOf).later hev₁ hconf₁) hus
    refine ⟨own₂, hev₁.trans hev₂, hconf₂, fun x hx => ?_⟩
    obtain rfl | hx := List.mem_cons.mp hx
    · exact (hfine₁.evolve hev₂).orNull
    · exact hfine₂ x hx
termination_by structural es

end

theorem startLoop_world {span : Span} {count : Expr} {b : Block} {frame : LoopFrame}
    (h : r.startLoop m span count b = .ok frame w) : w = m.world := by
  rw [startLoop] at h
  obtain ⟨s, hstart⟩ | ⟨frame', hstart⟩ | ⟨cause, place, -, hstart⟩ :=
    startLoop_cases span count b
  · rw [hstart] at h
    obtain ⟨u, w₁, hu, h⟩ := bind_eq_ok h
    rw [lookup] at hu
    split at hu
    · cases hu
      obtain ⟨n, -, hframe⟩ | hframe := countFrame_cases s u
      · rw [hframe] at h
        cases h
        rfl
      · rw [hframe] at h
        exact (fail_ne_ok h).elim
    · cases hu
  · rw [hstart] at h
    cases h
    rfl
  · rw [hstart] at h
    exact (fail_ne_ok h).elim

theorem loop_lands {b : Block} {rounds : Nat} {frame : LoopFrame} {last : Value}
    (hblock : ∀ {own : Reach} {w : World}, r.Fits own (m.at w) (.block b) → ∀ {v : Value} {w' : World},
      r.block (m.at w) b = .ok v w' → r.Lands own (m.at w) w' fun own' => r.Traced own' w'.store v)
    (h : r.Fits own m (.loop b frame)) (hlast : r.Traced own m.world.store last)
    (hloop : runLoop (evalBlock r.setting.host (r.invoke m) m.scope b) rounds frame last m.world =
      .ok v w) : r.Lands own m w fun own' => r.Traced own' w.store v := by
  induction rounds generalizing own m frame last with
  | zero => cases hloop
  | succ rounds ih =>
    rw [runLoop] at hloop
    obtain ⟨-, hloop⟩ | ⟨-, hloop⟩ := ite_eq_ok hloop
    · cases hloop
      exact h.stays rfl hlast
    obtain ⟨⟨⟩, w₁, hpoll, hloop⟩ := bind_eq_ok hloop
    obtain ⟨u, w₂, hbody, hloop⟩ := bind_eq_ok hloop
    have hstore := poll_ok_store hpoll
    have hpass : r.Fits own (m.at w₁) (.block b) :=
      ⟨hstore ▸ h.confined, hstore ▸ h.live, h.functions, h.assigned⟩
    obtain ⟨own₁, hev₁, hconf₁, hfine₁⟩ := hblock hpass hbody
    have hev : r.Evolves own m.world.store own₁ w₂.store := hstore ▸ hev₁
    obtain ⟨own₂, hev₂, hconf₂, hfine₂⟩ := ih (m := m.at w₂) hblock
      ((h.part (Task.again_partOf (b := b))).later hev hconf₁) hfine₁ hloop
    exact ⟨own₂, hev.trans hev₂, hconf₂, hfine₂⟩

mutual

theorem stmt_lands (hhost : r.setting.host = primitives) (s : Stmt) {own : Reach} {m : Moment}
    (hcalls : r.CallsLand m.left) (h : r.Fits own m (.stmt s)) {v : Value} {w : World}
    (hs : r.stmt m s = .ok v w) : r.Lands own m w fun own' => r.Traced own' w.store v := by
  cases s with
  | missing =>
    rw [stmt, evalStmt] at hs
    exact (fail_ne_ok hs).elim
  | set span target e =>
    cases target with
    | none =>
      rw [stmt, evalStmt] at hs
      exact (fail_ne_ok hs).elim
    | some x =>
      have hname : x.name ∈ own m.scope := h.assigned (by simp [Task.assigned, Stmt.assigned])
      obtain ⟨u, w₁, -, hu, rfl, rfl⟩ := set_cases hs
      obtain ⟨own₁, hev, hconf, hfine⟩ := expr_lands hhost e hcalls (h.part Task.value_partOf) hu
      refine ⟨own₁, ⟨by simpa using hev.size, hev.agree⟩,
        hconf.set (h.live.mono hev.size) ?_ hfine.orNull, ?_⟩
      · rwa [hev.agree _ h.live]
      · exact hfine.orNull.evolve ⟨by simp, fun _ _ => rfl⟩
  | branch span c t e =>
    obtain ⟨-, -, u, w₁, hc, hblock⟩ := branch_cases hs
    obtain ⟨own₁, hev₁, hconf₁, -⟩ := expr_lands hhost c hcalls (h.part Task.condition_partOf) hc
    obtain ⟨-, ht⟩ | ⟨-, -, rfl, rfl⟩ | ⟨-, -, he⟩ := hblock
    · obtain ⟨own₂, hev₂, hconf₂, hfine₂⟩ :=
        block_lands hhost t (m := m.at w₁) hcalls ((h.part Task.then_partOf).later hev₁ hconf₁) ht
      exact ⟨own₂, hev₁.trans hev₂, hconf₂, hfine₂⟩
    · exact ⟨own₁, hev₁, hconf₁, traced_of_isScalar rfl⟩
    · obtain ⟨own₂, hev₂, hconf₂, hfine₂⟩ :=
        block_lands hhost e (m := m.at w₁) hcalls ((h.part Task.else_partOf).later hev₁ hconf₁) he
      exact ⟨own₂, hev₁.trans hev₂, hconf₂, hfine₂⟩
  | times span count b =>
    obtain ⟨frame, w₁, hstart, hloop⟩ := times_cases hs
    obtain rfl := startLoop_world hstart
    exact loop_lands (fun {_ w'} hfits _ _ hpass =>
      block_lands hhost b (m := m.at w') hcalls hfits hpass)
      (h.part Task.loop_partOf) (traced_of_isScalar (v := .absent) rfl) hloop
  | call span callee args =>
    rw [stmt, evalStmt] at hs
    exact expr_lands hhost (.call span callee args) hcalls (h.part Task.call_partOf) hs
termination_by structural s

theorem block_lands (hhost : r.setting.host = primitives) (b : Block) {own : Reach} {m : Moment}
    (hcalls : r.CallsLand m.left) (h : r.Fits own m (.block b)) {v : Value} {w : World}
    (hb : r.block m b = .ok v w) : r.Lands own m w fun own' => r.Traced own' w.store v := by
  cases b with
  | missing =>
    cases hb
    exact h.stays rfl (traced_of_isScalar rfl)
  | of span body =>
    rw [block, evalBlock] at hb
    exact body_lands hhost body hcalls (h.part Task.body_partOf)
      (traced_of_isScalar (v := .absent) rfl) hb
termination_by structural b

theorem body_lands (hhost : r.setting.host = primitives) (body : List Stmt) {own : Reach}
    {m : Moment} (hcalls : r.CallsLand m.left) (h : r.Fits own m (.body body)) {last v : Value}
    (hlast : r.Traced own m.world.store last) {w : World}
    (hbody : evalBody r.setting.host (r.invoke m) m.scope last body m.world = .ok v w) :
    r.Lands own m w fun own' => r.Traced own' w.store v := by
  cases body with
  | nil =>
    cases hbody
    exact h.stays rfl hlast
  | cons s rest =>
    obtain ⟨u, w₁, hs, hrest⟩ := body_cases hbody
    obtain ⟨own₁, hev₁, hconf₁, hfine₁⟩ := stmt_lands hhost s hcalls (h.part Task.first_partOf) hs
    obtain ⟨own₂, hev₂, hconf₂, hfine₂⟩ :=
      body_lands hhost rest (m := m.at w₁) hcalls ((h.part Task.next_partOf).later hev₁ hconf₁) hfine₁
        hrest
    exact ⟨own₂, hev₁.trans hev₂, hconf₂, hfine₂⟩
termination_by structural body

end

/-- Where a closure has just been entered: its scope is a new one, which binds its parameters and
finds everything else where the closure was made. -/
structure Entered (r : Run) (own : Reach) (m : Moment) (c : Closure) : Prop where
  written : (c.literal, own c.scope) ∈ r.program.functions
  live : r.Live m.world.store c.scope
  new : m.scope ≠ r.scope
  outside : ∀ x, x ∉ c.literal.paramNames →
    m.world.store.lookup? m.scope x = none ∧ m.world.store.get? m.scope x = m.world.store.get? c.scope x

theorem Confined.enter {c : Closure} {vs : List Value} {w' : World} {id : ScopeId} (left : Nat)
    (h : r.Confined own w.store) (hc : r.Traced own w.store (.function c))
    (hvs : ∀ u ∈ vs, r.Traced own w.store u) (hopen : openScope c vs w = .ok id w') :
    ∃ own', r.Evolves own w.store own' w'.store ∧ r.Fits own' ⟨left, id, w'⟩ (.closure c) ∧
      r.Entered own' ⟨left, id, w'⟩ c := by
  cases hopen
  obtain ⟨hlive, hwritten⟩ := hc c rfl
  obtain ⟨hev, hconf⟩ := h.extend hlive hvs
  have hsize := h.grown
  have hlt := h.lt hlive
  refine ⟨_, hev, ⟨hconf, .inr ⟨hsize, by simp [Store.extend, Store.nextScope]⟩, ?_, ?_⟩,
    ⟨?_, hlive.mono hev.size, ?_, fun x hx => ?_⟩⟩
  · rw [withCall_new]
    exact Stmt.functionsOf_nested r.program.body hwritten
  · rw [withCall_new]
    exact List.subset_append_of_subset_left _ (List.subset_append_right _ _)
  · rwa [withCall_old own c hlt]
  · exact Nat.ne_of_gt (Nat.lt_of_lt_of_le h.inside hsize)
  · have hparam : (Bindings.ofList (c.literal.paramNames.zip vs)).get? x = none := by
      rw [Option.eq_none_iff_forall_ne_some]
      intro v hv
      exact hx (List.of_mem_zip (Bindings.mem_of_get?_ofList hv)).1
    have hparents : ∀ i ∈ w.store.chain c.scope, i < w.store.scopes.size := fun i hi =>
      (h.chain _ hlive i hi).1
    constructor
    · rw [Store.lookup?_extend, Store.nextScope, if_pos rfl, hparam]
    · rw [Store.get?_extend_new hparents, hparam, Option.none_or, Store.get?_eq_findIn,
        Store.get?_eq_findIn, Store.chain_extend_old hlt]
      exact (Store.findIn_extend_old hparents _ _ x).symm

theorem callsLand (hhost : r.setting.host = primitives) (left : Nat) : r.CallsLand left := by
  induction left with
  | zero =>
    intro m own span c vs v w hleft _ _ _ h
    rw [invoke, hleft, invokeAt] at h
    exact (fail_ne_ok h).elim
  | succ left ih =>
    intro m own span c vs v w hleft hconf hc hvs h
    obtain ⟨id, w₁, hopen, hbody⟩ := invoke_cases hleft h
    obtain ⟨own₁, hev₁, hfits, -⟩ := hconf.enter left hc hvs hopen
    obtain ⟨own₂, hev₂, hconf₂, hfine₂⟩ :=
      block_lands hhost c.literal.body ih (hfits.part Task.inside_partOf) hbody
    exact ⟨own₂, hev₁.trans hev₂, hconf₂, hfine₂⟩

end Run

/-- A scope to run programs in: it binds scalars and natives, and so do the scopes around it. -/
structure Store.IsNamespace (s : Store) (scope : ScopeId) : Prop where
  inside : scope < s.scopes.size
  around : ∀ i ∈ s.chain scope, i < s.scopes.size
  scalar : ∀ x v, s.get? scope x = some v → v.isScalar

theorem isNamespace_topLevel : Store.empty.addTopLevel.IsNamespace 0 := by
  refine ⟨by decide, by decide, fun x v hget => ?_⟩
  have hbound : (Bindings.ofList (Primitive.all.map fun p => (p.name, .native p.native))).get? x =
      some v := by
    obtain ⟨i, hi, hv⟩ := List.exists_of_findSome?_eq_some hget
    obtain rfl : i = 0 := List.mem_singleton.mp hi
    exact hv
  obtain ⟨p, -, hp⟩ := List.mem_map.mp (Bindings.mem_of_get?_ofList hbound)
  cases hp
  rfl

theorem Store.IsNamespace.extend {s : Store} {g : ScopeId} (h : s.IsNamespace g) {b : Bindings Value}
    (hb : ∀ x v, b.get? x = some v → v.isScalar) : (s.extend g b).IsNamespace s.nextScope := by
  refine ⟨?_, fun i hi => ?_, fun x v hget => ?_⟩
  · simp [nextScope, Store.extend]
  · rw [chain_extend, nextScope, if_pos rfl] at hi
    simp only [Store.extend, Array.size_push]
    obtain rfl | hi := List.mem_cons.mp hi
    · exact Nat.lt_succ_self _
    · exact Nat.lt_succ_of_lt (h.around i hi)
  · rw [get?_extend_new h.around] at hget
    cases hx : b.get? x with
    | some u =>
      rw [hx] at hget
      exact hb x v (hx.trans hget)
    | none =>
      rw [hx] at hget
      exact h.scalar x v hget

namespace Run

variable {r : Run} {m : Moment} {t : Task}

theorem start_confined (hns : r.start.store.IsNamespace r.scope) :
    r.Confined (fun _ => r.program.assigned) r.start.store := by
  have hlive {g : ScopeId} (hg : r.Live r.start.store g) : g = r.scope :=
    hg.elim id fun hg => absurd hg.2 (Nat.not_lt_of_le hg.1)
  refine ⟨hns.inside, Nat.le_refl _, fun g hg i hi => ?_, fun g hg x _ => ?_, fun g hg x v hv => ?_⟩
  · obtain rfl := hlive hg
    exact ⟨hns.around i hi, fun _ => List.Subset.refl _⟩
  · rw [hlive hg]
  · rw [hlive hg] at hv
    exact traced_of_isScalar (hns.scalar x v hv)

/-- A closure that the run stands before has just been entered. -/
def Stands (r : Run) (own : Reach) (m : Moment) : Task → Prop
  | .closure c => r.Entered own m c
  | _ => True

/-- What the run has before it fits in a way of confining it, and what is entered has just been entered. -/
def Confines (r : Run) (m : Moment) (t : Task) : Prop := ∃ own, r.Fits own m t ∧ r.Stands own m t

namespace Confines

variable {u : Task} {w : World}

/-- A part that is run at once. -/
theorem part (h : r.Confines m u) (ht : t.PartOf u) (hstands : ∀ own, r.Stands own m t) : r.Confines m t := by
  obtain ⟨own, hfits, -⟩ := h
  exact ⟨own, hfits.part ht, hstands own⟩

/-- A part that is run after another one begins in the world that the other one has left, which is confined
as well. -/
theorem after (h : r.Confines m u) (ht : t.PartOf u)
    (hlands : ∀ own, r.Fits own m u → ∃ fine, r.Lands own m w fine)
    (hstands : ∀ own, r.Stands own (m.at w) t) : r.Confines (m.at w) t := by
  obtain ⟨own, hfits, -⟩ := h
  obtain ⟨fine, own', hev, hconf, -⟩ := hlands own hfits
  exact ⟨own', (hfits.part ht).later hev hconf, hstands own'⟩

variable {b : Block} {frame : LoopFrame} (hhost : r.setting.host = primitives)

theorem loop {span : Span} {count : Expr} (h : r.Confines m (.stmt (.times span count b)))
    (hstart : r.startLoop m span count b = .ok frame w) : r.Confines (m.at w) (.loop b frame) := by
  obtain rfl := startLoop_world hstart
  exact h.part Task.loop_partOf fun _ => trivial

theorem pass (h : r.Confines m (.loop b frame)) (hpoll : poll m.world = .ok () w) :
    r.Confines (m.at w) (.block b) := by
  refine h.after Task.pass_partOf (fun own hfits => ⟨fun _ => True, ?_⟩) fun _ => trivial
  exact hfits.stays (by rw [poll_ok_store hpoll]) trivial

include hhost

theorem after_expr {e : Expr} {v : Value} (h : r.Confines m u) (he : (Task.expr e).PartOf u)
    (ht : t.PartOf u) (hv : r.expr m e = .ok v w) (hstands : ∀ own, r.Stands own (m.at w) t) :
    r.Confines (m.at w) t :=
  h.after ht (fun _ hfits => ⟨_, expr_lands hhost e (callsLand hhost _) (hfits.part he) hv⟩) hstands

/-- The round between two may have made scopes and closures of its own. -/
theorem again {v : Value} {w' : World} (h : r.Confines m (.loop b frame)) (hpoll : poll m.world = .ok () w)
    (hblock : r.block (m.at w) b = .ok v w') : r.Confines (m.at w') (.loop b frame.next) := by
  obtain ⟨own, hfits, -⟩ := h
  have hpolled : r.Lands own m w fun _ => True := hfits.stays (by rw [poll_ok_store hpoll]) trivial
  obtain ⟨own₁, hev₁, hconf₁, -⟩ := hpolled
  have hpass := (hfits.part Task.pass_partOf).later hev₁ hconf₁
  obtain ⟨own₂, hev₂, hconf₂, -⟩ := block_lands hhost b (m := m.at w) (callsLand hhost _) hpass hblock
  exact ⟨own₂, (hfits.part Task.again_partOf).later (hev₁.trans hev₂) hconf₂, trivial⟩

/-- A closure that is entered was confined where the arguments had been evaluated. -/
theorem enter {span : Span} {callee : Expr} {args : List Expr} {left : Nat} {c : Closure} {vs : List Value}
    {id : ScopeId} {w₁ w₂ w₃ w₄ : World} (h : r.Confines m (.expr (.call span callee args)))
    (hf : r.expr m callee = .ok (.function c) w₁) (hvs : r.args (m.at w₁) args = .ok vs w₂)
    (hpoll : poll w₂ = .ok () w₃) (hopen : openScope c vs w₃ = .ok id w₄) :
    r.Confines ⟨left, id, w₄⟩ (.closure c) := by
  obtain ⟨own, hfits, -⟩ := h
  obtain ⟨own₁, hev₁, hconf₁, hfine₁⟩ :=
    expr_lands hhost _ (callsLand hhost _) (hfits.part Task.callee_partOf) hf
  obtain ⟨own₂, hev₂, hconf₂, hfine₂⟩ := args_lands hhost args (m := m.at w₁) (callsLand hhost _)
    ((hfits.part Task.args_partOf).later hev₁ hconf₁) hvs
  have hstore := poll_ok_store hpoll
  obtain ⟨own₃, -, hfits₃, hentered⟩ := Confined.enter left (hstore ▸ hconf₂)
    (hstore ▸ hfine₁.evolve hev₂) (fun u hu => hstore ▸ hfine₂ u hu) hopen
  exact ⟨own₃, hfits₃, hentered⟩

end Confines

/-- A run is confined at all of its moments. -/
theorem Reached.confines (hhost : r.setting.host = primitives) (hns : r.start.store.IsNamespace r.scope)
    {fresh : Bool} (h : r.Reached fresh t m) : r.Confines m t := by
  induction h with
  | start =>
    exact ⟨_, ⟨start_confined hns, .inl rfl, List.Subset.refl _, List.Subset.refl _⟩, trivial⟩
  | first _ ih => exact ih.part Task.first_partOf fun _ => trivial
  | next _ hs ih =>
    refine ih.after Task.next_partOf (fun own hfits => ?_) fun _ => trivial
    exact ⟨_, stmt_lands hhost _ (callsLand hhost _) (hfits.part Task.first_partOf) hs⟩
  | block _ ih => exact ih.part Task.body_partOf fun _ => trivial
  | value _ ih => exact ih.part Task.value_partOf fun _ => trivial
  | condition _ ih => exact ih.part Task.condition_partOf fun _ => trivial
  | thenBlock _ hc _ ih =>
    exact ih.after_expr hhost Task.condition_partOf Task.then_partOf hc fun _ => trivial
  | elseBlock _ hc _ ih =>
    exact ih.after_expr hhost Task.condition_partOf Task.else_partOf hc fun _ => trivial
  | count _ ih => exact ih.part Task.count_partOf fun _ => trivial
  | loop _ hstart ih => exact ih.loop hstart
  | pass _ _ hpoll ih => exact ih.pass hpoll
  | again _ _ hpoll hblock ih => exact ih.again hhost hpoll hblock
  | call _ ih => exact ih.part Task.call_partOf fun _ => trivial
  | callee _ ih => exact ih.part Task.callee_partOf fun _ => trivial
  | args _ hf ih =>
    exact ih.after_expr hhost Task.callee_partOf Task.args_partOf hf fun _ => trivial
  | arg _ ih => exact ih.part Task.arg_partOf fun _ => trivial
  | nextArg _ hu ih =>
    exact ih.after_expr hhost Task.arg_partOf Task.nextArg_partOf hu fun _ => trivial
  | enter _ _ hf hvs _ hpoll hopen ih => exact ih.enter hhost hf hvs hpoll hopen
  | inside _ ih => exact ih.part Task.inside_partOf fun _ => trivial

end Run

end Stepwise
