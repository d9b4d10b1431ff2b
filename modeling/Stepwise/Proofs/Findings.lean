import Mathlib.Data.List.Forall2
import Stepwise.Proofs.Confinement
import Stepwise.Proofs.Locality
import Stepwise.Proofs.Scratch

/-! What the check knows, against what a run does. The check knows a name when it has a finding for it
that covers the value: the value itself, a function with as many parameters, or nothing. Where it knows
all names that a run binds, it accepts every expression that the run evaluates well, and its finding
covers the result. -/

namespace Stepwise

open Execution

namespace Execution

variable {α β : Type} {g : ScopeId} {x : Name}

/-- However it ends, the run writes no scope that was there before it but one, and of that one it
leaves a name as it is. -/
def Leaves (g : ScopeId) (x : Name) (ex : Execution α) : Prop :=
  ∀ w : World, g < w.store.scopes.size → w.store.Grows (· = g) (ex.after w).store ∧
    (ex.after w).store.lookup? g x = w.store.lookup? g x

theorem Spares.leaves {ex : Execution α} (h : Spares (fun _ => False) ex) : Leaves g x ex :=
  fun w hg => ⟨(h w).mono fun _ h => h.elim, Store.lookup?_congr ((h w).scope g hg not_false) x⟩

theorem Leaves.bind {ex : Execution α} {f : α → Execution β} (hx : Leaves g x ex)
    (hf : ∀ a, Leaves g x (f a)) : Leaves g x (ex >>= f) := by
  intro w hg
  obtain ⟨hgrows, hlookup⟩ := hx w hg
  obtain ⟨a, hbind⟩ | hbind := after_bind ex f w
  · rw [hbind]
    obtain ⟨hgrows', hlookup'⟩ := hf a _ (Nat.lt_of_lt_of_le hg hgrows.size)
    exact ⟨hgrows.trans hgrows', hlookup'.trans hlookup⟩
  · rw [hbind]
    exact ⟨hgrows, hlookup⟩

theorem leaves_assign {name : Name} (hne : name ≠ x) (v : Value) :
    Leaves g x (assign g name v) := fun w _ =>
  ⟨@Store.grows_set (· = g) g w.store rfl name v,
    (Store.lookup?_set w.store g g name x v).trans (if_neg fun h => hne h.2.2.symm)⟩

variable {host : Host} {invoke : Invoke}

theorem leaves_compositional (g : ScopeId) (x : Name) : Compositional fun _ => Leaves g x where
  pure a := (spares_pure a).leaves
  bind hx hf := hx.bind hf
  fail span _ := (spares_fail _ span).leaves

theorem leaves_executes (hinv : invoke.Spares) (g : ScopeId) (x : Name) :
    Executes (fun _ => Leaves g x) (· ≠ x) host invoke g where
  toCompositional := leaves_compositional g x
  expr e := (evalExpr_spares hinv g e).leaves
  start span count body := (startLoop_spares g span count body).leaves
  assign v hname := leaves_assign hname v
  loop frame last hbody := (leaves_compositional g x).loopFrom spares_poll.leaves
    (spares_throw _).leaves spares_get.leaves hbody frame last

end Execution

/-- What a scope shows of a name depends on its own binding, as long as no other scope is written. -/
theorem Store.Grows.get?_eq {s t : Store} {g : ScopeId} {x : Name} (h : s.Grows (· = g) t)
    (hg : g < s.scopes.size) (hchain : ∀ i ∈ s.chain g, i < s.scopes.size)
    (hlookup : t.lookup? g x = s.lookup? g x) : t.get? g x = s.get? g x := by
  rw [Store.get?_eq_findIn, Store.get?_eq_findIn, Store.chain_congr (h.outer g hg)]
  refine Store.findIn_congr fun i hi => ?_
  by_cases heq : i = g
  · rw [heq, hlookup]
  · exact Store.lookup?_congr (h.scope i (hchain i hi) heq) x

namespace Run

variable {r : Run} {own : Reach} {m : Moment} {s : Store} {v : Value} {w : World}

theorem Confined.get?_of_grows (h : r.Confined own s) {g : ScopeId} (hg : r.Live s g) {t : Store}
    {x : Name} (hgrows : s.Grows (· = g) t) (hlookup : t.lookup? g x = s.lookup? g x) :
    t.get? g x = s.get? g x :=
  hgrows.get?_eq (h.lt hg) (fun i hi => (h.chain g hg i hi).1) hlookup

/-- A scope shows the same of a name in two stores. -/
def SameAt (g : ScopeId) (x : Name) (s t : Store) : Prop :=
  t.get? g x = s.get? g x ∧ t.lookup? g x = s.lookup? g x

theorem Fits.same {α : Type} {t : Task} {ex : Execution α} {a : α} {x : Name} (h : r.Fits own m t)
    (hex : Leaves m.scope x ex) (hok : ex m.world = .ok a w) :
    SameAt m.scope x m.world.store w.store := by
  obtain ⟨hgrows, hlookup⟩ := hex m.world (h.confined.lt h.live)
  rw [after_ok hok] at hgrows hlookup
  exact ⟨h.confined.get?_of_grows h.live hgrows hlookup, hlookup⟩

theorem Fits.expr_same {e : Expr} (h : r.Fits own m (.expr e)) (he : r.expr m e = .ok v w) (x : Name) :
    SameAt m.scope x m.world.store w.store :=
  h.same (evalExpr_spares (invokeAt_spares r.setting m.left) m.scope e).leaves he

theorem Fits.stmt_same {s : Stmt} (h : r.Fits own m (.stmt s)) (hs : r.stmt m s = .ok v w) {x : Name}
    (hx : x ∉ s.assigned) : SameAt m.scope x m.world.store w.store :=
  h.same ((leaves_executes (invokeAt_spares r.setting m.left) m.scope x).evalStmt s
    fun _ hmem => ne_of_mem_of_not_mem hmem hx) hs

end Run

namespace Finding

/-- The check knows the value, or that it is a function with so many parameters, or nothing of it. -/
def Covers : Finding → Value → Prop
  | .unknown, _ => True
  | .known (.function c), v => ∃ c', v = .function c' ∧ c'.literal.arity = c.literal.arity
  | .known u, v => v = u

variable {f : Finding} {u v : Value}

theorem covers_self (v : Value) : (known v).Covers v := by
  cases v with
  | function c => exact ⟨c, rfl, rfl⟩
  | _ => rfl

theorem Covers.cases (h : (known u).Covers v) :
    v = u ∨ ∃ c c', u = .function c ∧ v = .function c' ∧ c'.literal.arity = c.literal.arity := by
  cases u with
  | function c =>
    obtain ⟨c', hv, harity⟩ := h
    exact .inr ⟨c, c', rfl, hv, harity⟩
  | _ => exact .inl h

theorem Covers.orNull (h : f.Covers v) : f.orNull.Covers v.orNull := by
  cases f with
  | unknown => trivial
  | known u =>
    obtain rfl | ⟨c, c', rfl, rfl, harity⟩ := h.cases
    · exact covers_self _
    · exact ⟨c', rfl, harity⟩

theorem Covers.isTruthy_eq (h : (known u).Covers v) : u.isTruthy = v.isTruthy := by
  obtain rfl | ⟨c, c', rfl, rfl, -⟩ := h.cases
  · rfl
  · rfl

abbrev CoverAll : List Finding → List Value → Prop := List.Forall₂ Covers

/-- What is true of findings one by one is true of their values, if all of them have one. -/
theorem forall₂_values {R : Finding → Value → Prop} {fs : List Finding} {us vs : List Value}
    (h : List.Forall₂ R fs vs) (hus : values? fs = some us) :
    List.Forall₂ (fun u v => R (known u) v) us vs := by
  induction h generalizing us with
  | nil =>
    cases hus
    exact .nil
  | @cons f v fs vs hf _ ih =>
    cases f with
    | unknown => cases hus
    | known u =>
      obtain ⟨us', hus', rfl⟩ := Option.map_eq_some_iff.mp hus
      exact .cons hf (ih hus')

end Finding

open Finding

theorem Primitive.binary_covers (p : Primitive) {a b u v x : Value} (ha : (known a).Covers u)
    (hb : (known b).Covers v) (h : p.binary u v = .ok x) : p.binary a b = .ok x := by
  obtain rfl | ⟨c, c', rfl, rfl, -⟩ := ha.cases
  · obtain rfl | ⟨c, c', rfl, rfl, -⟩ := hb.cases
    · exact h
    · cases u <;> cases h
  · cases h

theorem Primitive.call_covers (p : Primitive) {s t : Store} {us vs : List Value} {x : Value}
    {before before' : Array Bytes} (h : List.Forall₂ (fun u v => (known u).Covers v) us vs)
    (hx : (p.call .unfailing t vs before').result = .ok x) :
    (p.call .unfailing s us before).result = .ok x := by
  cases h with
  | nil => cases p <;> cases hx
  | cons ha h =>
    cases h with
    | nil =>
      cases p with
      | not =>
        cases hx
        rw [Primitive.call, ha.isTruthy_eq]
        rfl
      | print =>
        cases hx
        rfl
      | _ => cases hx
    | cons hb h =>
      cases h with
      | nil =>
        rename_i a u b v
        simp only [Primitive.call] at hx ⊢
        cases huv : p.binary u v with
        | ok y =>
          rw [huv] at hx
          rw [p.binary_covers ha hb huv]
          exact hx
        | error cause =>
          rw [huv] at hx
          cases hx
      | cons => cases p <;> cases hx

theorem primitives_covers {n : Native} {s t : Store} {g g' : ScopeId} {us vs : List Value} {x : Value}
    {before before' : Array Bytes} (h : List.Forall₂ (fun u v => (known u).Covers v) us vs)
    (hx : (primitives n t g' vs before').result = .ok x) : (primitives n s g us before).result = .ok x := by
  rw [primitives, primitivesOn] at hx ⊢
  split at hx
  · exact Primitive.call_covers _ h hx
  · cases hx

/-- Whatever a scope shows of a name, the check knows; or the check takes the name for a function that
the run sets it to, and the scope does not bind the name itself. -/
def Agrees (functions : Name → Nat → Prop) (known : Name → Option Finding) (s : Store)
    (g : ScopeId) : Prop :=
  ∀ x v, s.get? g x = some v → ∃ f, known x = some f ∧ (f.Covers v ∨
    s.lookup? g x = none ∧ ∃ c, f = .known (.function c) ∧ functions x c.literal.arity)

theorem Agrees.same {functions : Name → Nat → Prop} {known : Name → Option Finding} {s t : Store}
    {g : ScopeId} (h : Agrees functions known s g) (hsame : ∀ x, Run.SameAt g x s t) :
    Agrees functions known t g := by
  intro x v hv
  rw [(hsame x).1] at hv
  rw [(hsame x).2]
  exact h x v hv

namespace Run

variable {r : Run} {functions : Name → Nat → Prop} {c c' : CheckState} {S : ScratchId} {m : Moment}
  {fresh : Bool} {v : Value} {w : World}

def ground (r : Run) : Ground := ⟨r.setting.host, r.start.store, r.scope⟩

/-- Where the code of a scope looks up a name that counts as a function, it finds such a function. -/
def Minds (r : Run) (functions : Name → Nat → Prop) (g : ScopeId) : Prop :=
  ∀ fresh m s v n, r.Reached fresh (.expr (.symbol s)) m → m.scope = g →
    m.world.store.lookup? g s.name = none → m.world.store.get? g s.name = some v →
    functions s.name n → ∃ c, v = .function c ∧ c.literal.arity = n

/-- A moment of the run whose scope the check knows. -/
structure Known (r : Run) (functions : Name → Nat → Prop) (c : CheckState) (S : ScratchId)
    (m : Moment) : Prop where
  agrees : Agrees functions (c.get? r.ground S) m.world.store m.scope
  minds : r.Minds functions m.scope

theorem Known.of_scopes (h : r.Known functions c S m) (hs : c'.scopes = c.scopes)
    (hsame : ∀ x, SameAt m.scope x m.world.store w.store) : r.Known functions c' S (m.at w) := by
  refine ⟨?_, h.minds⟩
  rw [CheckState.get?_of_scopes hs]
  exact h.agrees.same hsame

theorem lookup_cases {s : Symbol} (h : r.expr m (.symbol s) = .ok v w) :
    m.world.store.get? m.scope s.name = some v ∧ w = m.world := by
  rw [expr, evalExpr, Execution.lookup] at h
  split at h
  · next hget =>
    cases h
    exact ⟨hget, rfl⟩
  · cases h

theorem lookup_covers {s : Symbol} (hreach : r.Reached fresh (.expr (.symbol s)) m)
    (h : r.Known functions c S m) (hv : r.expr m (.symbol s) = .ok v w) :
    ∃ f, Checking.lookup r.ground S s c = .ok f c ∧ f.Covers v := by
  obtain ⟨hget, -⟩ := lookup_cases hv
  obtain ⟨f, hf, hcovers⟩ := h.agrees s.name v hget
  refine ⟨f, by rw [Checking.lookup, hf], ?_⟩
  obtain hcovers | ⟨hnone, c', rfl, hfun⟩ := hcovers
  · exact hcovers
  · exact h.minds fresh m s v _ hreach rfl hnone hget hfun

theorem native_covers (hhost : r.setting.host = primitives) {span : Span} {n : Native}
    {fs : List Finding} {vs : List Value} (hfs : CoverAll fs vs) {w₁ : World}
    (h : callNative r.setting.host m.scope span n vs w₁ = .ok v w) :
    ∃ f written, checkNative r.ground S span n fs c = .ok f { c with written } ∧ f.Covers v := by
  rw [checkNative]
  split
  · cases hus : Finding.values? fs with
    | none => exact ⟨.unknown, _, rfl, trivial⟩
    | some us =>
      rw [callNative] at h
      split at h
      · next hresult =>
        cases h
        rw [hhost] at hresult
        have hcheck : (r.ground.host n (c.shown r.ground) (r.ground.store.nextScope + S) us
            c.written).result = .ok v := by
          rw [ground, hhost]
          exact primitives_covers (g := r.start.store.nextScope + S) (forall₂_values hfs hus) hresult
        simp only [Checking.askNative, hcheck]
        exact ⟨.known v, _, rfl, covers_self v⟩
      · cases h
  · exact ⟨.unknown, _, rfl, trivial⟩

theorem apply_covers (hhost : r.setting.host = primitives) {span : Span} {callee : Finding}
    {u : Value} (hcallee : callee.Covers u) {fs : List Finding} {vs : List Value}
    (hfs : CoverAll fs vs) {w₁ : World}
    (h : (Dispatch.of vs.length u).run r.setting.host (r.invoke m) m.scope span vs w₁ = .ok v w) :
    ∃ f written, checkApply r.ground S span callee fs c = .ok f { c with written } ∧
      f.Covers v := by
  cases callee with
  | unknown => exact ⟨.unknown, _, rfl, trivial⟩
  | known u' =>
    obtain rfl | ⟨l, l', rfl, rfl, harity⟩ := hcallee.cases
    · cases u with
      | native n =>
        cases harity : n.arity with
        | none =>
          simp only [Dispatch.of, harity] at h
          simp only [checkApply, harity]
          exact native_covers hhost hfs h
        | some expected =>
          simp only [Dispatch.of, harity] at h
          split at h
          · next hlength =>
            simp only [checkApply, harity, hfs.length_eq, hlength, if_true]
            exact native_covers hhost hfs h
          · exact (fail_ne_ok h).elim
      | function l =>
        simp only [Dispatch.of] at h
        split at h
        · next hlength =>
          rw [checkApply, hfs.length_eq, if_pos hlength]
          exact ⟨.unknown, _, rfl, trivial⟩
        · exact (fail_ne_ok h).elim
      | _ => exact (fail_ne_ok h).elim
    · simp only [Dispatch.of] at h
      split at h
      · next hlength =>
        rw [checkApply, hfs.length_eq, if_pos (hlength.trans harity)]
        exact ⟨.unknown, _, rfl, trivial⟩
      · exact (fail_ne_ok h).elim

theorem closure_covers (id : Nat) (l : Literal) (g : ScopeId) (s : Store) (g' : ScopeId) :
    (known (.function ⟨id, l, g⟩)).Covers (.function (s.closure l g')) := ⟨_, rfl, rfl⟩

mutual

/-- The check accepts an expression that the run evaluates well where the check knows its scope. -/
theorem checkExpr_covers (hhost : r.setting.host = primitives) (hns : r.start.store.IsNamespace r.scope)
    (e : Expr) {c : CheckState} {m : Moment} {v : Value} {w : World} (hS : c.Rooted S)
    (hreach : r.Reached fresh (.expr e) m) (h : r.Known functions c S m) (he : r.expr m e = .ok v w) :
    ∃ f c', checkExpr r.ground S e c = .ok f c' ∧ c.Visited S (.expr e) c' ∧
      c'.scopes = c.scopes ∧ f.Covers v := by
  cases e with
  | missing | forever =>
    rw [expr, evalExpr] at he
    exact (fail_ne_ok he).elim
  | number | boolean | null | string =>
    rw [expr, evalExpr] at he
    cases he
    exact ⟨_, c, rfl, CheckState.visited_refl S c rfl, rfl, covers_self _⟩
  | symbol s =>
    obtain ⟨f, hf, hcovers⟩ := lookup_covers hreach h he
    exact ⟨f, c, hf, CheckState.visited_refl S c rfl, rfl, hcovers⟩
  | function span params body =>
    rw [expr, evalExpr] at he
    obtain ⟨-, he⟩ | ⟨hpresent, he⟩ := ite_eq_ok he
    · exact (fail_ne_ok he).elim
    · cases he
      rw [checkExpr, if_neg hpresent]
      refine ⟨_, _, rfl, CheckState.visited_wait hS rfl fun around => ?_, rfl,
        closure_covers _ _ _ _ _⟩
      rw [Task.functions, Expr.functions]
      exact List.mem_cons_self
  | call span callee args =>
    obtain ⟨hpresent, u, w₁, vs, w₂, w₃, hu, hvs, -, hrun⟩ := call_cases he
    obtain ⟨own, hfits, -⟩ := hreach.confines hhost hns
    have hsame := (hfits.part Task.callee_partOf).expr_same hu
    obtain ⟨f, c₁, hcallee, hvisited₁, hscopes₁, hf⟩ :=
      checkExpr_covers hhost hns callee hS hreach.callee h hu
    obtain ⟨fs, c₂, hargs, hvisited₂, hscopes₂, hfs⟩ :=
      checkArgs_covers hhost hns args (hvisited₁.rooted hS) (hreach.args hu)
        (h.of_scopes hscopes₁ hsame) hvs
    obtain ⟨g, written, happly, hg⟩ := apply_covers (S := S) (c := c₂) hhost hf hfs hrun
    have hvisited : c.Visited S (.expr (.call span callee args)) c₂ :=
      hvisited₁.trans hvisited₂ hS.1 Task.callee_partOf Task.args_partOf (List.nil_subset _)
    refine ⟨g, { c₂ with written }, ?_, hvisited.of_written, hscopes₂.trans hscopes₁, hg⟩
    rw [checkExpr, if_neg (by simp [hpresent]), bind_ok hcallee, bind_ok hargs]
    exact happly
termination_by structural e

theorem checkArgs_covers (hhost : r.setting.host = primitives)
    (hns : r.start.store.IsNamespace r.scope) (es : List Expr) {c : CheckState} {m : Moment}
    {vs : List Value} {w : World} (hS : c.Rooted S) (hreach : r.Reached fresh (.args es) m)
    (h : r.Known functions c S m) (hes : r.args m es = .ok vs w) :
    ∃ fs c', checkArgs r.ground S es c = .ok fs c' ∧ c.Visited S (.args es) c' ∧
      c'.scopes = c.scopes ∧ CoverAll fs vs := by
  cases es with
  | nil =>
    rw [args, evalArgs] at hes
    cases hes
    exact ⟨[], c, rfl, CheckState.visited_refl S c rfl, rfl, .nil⟩
  | cons e es =>
    obtain ⟨u, w₁, us, hu, hus, rfl⟩ := args_cases hes
    obtain ⟨own, hfits, -⟩ := hreach.confines hhost hns
    have hsame := (hfits.part Task.arg_partOf).expr_same hu
    obtain ⟨f, c₁, hfirst, hvisited₁, hscopes₁, hf⟩ :=
      checkExpr_covers hhost hns e hS hreach.arg h hu
    obtain ⟨fs, c₂, hrest, hvisited₂, hscopes₂, hfs⟩ :=
      checkArgs_covers hhost hns es (hvisited₁.rooted hS) (hreach.nextArg hu)
        (h.of_scopes hscopes₁ hsame) hus
    refine ⟨f.orNull :: fs, c₂, ?_, hvisited₁.trans hvisited₂ hS.1 Task.arg_partOf Task.nextArg_partOf
      (List.nil_subset _), hscopes₂.trans hscopes₁, .cons hf.orNull hfs⟩
    rw [checkArgs, bind_ok hfirst, bind_ok hrest]
    rfl
termination_by structural es

end

end Run

end Stepwise
