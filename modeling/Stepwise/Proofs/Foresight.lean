import Stepwise.Proofs.Findings
import Stepwise.Proofs.Traversal
import Stepwise.Proofs.Unison

/-! What the check foresees of a run. The check knows every name that the run binds, and where it knows
the value it knows the one that the run has, but for the numbers of closures: those the check makes up
stand one to one for those that the run makes. A branch or a loop may have bound anything, so the check
knows nothing of what they assign, whichever way the run goes. -/

namespace Stepwise

open Execution Checking

def Link.ofTwins (twins : Nat → Nat → Prop) : Link := ⟨Eq, Eq, twins⟩

/-- Pure natives answer by their arguments alone, and not by the numbers of the closures in them. -/
def Host.PureByArguments (host : Host) : Prop :=
  ∀ n, n.isPure = true → ∀ twins, Relator.BiUnique twins → ∀ s t i j vs vs',
    ValuesLinked (.ofTwins twins) vs vs' → ∀ before before',
    (∃ f, (host n s i vs before).result = .error f ∧ (host n t j vs' before').result = .error f) ∨
      ∃ v v', (host n s i vs before).result = .ok v ∧ (host n t j vs' before').result = .ok v' ∧
        v.Linked (.ofTwins twins) v'

variable {twins twins' : Nat → Nat → Prop}

/-- The check knows the value, but for the numbers of closures, or it knows nothing of it. -/
def Finding.Tells (twins : Nat → Nat → Prop) : Finding → Value → Prop
  | .unknown, _ => True
  | .known u, v => u.Linked (.ofTwins twins) v

abbrev TellAll (twins : Nat → Nat → Prop) : List Finding → List Value → Prop :=
  List.Forall₂ (Finding.Tells twins)

namespace Finding

variable {f : Finding} {v : Value}

theorem tells_absent : (known .absent).Tells twins .absent := rfl

theorem Tells.mono (hle : twins ≤ twins') (h : f.Tells twins v) : f.Tells twins' v := by
  cases f with
  | unknown => trivial
  | known u =>
    have hlink : Link.ofTwins twins ≤ .ofTwins twins' := ⟨le_rfl, le_rfl, hle⟩
    exact Value.Linked.mono hlink h

theorem Tells.orNull (h : f.Tells twins v) : f.orNull.Tells twins v.orNull := by
  cases f with
  | unknown => trivial
  | known u => exact Value.Linked.orNull h

end Finding

/-- Where the check is in a scratch scope, the run can be in the scope checked against. -/
structure Foresees (g : Ground) (S : ScratchId) (twins : Nat → Nat → Prop) (c : CheckState)
    (w : World) : Prop where
  names : ∀ x v, w.store.get? g.scope x = some v → ∃ f, c.get? g S x = some f ∧ f.Tells twins v
  unique : Relator.BiUnique twins
  counted : ∀ i j, twins i j → i < g.store.closures + c.waiting.size ∧ j < w.store.closures
  rooted : c.Rooted S
  there : g.scope < w.store.scopes.size
  around : ∀ i ∈ w.store.chain g.scope, i < w.store.scopes.size

namespace Foresees

variable {g : Ground} {S : ScratchId} {c c' : CheckState} {w w' : World} {f : Finding} {v : Value}

/-- A part of a body has been checked and run that leaves nothing known of what it assigns. -/
theorem visited (h : Foresees g S twins c w) {t : Task} (hv : c.Visited S t c')
    (hgrows : w.store.Grows (· = g.scope) w'.store)
    (hsame : ∀ x ∉ t.assigned, w'.store.lookup? g.scope x = w.store.lookup? g.scope x)
    (hunknown : ∀ x ∈ t.assigned, (c'.bindings S).get? x = some .unknown) :
    Foresees g S twins c' w' where
  names x v hx := by
    by_cases hmem : x ∈ t.assigned
    · exact ⟨.unknown, CheckState.get?_eq_of_bound (hv.rooted h.rooted).1 g (hunknown x hmem), trivial⟩
    · rw [hgrows.get?_eq h.there h.around (hsame x hmem)] at hx
      rw [hv.get?_kept h.rooted g hmem]
      exact h.names x v hx
  unique := h.unique
  counted i j hij := by
    obtain ⟨hi, hj⟩ := h.counted i j hij
    obtain ⟨new, hnew, -⟩ := hv.waiting
    have hclosures := hgrows.closures
    rw [hnew, Array.size_append]
    omega
  rooted := hv.rooted h.rooted
  there := Nat.lt_of_lt_of_le h.there hgrows.size
  around i hi := by
    rw [Store.chain_congr (hgrows.outer _ h.there)] at hi
    exact Nat.lt_of_lt_of_le (h.around i hi) hgrows.size

theorem expr (h : Foresees g S twins c w) {e : Expr} (hv : c.Visited S (.expr e) c')
    (hgrows : w.store.Grows (fun _ => False) w'.store) : Foresees g S twins c' w' :=
  h.visited hv (hgrows.mono fun _ h => h.elim)
    (fun x _ => Store.lookup?_congr (hgrows.scope _ h.there not_false) x) (by simp [Task.assigned])

theorem assign (h : Foresees g S twins c w) (x : Name) (hf : f.Tells twins v) :
    Foresees g S twins (c.set S x f) { w with store := w.store.set g.scope x v } where
  names y u hu := by
    have hS := h.rooted.1
    by_cases hy : y = x
    · subst hy
      obtain rfl : v = u := Option.some.inj ((Store.get?_set_self h.there y v).symm.trans hu)
      refine ⟨f, CheckState.get?_eq_of_bound (by simpa using hS) g ?_, hf⟩
      rw [CheckState.get?_set hS, if_pos rfl]
    · rw [Store.get?_set_of_ne hy] at hu
      obtain ⟨f', hf', htells⟩ := h.names y u hu
      exact ⟨f', (CheckState.get?_set_of_ne hy hS g f).trans hf', htells⟩
  unique := h.unique
  counted := h.counted
  rooted := by
    rw [CheckState.Rooted, CheckState.size_set, CheckState.chain_set]
    exact h.rooted
  there := by simpa using h.there
  around i hi := by
    rw [Store.chain_set] at hi
    simpa using h.around i hi

/-- The check and the run make a closure each, and the two become twins. -/
theorem closure (h : Foresees g S twins c w) (literal : Literal) :
    let twins' := Link.join twins (g.store.closures + c.waiting.size) w.store.closures
    Foresees g S twins' { c with waiting := c.waiting.push ⟨literal, S⟩ }
      { w with store := w.store.countClosure } := by
  intro twins'
  have hle : twins ≤ twins' := fun _ _ h => .inl h
  refine ⟨fun x v hx => ?_, ?_, ?_, h.rooted, h.there, h.around⟩
  · obtain ⟨f, hf, htells⟩ := h.names x v hx
    exact ⟨f, hf, htells.mono hle⟩
  · exact Link.join_biUnique h.unique h.counted
  · rintro i j (hij | ⟨rfl, rfl⟩)
    · obtain ⟨hi, hj⟩ := h.counted i j hij
      simp only [Array.size_push, Store.countClosure]
      omega
    · simp only [Array.size_push, Store.countClosure]
      omega

end Foresees

section Calls

variable {g : Ground} {S : ScratchId} {c c' : CheckState} {w w' : World} {i : ScopeId} {span : Span}
  {f : Finding}
  {v : Value} {fs : List Finding} {vs : List Value}

theorem native_foreseen (hhost : g.host.PureByArguments) (htwins : Relator.BiUnique twins) {n : Native}
    (hfs : TellAll twins fs vs) (w : World) :
    (∀ f c', checkNative g S span n fs c = .ok f c' → ∀ v w',
      callNative g.host i span n vs w = .ok v w' → f.Tells twins v) ∧
    ∀ e c', checkNative g S span n fs c = .error e c' →
      ∃ w', callNative g.host i span n vs w = .error e w' := by
  rw [checkNative]
  by_cases hn : n.isPure = true
  · rw [if_pos hn]
    cases hus : Finding.values? fs with
    | none =>
      refine ⟨?_, by rintro _ _ ⟨⟩⟩
      rintro _ _ ⟨⟩ v w' -
      trivial
    | some us =>
      obtain ⟨e, hcheck, hrun⟩ | ⟨u, v, hcheck, hrun, huv⟩ :=
        hhost n hn twins htwins (c.shown g) w.store (g.store.nextScope + S) i us vs
          (Finding.forall₂_values hfs hus) c.written w.written
      · simp only [askNative, callNative, hcheck, hrun]
        refine ⟨by rintro _ _ ⟨⟩, ?_⟩
        rintro _ _ ⟨⟩
        exact ⟨_, rfl⟩
      · simp only [askNative, callNative, hcheck, hrun]
        refine ⟨?_, by rintro _ _ ⟨⟩⟩
        rintro _ _ ⟨⟩ _ _ ⟨⟩
        exact huv
  · rw [if_neg hn]
    refine ⟨?_, by rintro _ _ ⟨⟩⟩
    rintro _ _ ⟨⟩ v w' -
    trivial

/-- A call that the check knows the callee of goes as it does in the run. -/
theorem apply_foreseen (hhost : g.host.PureByArguments) (htwins : Relator.BiUnique twins)
    {invoke : Invoke} {callee : Finding} {u : Value} (hcallee : callee.Tells twins u)
    (hfs : TellAll twins fs vs) (w : World) :
    (∀ f c', checkApply g S span callee fs c = .ok f c' → ∀ v w',
      (Dispatch.of vs.length u).run g.host invoke i span vs w = .ok v w' → f.Tells twins v) ∧
    ∀ e c', checkApply g S span callee fs c = .error e c' →
      ∃ w', (Dispatch.of vs.length u).run g.host invoke i span vs w = .error e w' := by
  cases callee with
  | unknown =>
    refine ⟨?_, by rintro _ _ ⟨⟩⟩
    rintro _ _ ⟨⟩ v w' -
    trivial
  | known u' =>
    rw [checkApply_known, hfs.length_eq]
    obtain ⟨n, hd, hd'⟩ | ⟨l, l', hd, hd', -⟩ | ⟨cause, hd, hd'⟩ :=
      Dispatch.of_linked hcallee vs.length
    · rw [hd, hd']
      exact native_foreseen hhost htwins hfs w
    · rw [hd, hd']
      refine ⟨?_, by rintro _ _ ⟨⟩⟩
      rintro _ _ ⟨⟩ v w' -
      trivial
    · rw [hd, hd']
      refine ⟨by rintro _ _ ⟨⟩, ?_⟩
      rintro _ _ ⟨⟩
      exact ⟨_, rfl⟩

end Calls

section Expressions

variable {g : Ground} {S : ScratchId} {invoke : Invoke}

mutual

theorem expr_foreseen (hhost : g.host.PureByArguments) (hinv : invoke.Spares) (e : Expr)
    {twins : Nat → Nat → Prop} {c c' : CheckState} {w w' : World} {f : Finding} {v : Value}
    (h : Foresees g S twins c w) (hcheck : checkExpr g S e c = .ok f c')
    (hrun : evalExpr g.host invoke g.scope e w = .ok v w') :
    ∃ twins', twins ≤ twins' ∧ Foresees g S twins' c' w' ∧ f.Tells twins' v := by
  cases e with
  | missing | forever => cases hcheck
  | number | boolean | null | string =>
    cases hcheck
    cases hrun
    exact ⟨twins, le_rfl, h, rfl⟩
  | symbol s =>
    rw [checkExpr, Checking.lookup] at hcheck
    rw [evalExpr, Execution.lookup] at hrun
    split at hrun
    · next u hget =>
      cases hrun
      obtain ⟨f', hf', htells⟩ := h.names s.name v hget
      rw [hf'] at hcheck
      cases hcheck
      exact ⟨twins, le_rfl, h, htells⟩
    · cases hrun
  | function span params body =>
    rw [checkExpr] at hcheck
    rw [evalExpr] at hrun
    split at hcheck
    · cases hcheck
    · next hpresent =>
      rw [if_neg hpresent] at hrun
      cases hcheck
      cases hrun
      exact ⟨_, fun _ _ h => .inl h, h.closure _, _, rfl, .inr ⟨rfl, rfl⟩, rfl, rfl⟩
  | call span callee args =>
    rw [checkExpr] at hcheck
    rw [evalExpr] at hrun
    split at hcheck
    · cases hcheck
    next hpresent =>
    rw [if_neg hpresent] at hrun
    obtain ⟨u, c₁, hcallee, hcheck⟩ := bind_eq_ok hcheck
    obtain ⟨us, c₂, hargs, hcheck⟩ := bind_eq_ok hcheck
    obtain ⟨x, w₁, hx, hrun⟩ := bind_eq_ok hrun
    obtain ⟨xs, w₂, hxs, hrun⟩ := bind_eq_ok hrun
    obtain ⟨twins₁, hle₁, h₁, hu⟩ := expr_foreseen hhost hinv callee h hcallee hx
    obtain ⟨twins₂, hle₂, h₂, hus⟩ := args_foreseen hhost hinv args h₁ hargs hxs
    -- a closure that is called writes to scopes of its own only
    have hgrows : w₂.store.Grows (fun _ => False) w'.store := by
      have hgrows := (@spares_computes g.host invoke hinv g.scope).applyValue span x xs w₂
      rwa [after_ok hrun] at hgrows
    obtain ⟨written, rfl⟩ := CheckState.of_checkApply hcheck
    have hvisited : c₂.Visited S (.expr (.call span callee args)) { c₂ with written } :=
      (CheckState.visited_refl S c₂ rfl).of_written
    rw [applyValue_eq] at hrun
    obtain ⟨⟨⟩, w₃, -, hrun⟩ := bind_eq_ok hrun
    have htells := (apply_foreseen hhost h₂.unique (hu.mono hle₂) hus w₃).1 f _ hcheck v w' hrun
    exact ⟨twins₂, hle₁.trans hle₂, h₂.expr hvisited hgrows, htells⟩
termination_by structural e

theorem args_foreseen (hhost : g.host.PureByArguments) (hinv : invoke.Spares) (es : List Expr)
    {twins : Nat → Nat → Prop} {c c' : CheckState} {w w' : World} {fs : List Finding} {vs : List Value}
    (h : Foresees g S twins c w) (hcheck : checkArgs g S es c = .ok fs c')
    (hrun : evalArgs g.host invoke g.scope es w = .ok vs w') :
    ∃ twins', twins ≤ twins' ∧ Foresees g S twins' c' w' ∧ TellAll twins' fs vs := by
  cases es with
  | nil =>
    cases hcheck
    cases hrun
    exact ⟨twins, le_rfl, h, .nil⟩
  | cons e es =>
    obtain ⟨u, c₁, hfirst, hcheck⟩ := bind_eq_ok hcheck
    obtain ⟨us, c₂, hrest, hcheck⟩ := bind_eq_ok hcheck
    obtain ⟨x, w₁, hx, hrun⟩ := bind_eq_ok hrun
    obtain ⟨xs, w₂, hxs, hrun⟩ := bind_eq_ok hrun
    cases hcheck
    cases hrun
    obtain ⟨twins₁, hle₁, h₁, hu⟩ := expr_foreseen hhost hinv e h hfirst hx
    obtain ⟨twins₂, hle₂, h₂, hus⟩ := args_foreseen hhost hinv es h₁ hrest hxs
    exact ⟨twins₂, hle₁.trans hle₂, h₂, .cons (hu.mono hle₂).orNull hus⟩
termination_by structural es

end

/-- Nothing is known of the value of a statement with blocks. -/
theorem checkStmt_compound {s : Stmt} (hs : s.isAtomic = false) {c c' : CheckState} {f : Finding}
    (hcheck : checkStmt g S s c = .ok f c') : f = .unknown := by
  cases s with
  | missing | set | call => cases hs
  | branch span condition thenBlock elseBlock =>
    rw [checkStmt] at hcheck
    split at hcheck
    · cases hcheck
    obtain ⟨u, c₁, -, hcheck⟩ := bind_eq_ok hcheck
    obtain ⟨⟨⟩, c₂, -, hcheck⟩ := bind_eq_ok hcheck
    split at hcheck
    · obtain ⟨⟨⟩, c₃, -, hcheck⟩ := bind_eq_ok hcheck
      cases hcheck
      rfl
    · cases hcheck
      rfl
  | times span count body =>
    rw [checkStmt] at hcheck
    split at hcheck
    · cases hcheck
    obtain ⟨⟨⟩, c₁, -, hcheck⟩ := bind_eq_ok hcheck
    obtain ⟨⟨⟩, c₂, -, hcheck⟩ := bind_eq_ok hcheck
    cases hcheck
    rfl

/-- The check foresees what can be after a statement, whatever blocks the run has executed in it. -/
theorem stmt_foreseen (hhost : g.host.PureByArguments) (hinv : invoke.Spares) (s : Stmt)
    {twins : Nat → Nat → Prop} {c c' : CheckState} {w w' : World} {f : Finding} {v : Value}
    (h : Foresees g S twins c w) (hcheck : checkStmt g S s c = .ok f c')
    (hrun : evalStmt g.host invoke g.scope s w = .ok v w') :
    ∃ twins', Foresees g S twins' c' w' ∧ f.Tells twins' v := by
  cases hs : s.isAtomic with
  | false =>
    obtain rfl := checkStmt_compound hs hcheck
    -- any of the blocks may have been executed, and any number of times
    obtain ⟨hvisited, hunknown⟩ := CheckState.checkStmt_visits s h.rooted hcheck
    have hgrows := (@spares_executes g.host invoke hinv g.scope).evalStmt s (fun _ _ => trivial) w
    rw [after_ok hrun] at hgrows
    refine ⟨twins, h.visited hvisited hgrows (fun x hx => ?_) (hunknown hs), trivial⟩
    have hleaves := (@leaves_executes g.host invoke hinv g.scope x).evalStmt s
      fun y hy => ne_of_mem_of_not_mem hy hx
    have hkept := (hleaves w h.there).2
    rwa [after_ok hrun] at hkept
  | true =>
    cases s with
    | missing => cases hcheck
    | branch | times => cases hs
    | call span callee args =>
      rw [checkStmt] at hcheck
      rw [evalStmt] at hrun
      obtain ⟨twins', -, h', hv⟩ := expr_foreseen hhost hinv _ h hcheck hrun
      exact ⟨twins', h', hv⟩
    | set span target value =>
      cases target with
      | none => cases hcheck
      | some symbol =>
        rw [checkStmt] at hcheck
        rw [evalStmt] at hrun
        split at hcheck
        · cases hcheck
        next hpresent =>
        rw [if_neg hpresent] at hrun
        obtain ⟨u, c₁, hvalue, hcheck⟩ := bind_eq_ok hcheck
        obtain ⟨x, w₁, hx, hrun⟩ := bind_eq_ok hrun
        cases hcheck
        cases hrun
        obtain ⟨twins₁, -, h₁, hu⟩ := expr_foreseen hhost hinv value h hvalue hx
        exact ⟨twins₁, h₁.assign symbol.name hu.orNull, hu.orNull⟩

theorem body_foreseen (hhost : g.host.PureByArguments) (hinv : invoke.Spares) (body : List Stmt)
    {last : Finding} {u : Value} {twins : Nat → Nat → Prop} {c c' : CheckState} {w w' : World}
    {f : Finding} {v : Value} (h : Foresees g S twins c w) (hlast : last.Tells twins u)
    (hcheck : checkBody g S last body c = .ok f c')
    (hrun : evalBody g.host invoke g.scope u body w = .ok v w') :
    ∃ twins', Foresees g S twins' c' w' ∧ f.Tells twins' v := by
  induction body generalizing last u twins c w with
  | nil =>
    cases hcheck
    cases hrun
    exact ⟨twins, h, hlast⟩
  | cons s rest ih =>
    obtain ⟨⟨⟩, c₁, hvisit, hcheck⟩ := bind_eq_ok hcheck
    cases hvisit
    obtain ⟨f₁, c₂, hfirst, hcheck⟩ := bind_eq_ok hcheck
    obtain ⟨v₁, w₁, hv₁, hrun⟩ := bind_eq_ok hrun
    have hseen : Foresees g S twins { c with visited := c.visited.push s } w :=
      ⟨h.names, h.unique, h.counted, h.rooted, h.there, h.around⟩
    obtain ⟨twins₁, h₁, htells⟩ := stmt_foreseen hhost hinv s hseen hfirst hv₁
    exact ih h₁ htells hcheck hrun

end Expressions

end Stepwise
