import Stepwise.Proofs.Names
import Stepwise.Proofs.Patience
import Stepwise.Proofs.Store

/-! Evaluation does not see loop stacks. In two stores that differ in nothing but what their scopes
keep their loops on, a tree that does not spell that name is evaluated alike: step for step, with the
same outcome and the same output, and it leaves two stores that differ in nothing else. -/

namespace Stepwise

open Execution

namespace Store

/-- The stores have the same scopes with the same bindings, but for those of loop stacks, and count
their closures alike. -/
structure SameBindings (s t : Store) : Prop where
  size : t.scopes.size = s.scopes.size
  chain : ∀ id, t.chain id = s.chain id
  lookup : ∀ id name, name ≠ loopBinding → t.lookup? id name = s.lookup? id name
  closures : t.closures = s.closures

end Store

/-- A value that leads to no loop stack but the `shared` ones: a closure does not spell the name that
scopes keep their loops under. -/
def Value.Plain (shared : Nat → Prop) : Value → Prop
  | .function c => loopBinding ∉ c.literal.names
  | .loops ref => shared ref
  | _ => True

namespace Store

/-- Stores that a program cannot tell apart. The loop stacks it may get hold of are `shared`. -/
structure Alike (shared : Nat → Prop) (s t : Store) : Prop extends SameBindings s t where
  stack : ∀ ref, shared ref → t.stack ref = s.stack ref
  plain : ∀ id name v, name ≠ loopBinding → s.lookup? id name = some v → v.Plain shared

variable {shared : Nat → Prop} {s t u : Store} {id scope : ScopeId} {name other : Name} {v : Value}

theorem SameBindings.trans (h : s.SameBindings t) (h' : t.SameBindings u) : s.SameBindings u :=
  ⟨h'.size.trans h.size, fun id => (h'.chain id).trans (h.chain id),
    fun id name hn => (h'.lookup id name hn).trans (h.lookup id name hn),
    h'.closures.trans h.closures⟩

theorem Alike.get?_eq (h : s.Alike shared t) (hn : name ≠ loopBinding) (id : ScopeId) :
    t.get? id name = s.get? id name := by
  have hlookup : (fun i => t.lookup? i name) = fun i => s.lookup? i name :=
    funext fun i => h.lookup i name hn
  rw [get?, get?, h.chain, hlookup]

theorem Alike.plain_of_get? (h : s.Alike shared t) (hn : name ≠ loopBinding)
    (hv : s.get? id name = some v) : v.Plain shared := by
  obtain ⟨i, -, hi⟩ := List.exists_of_findSome?_eq_some hv
  exact h.plain i name v hn hi

theorem sameBindings_set_loops (s : Store) (scope : ScopeId) (v : Value) :
    s.SameBindings (s.set scope loopBinding v) where
  size := size_set s scope loopBinding v
  chain id := chain_set s scope id loopBinding v
  lookup id name hn := by rw [lookup?_set, if_neg fun h => hn h.2.2]
  closures := rfl

theorem sameBindings_delete_loops (s : Store) (scope : ScopeId) :
    s.SameBindings (s.delete scope loopBinding) where
  size := by simp [delete]
  chain id := chain_delete s scope id loopBinding
  lookup id name hn := lookup?_delete_of_ne hn s scope id
  closures := rfl

theorem Alike.set (h : s.Alike shared t) (scope : ScopeId) (name : Name) (hv : v.Plain shared) :
    (s.set scope name v).Alike shared (t.set scope name v) where
  size := by rw [size_set, size_set, h.size]
  chain id := by rw [chain_set, chain_set, h.chain]
  lookup id other ho := by rw [lookup?_set, lookup?_set, h.size, h.lookup id other ho]
  closures := h.closures
  stack := h.stack
  plain id other v' ho hv' := by
    rw [lookup?_set] at hv'
    split at hv'
    · cases hv'
      exact hv
    · exact h.plain id other v' ho hv'

theorem Alike.countClosure (h : s.Alike shared t) : s.countClosure.Alike shared t.countClosure where
  size := h.size
  chain := h.chain
  lookup := h.lookup
  closures := congrArg (· + 1) h.closures
  stack := h.stack
  plain := h.plain

theorem Alike.extend (h : s.Alike shared t) (parent : ScopeId) {b : Bindings Value}
    (hb : ∀ name v, b.get? name = some v → v.Plain shared) :
    (s.extend parent b).Alike shared (t.extend parent b) where
  size := by simp [Store.extend, h.size]
  chain id := by rw [chain_extend, chain_extend, h.size, h.chain, h.chain]
  lookup id name hn := by rw [lookup?_extend, lookup?_extend, h.size, h.lookup id name hn]
  closures := h.closures
  stack := h.stack
  plain id name v hn hv := by
    rw [lookup?_extend] at hv
    split at hv
    · exact hb name v hv
    · exact h.plain id name v hn hv

end Store

namespace Execution

variable {α β : Type} {R : Store → Store → Prop} {P : α → Prop} {Q : β → Prop} {x y : Execution α}

/-- From stores related by `R` the two runs go the same way and end with stores related by `R`; a
result is one that `P` admits. -/
def Parallel (R : Store → Store → Prop) (P : α → Prop) (x y : Execution α) : Prop :=
  ∀ s t out polls, R s t → ∃ r s' t' out' polls',
    x ⟨s, out, polls⟩ = reply r ⟨s', out', polls'⟩ ∧
    y ⟨t, out, polls⟩ = reply r ⟨t', out', polls'⟩ ∧ R s' t' ∧ ∀ a, r = .ok a → P a

theorem Parallel.bind {f g : α → Execution β} (h : Parallel R P x y)
    (hfg : ∀ a, P a → Parallel R Q (f a) (g a)) : Parallel R Q (x >>= f) (y >>= g) := by
  intro s t out polls hR
  obtain ⟨r, s', t', out', polls', hx, hy, hR', hP⟩ := h s t out polls hR
  cases r with
  | error e => exact ⟨.error e, s', t', out', polls', bind_error hx, bind_error hy, hR', nofun⟩
  | ok a =>
    rw [bind_ok hx, bind_ok hy]
    exact hfg a (hP a rfl) s' t' out' polls' hR'

theorem parallel_pure {a : α} (h : P a) : Parallel R P (pure a) (pure a) := by
  intro s t out polls hR
  refine ⟨.ok a, s, t, out, polls, rfl, rfl, hR, ?_⟩
  rintro _ ⟨⟩
  exact h

theorem parallel_throw (f : Failure) : Parallel R P (throw f) (throw f) :=
  fun s t out polls hR => ⟨.error f, s, t, out, polls, rfl, rfl, hR, nofun⟩

theorem parallel_fail (cause : Cause) (span : Span) : Parallel R P (fail cause span) (fail cause span) :=
  parallel_throw _

theorem parallel_poll : Parallel R (fun _ => True) poll poll := by
  intro s t out polls hR
  cases polls with
  | zero => exact ⟨.error .canceled, s, t, out, 0, rfl, rfl, hR, fun _ _ => trivial⟩
  | succ polls => exact ⟨.ok (), s, t, out, polls, rfl, rfl, hR, fun _ _ => trivial⟩

theorem Parallel.map {g : α → β} (h : Parallel R P x y) (hg : ∀ a, P a → Q (g a)) :
    Parallel R Q (g <$> x) (g <$> y) := by
  rw [map_eq_pure_bind, map_eq_pure_bind]
  exact h.bind fun a ha => parallel_pure (hg a ha)

variable {shared : Nat → Prop}

theorem parallel_lookup (scope : ScopeId) {s : Symbol} (h : s.name ≠ loopBinding) :
    Parallel (Store.Alike shared) (Value.Plain shared) (lookup scope s) (lookup scope s) := by
  intro u t out polls hR
  simp only [lookup, hR.get?_eq h]
  cases hv : u.get? scope s.name with
  | some v =>
    refine ⟨.ok v, u, t, out, polls, rfl, rfl, hR, ?_⟩
    rintro _ ⟨⟩
    exact hR.plain_of_get? h hv
  | none =>
    refine ⟨.error _, u, t, out, polls, rfl, rfl, hR, ?_⟩
    rintro _ ⟨⟩

theorem parallel_assign (scope : ScopeId) (name : Name) {v : Value} (h : v.Plain shared) :
    Parallel (Store.Alike shared) (fun _ => True) (assign scope name v) (assign scope name v) :=
  fun _ _ out polls hR =>
    ⟨.ok (), _, _, out, polls, rfl, rfl, hR.set scope name h, fun _ _ => trivial⟩

theorem parallel_makeClosure (scope : ScopeId) {literal : Literal}
    (h : loopBinding ∉ literal.names) :
    Parallel (Store.Alike shared) (Value.Plain shared) (makeClosure scope literal)
      (makeClosure scope literal) := by
  intro s t out polls hR
  refine ⟨.ok (.function (s.closure literal scope)), _, _, out, polls, rfl, ?_, hR.countClosure, ?_⟩
  · simp only [makeClosure, Store.closure, hR.closures]
    rfl
  · rintro _ ⟨⟩
    exact h

theorem parallel_openScope {c : Closure} {args : List Value} (h : ∀ v ∈ args, v.Plain shared) :
    Parallel (Store.Alike shared) (fun _ => True) (openScope c args) (openScope c args) := by
  intro s t out polls hR
  have hb (name : Name) (v : Value)
      (hv : (Bindings.ofList (c.literal.paramNames.zip args)).get? name = some v) :
      v.Plain shared :=
    h v (List.of_mem_zip (Bindings.mem_of_get?_ofList hv)).2
  refine ⟨.ok s.nextScope, _, _, out, polls, rfl, ?_, hR.extend c.scope hb, fun _ _ => trivial⟩
  simp only [openScope, Store.nextScope, hR.size]
  rfl

end Execution

/-- The natives take no notice of loop stacks: in stores alike they answer alike, and they hand out no
loop stack and no closure that spells the name of one. -/
def Host.IgnoresLoops (host : Host) : Prop :=
  ∀ shared s t n scope args written, Store.Alike shared s t → (∀ v ∈ args, v.Plain shared) →
    host n t scope args written = host n s scope args written ∧
    ∀ v, (host n s scope args written).result = .ok v → v.Plain shared

theorem parallel_callNative {host : Host} {shared : Nat → Prop} (hhost : host.IgnoresLoops)
    (scope : ScopeId) (span : Span) (n : Native) {args : List Value}
    (h : ∀ v ∈ args, v.Plain shared) :
    Parallel (Store.Alike shared) (Value.Plain shared) (callNative host scope span n args)
      (callNative host scope span n args) := by
  intro s t out polls hR
  obtain ⟨hreply, hplain⟩ := hhost shared s t n scope args out hR h
  simp only [callNative, hreply]
  cases hv : (host n s scope args out).result with
  | ok v =>
    refine ⟨.ok v, s, t, _, polls, rfl, rfl, hR, ?_⟩
    rintro _ ⟨⟩
    exact hplain v hv
  | error e =>
    refine ⟨.error _, s, t, _, polls, rfl, rfl, hR, ?_⟩
    rintro _ ⟨⟩

theorem Store.Alike.text_eq {shared : Nat → Prop} {s t : Store} {v : Value} (h : s.Alike shared t)
    (hv : v.Plain shared) : t.text v = s.text v := by
  cases v with
  | loops ref => simp only [Store.text, h.stack ref hv]
  | boolean b => cases b <;> rfl
  | _ => rfl

theorem Value.plain_of_isScalar {shared : Nat → Prop} {v : Value} (h : v.isScalar) : v.Plain shared := by
  cases v with
  | function | loops => cases h
  | _ => trivial

theorem Primitive.call_alike {shared : Nat → Prop} {s t : Store} {args : List Value} (p : Primitive)
    (writer : Writer) (written : Array Bytes) (h : s.Alike shared t) (hargs : ∀ v ∈ args, v.Plain shared) :
    p.call writer t args written = p.call writer s args written ∧
      ∀ v, (p.call writer s args written).result = .ok v → v.Plain shared := by
  refine ⟨?_, fun v hv => Value.plain_of_isScalar (call_isScalar hv)⟩
  unfold Primitive.call
  split
  · rfl
  · next v => rw [h.text_eq (hargs v (by simp))]
  · rfl
  · rfl

theorem primitivesOn_ignoresLoops (writer : Writer) : (primitivesOn writer).IgnoresLoops := by
  intro shared s t n scope args written hR hargs
  unfold primitivesOn
  split
  · next p _ => exact p.call_alike writer written hR hargs
  · exact ⟨rfl, fun v hv => nomatch hv⟩

abbrev Indifferent {α : Type} (shared : Nat → Prop) (P : α → Prop) (x : Execution α) : Prop :=
  Parallel (Store.Alike shared) P x x

def Invoke.Indifferent (shared : Nat → Prop) (invoke : Invoke) : Prop :=
  ∀ span c args, loopBinding ∉ c.literal.names → (∀ v ∈ args, v.Plain shared) →
    Stepwise.Indifferent shared (Value.Plain shared) (invoke span c args)

theorem Value.plain_absent {shared : Nat → Prop} : Value.absent.Plain shared := trivial

theorem Value.Plain.orNull {shared : Nat → Prop} {v : Value} (h : v.Plain shared) :
    v.orNull.Plain shared := by
  cases v with
  | absent => trivial
  | _ => exact h

variable {shared : Nat → Prop} {host : Host} {invoke : Invoke} {scope : ScopeId}

theorem applyValue_indifferent (hhost : host.IgnoresLoops) (hinv : invoke.Indifferent shared)
    (span : Span) {callee : Value} {args : List Value} (hcallee : callee.Plain shared)
    (hargs : ∀ v ∈ args, v.Plain shared) :
    Indifferent shared (Value.Plain shared) (applyValue host invoke scope span callee args) := by
  rw [applyValue_eq]
  refine parallel_poll.bind fun _ _ => ?_
  cases hd : Dispatch.of args.length callee with
  | native n => exact parallel_callNative hhost scope span n hargs
  | closure c =>
    rw [Dispatch.of_closure hd] at hcallee
    exact hinv span c args hcallee hargs
  | refused cause => exact parallel_fail cause span

mutual

theorem evalExpr_indifferent (hhost : host.IgnoresLoops) (hinv : invoke.Indifferent shared)
    (e : Expr) (he : loopBinding ∉ e.names) :
    Indifferent shared (Value.Plain shared) (evalExpr host invoke scope e) := by
  cases e with
  | missing => exact parallel_fail _ _
  | symbol s =>
    refine parallel_lookup scope fun h => he ?_
    simp [Expr.names, h]
  | number sp n => exact parallel_pure trivial
  | boolean sp b => exact parallel_pure trivial
  | null sp => exact parallel_pure trivial
  | string sp s => exact parallel_pure trivial
  | forever sp => exact parallel_fail _ _
  | function sp params body =>
    rw [evalExpr]
    split
    · exact parallel_fail _ _
    · exact parallel_makeClosure scope he
  | call sp callee args =>
    simp only [Expr.names, List.mem_append, not_or] at he
    rw [evalExpr]
    split
    · exact parallel_fail _ _
    · refine (evalExpr_indifferent hhost hinv callee he.1).bind fun f hf => ?_
      refine (evalArgs_indifferent hhost hinv args he.2).bind fun vs hvs => ?_
      exact applyValue_indifferent hhost hinv sp hf hvs

theorem evalArgs_indifferent (hhost : host.IgnoresLoops) (hinv : invoke.Indifferent shared)
    (es : List Expr) (hes : loopBinding ∉ Expr.namesOf es) :
    Indifferent shared (fun vs => ∀ v ∈ vs, v.Plain shared) (evalArgs host invoke scope es) := by
  cases es with
  | nil => exact parallel_pure fun v hv => absurd hv List.not_mem_nil
  | cons e es =>
    simp only [Expr.namesOf, List.mem_append, not_or] at hes
    rw [evalArgs]
    refine (evalExpr_indifferent hhost hinv e hes.1).bind fun v hv => ?_
    refine (evalArgs_indifferent hhost hinv es hes.2).bind fun vs hvs => parallel_pure ?_
    rintro u (_ | ⟨_, hu⟩)
    · exact hv.orNull
    · exact hvs u hu

end

theorem startLoop_indifferent (span : Span) {count : Expr} (body : Block)
    (h : loopBinding ∉ count.names) :
    Indifferent shared (fun _ => True) (startLoop host invoke scope span count body) := by
  cases hb : body.isMissing with
  | true =>
    rw [startLoop.eq_def, hb]
    exact parallel_fail _ _
  | false =>
    rw [startLoop.eq_def, hb]
    cases count with
    | symbol s =>
      have hs : s.name ≠ loopBinding := fun h' => h (by simp [Expr.names, h'])
      refine (parallel_lookup scope hs).bind fun v _ => ?_
      cases v with
      | integer n => exact parallel_pure trivial
      | _ => exact parallel_fail _ _
    | forever | number => exact parallel_pure trivial
    | _ => exact parallel_fail _ _

theorem runLoop_indifferent {body : Execution Value}
    (hbody : Indifferent shared (Value.Plain shared) body) (rounds : Nat) (frame : LoopFrame)
    {last : Value} (hlast : last.Plain shared) :
    Indifferent shared (Value.Plain shared) (runLoop body rounds frame last) := by
  induction rounds generalizing frame last with
  | zero => exact parallel_throw _
  | succ rounds ih =>
    rw [runLoop]
    split
    · exact parallel_pure hlast
    · exact parallel_poll.bind fun _ _ => hbody.bind fun v hv => ih frame.next hv

mutual

theorem evalStmt_indifferent (hhost : host.IgnoresLoops) (hinv : invoke.Indifferent shared)
    (s : Stmt) (hs : loopBinding ∉ s.names) :
    Indifferent shared (Value.Plain shared) (evalStmt host invoke scope s) := by
  cases s with
  | missing => exact parallel_fail _ _
  | set sp target value =>
    simp only [Stmt.names, List.mem_append, not_or] at hs
    cases target with
    | none => exact parallel_fail _ _
    | some symbol =>
      rw [evalStmt]
      split
      · exact parallel_fail _ _
      · refine (evalExpr_indifferent hhost hinv value hs.2).bind fun v hv => ?_
        exact (parallel_assign scope symbol.name hv.orNull).bind fun _ _ => parallel_pure hv.orNull
  | branch sp condition thenBlock elseBlock =>
    simp only [Stmt.names, List.mem_append, not_or] at hs
    rw [evalStmt]
    split
    · exact parallel_fail _ _
    refine (evalExpr_indifferent hhost hinv condition hs.1).bind fun v _ => ?_
    split
    · exact evalBlock_indifferent hhost hinv thenBlock hs.2.1
    · split
      · exact parallel_pure trivial
      · exact evalBlock_indifferent hhost hinv elseBlock hs.2.2
  | times sp count body =>
    simp only [Stmt.names, List.mem_append, not_or] at hs
    rw [evalStmt_times]
    refine (startLoop_indifferent sp body hs.1).bind fun frame _ s t out polls hR => ?_
    exact runLoop_indifferent (evalBlock_indifferent hhost hinv body hs.2) (polls + 1) frame
      Value.plain_absent s t out polls hR
  | call sp callee args =>
    rw [evalStmt]
    exact evalExpr_indifferent hhost hinv (.call sp callee args) hs

theorem evalBlock_indifferent (hhost : host.IgnoresLoops) (hinv : invoke.Indifferent shared)
    (b : Block) (hb : loopBinding ∉ b.names) :
    Indifferent shared (Value.Plain shared) (evalBlock host invoke scope b) := by
  cases b with
  | missing => exact parallel_pure trivial
  | of sp body => exact evalBody_indifferent hhost hinv Value.plain_absent body hb

theorem evalBody_indifferent (hhost : host.IgnoresLoops) (hinv : invoke.Indifferent shared)
    {last : Value} (hlast : last.Plain shared) (body : List Stmt)
    (hbody : loopBinding ∉ Stmt.namesOf body) :
    Indifferent shared (Value.Plain shared) (evalBody host invoke scope last body) := by
  cases body with
  | nil => exact parallel_pure hlast
  | cons s rest =>
    simp only [Stmt.namesOf, List.mem_append, not_or] at hbody
    rw [evalBody]
    refine (evalStmt_indifferent hhost hinv s hbody.1).bind fun v hv => ?_
    exact evalBody_indifferent hhost hinv hv rest hbody.2

end

theorem invokeAt_indifferent (setting : Setting) (hhost : setting.host.IgnoresLoops) (left : Nat) :
    (invokeAt setting left).Indifferent shared := by
  induction left with
  | zero => exact fun span c args _ _ => parallel_fail _ _
  | succ left ih =>
    intro span c args hc hargs
    simp only [Literal.names, List.mem_append, not_or] at hc
    exact (parallel_openScope hargs).bind fun id _ => evalBlock_indifferent hhost ih _ hc.2

end Stepwise
