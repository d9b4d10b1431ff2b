import Stepwise.Proofs.Linkage
import Stepwise.Proofs.Rollback

/-! Runs in unison. From linked stores the same tree takes the same course: it makes as many polls,
prints the same texts and ends with linked values or with the same failure. What a run makes on its way
is linked to what the other one makes, so links only grow. -/

namespace Stepwise

theorem written_append (out : Array Bytes) (more more' : List Bytes) :
    out ++ more ++ more' = out ++ (more ++ more') := by
  apply Array.ext'
  simp only [Array.toList_appendList, List.append_assoc]

/-- The host answers as it would have answered if something else had been written before; what is written
from now on it may remember. -/
def Host.Confuses (host : Host) (out out' : Array Bytes) : Prop :=
  ∀ (more : List Bytes) n s scope args, host n s scope args (out' ++ more) = host n s scope args (out ++ more)

namespace Host.Confuses

variable {host : Host} {out out' : Array Bytes}

theorem refl (host : Host) (out : Array Bytes) : host.Confuses out out := fun _ _ _ _ _ => rfl

theorem append (h : host.Confuses out out') (texts : List Bytes) :
    host.Confuses (out ++ texts) (out' ++ texts) := by
  intro more n s scope args
  rw [written_append, written_append]
  exact h (texts ++ more) n s scope args

theorem reply_eq (h : host.Confuses out out') (n : Native) (s : Store) (scope : ScopeId) (args : List Value) :
    host n s scope args out' = host n s scope args out := by
  have hnil := h [] n s scope args
  rwa [Array.appendList_nil, Array.appendList_nil] at hnil

end Host.Confuses

/-- The primitives remember nothing, unless their writer does. -/
theorem primitives_confuses (out out' : Array Bytes) : primitives.Confuses out out' := fun _ _ _ _ _ => rfl

namespace Execution

variable {α β γ δ : Type} {host : Host} {k : Link} {P : Link → α → β → Prop} {Q : Link → γ → δ → Prop}
  {t₀ : Store} {out out' : Array Bytes}

/-- Two runs have ended alike since what stood in `out` and `out'` was written, and the second one was
in the store `t₀`. -/
inductive EndAlike (k : Link) (t₀ : Store) (P : Link → α → β → Prop) (out out' : Array Bytes) :
    EStateM.Result Failure World α → EStateM.Result Failure World β → Prop
  | ok {k' : Link} {a : α} {b : β} {s t : Store} {more : List Bytes} {polls : Nat} :
      k.Onward t₀ k' t → s.Linked k' t → P k' a b →
      EndAlike k t₀ P out out' (.ok a ⟨s, out ++ more, polls⟩) (.ok b ⟨t, out' ++ more, polls⟩)
  | error {k' : Link} {f : Failure} {s t : Store} {more : List Bytes} {polls : Nat} :
      k.Onward t₀ k' t → s.Linked k' t →
      EndAlike k t₀ P out out' (.error f ⟨s, out ++ more, polls⟩) (.error f ⟨t, out' ++ more, polls⟩)

/-- From stores linked so, the two runs end alike, if the host takes no notice of what has been written
differently. -/
def Unison (host : Host) (k : Link) (P : Link → α → β → Prop) (x : Execution α) (y : Execution β) : Prop :=
  ∀ s t out out' polls, host.Confuses out out' → s.Linked k t →
    EndAlike k t P out out' (x ⟨s, out, polls⟩) (y ⟨t, out', polls⟩)

theorem EndAlike.after {k' : Link} {t : Store} {more : List Bytes} (honward : k.Onward t₀ k' t)
    {r : EStateM.Result Failure World α} {r' : EStateM.Result Failure World β}
    (h : EndAlike k' t P (out ++ more) (out' ++ more) r r') : EndAlike k t₀ P out out' r r' := by
  cases h with
  | ok honward' hst hab =>
    rw [written_append, written_append]
    exact .ok (honward.trans honward') hst hab
  | error honward' hst =>
    rw [written_append, written_append]
    exact .error (honward.trans honward') hst

theorem EndAlike.ok_here {a : α} {b : β} {s t : Store} {polls : Nat} {k' : Link}
    (honward : k.Onward t₀ k' t) (hst : s.Linked k' t) (hab : P k' a b) :
    EndAlike k t₀ P out out' (.ok a ⟨s, out, polls⟩) (.ok b ⟨t, out', polls⟩) := by
  have h := @EndAlike.ok α β k t₀ P out out' k' a b s t [] polls honward hst hab
  rwa [Array.appendList_nil, Array.appendList_nil] at h

theorem EndAlike.error_here {f : Failure} {s t : Store} {polls : Nat} (hst : s.Linked k t) :
    EndAlike k t P out out' (.error f ⟨s, out, polls⟩) (.error f ⟨t, out', polls⟩) := by
  have h := @EndAlike.error α β k t P out out' k f s t [] polls (.refl k t) hst
  rwa [Array.appendList_nil, Array.appendList_nil] at h

theorem Unison.bind {x : Execution α} {y : Execution β} {f : α → Execution γ} {g : β → Execution δ}
    (h : Unison host k P x y)
    (hfg : ∀ k', k ≤ k' → ∀ a b, P k' a b → Unison host k' Q (f a) (g b)) :
    Unison host k Q (x >>= f) (y >>= g) := by
  intro s t out out' polls hout hst
  have hxy := h s t out out' polls hout hst
  generalize hx : x ⟨s, out, polls⟩ = r at hxy
  generalize hy : y ⟨t, out', polls⟩ = r' at hxy
  cases hxy with
  | @ok k' a b s' t' more polls' honward hst' hab =>
    rw [bind_ok hx, bind_ok hy]
    exact (hfg k' honward.le a b hab s' t' _ _ polls' (hout.append more) hst').after honward
  | error honward hst' =>
    rw [bind_error hx, bind_error hy]
    exact .error honward hst'

theorem unison_pure {a : α} {b : β} (h : P k a b) : Unison host k P (pure a) (pure b) :=
  fun _ t _ _ _ _ hst => .ok_here (.refl k t) hst h

theorem unison_throw (f : Failure) : Unison host k P (throw f) (throw f) :=
  fun _ _ _ _ _ _ hst => .error_here hst

theorem unison_fail (cause : Cause) (span : Span) : Unison host k P (fail cause span) (fail cause span) :=
  unison_throw _

theorem unison_poll : Unison host k (fun _ _ _ => True) poll poll := by
  intro s t out out' polls hout hst
  cases polls with
  | zero => exact .error_here hst
  | succ polls => exact .ok_here (.refl k t) hst trivial

variable {i j : ScopeId}

theorem unison_lookup (hij : k.scope i j) (s : Symbol) :
    Unison host k Value.Linked (lookup i s) (lookup j s) := by
  intro u t out out' polls hout hst
  have hget := hst.get? hij s.name
  rw [lookup, lookup]
  generalize u.get? i s.name = v at hget
  generalize t.get? j s.name = v' at hget
  cases hget with
  | none => exact .error_here hst
  | some hv => exact .ok_here (.refl k t) hst hv

theorem unison_assign (hij : k.scope i j) (name : Name) {v v' : Value} (hv : v.Linked k v') :
    Unison host k (fun _ _ _ => True) (assign i name v) (assign j name v') :=
  fun _ t _ _ _ _ hst => .ok_here ((Link.Onward.refl k t).set j name v') (hst.set hij name hv) trivial

theorem unison_makeClosure (hij : k.scope i j) (literal : Literal) :
    Unison host k Value.Linked (makeClosure i literal) (makeClosure j literal) := by
  intro s t out out' polls hout hst
  have honward := Link.Onward.countClosure k t s.closures
  exact .ok_here honward hst.countClosure
    ⟨_, rfl, .inr ⟨rfl, rfl⟩, rfl, Link.scope_le honward.le hij⟩

theorem entriesLinked_zip {vs vs' : List Value} (h : ValuesLinked k vs vs') (names : List Name) :
    EntriesLinked k (names.zip vs) (names.zip vs') := by
  induction names generalizing vs vs' with
  | nil => exact .nil
  | cons name names ih =>
    cases h with
    | nil => exact .nil
    | cons hv hrest => exact .cons ⟨rfl, hv⟩ (ih hrest)

theorem unison_openScope {c c' : Closure} (hliteral : c'.literal = c.literal)
    (hscope : k.scope c.scope c'.scope) {vs vs' : List Value} (hvs : ValuesLinked k vs vs') :
    Unison host k (fun k => k.scope) (openScope c vs) (openScope c' vs') := by
  intro s t out out' polls hout hst
  have hb := Bindings.linked_ofList (entriesLinked_zip hvs c.literal.paramNames)
  rw [openScope, openScope, hliteral]
  exact .ok_here (.extend k t s.nextScope c'.scope _) (hst.extend hscope hb) (.inr ⟨rfl, rfl⟩)

end Execution

open Execution

/-- In linked stores the natives answer linked arguments alike. -/
def Host.Respects (host : Host) : Prop :=
  ∀ k s t n i j vs vs' written, Store.Linked k s t → k.scope i j → ValuesLinked k vs vs' →
    (host n t j vs' written).writes = (host n s i vs written).writes ∧
    ((∃ f, (host n s i vs written).result = .error f ∧ (host n t j vs' written).result = .error f) ∨
      ∃ v v', (host n s i vs written).result = .ok v ∧ (host n t j vs' written).result = .ok v' ∧
        v.Linked k v')

theorem Primitive.binary_linked (p : Primitive) {k : Link} {a a' b b' : Value} (ha : a.Linked k a')
    (hb : b.Linked k b') : p.binary a' b' = p.binary a b := by
  obtain ⟨rfl, -⟩ | ⟨c, c', rfl, rfl, -⟩ | ⟨i, j, rfl, rfl, -⟩ := ha.cases
  · obtain ⟨rfl, -⟩ | ⟨c, c', rfl, rfl, -⟩ | ⟨i, j, rfl, rfl, -⟩ := hb.cases
    · rfl
    · cases a' <;> rfl
    · cases a' <;> rfl
  all_goals
    simp only [Primitive.binary, ha.shape_eq, hb.shape_eq]

/-- Only what is printed depends on the store, and on the writer. -/
theorem Primitive.call_linked (p : Primitive) (writer : Writer) (written : Array Bytes) {k : Link}
    {s t : Store} {vs vs' : List Value} (hst : p.isPure = true ∨ s.Linked k t)
    (hvs : ValuesLinked k vs vs') : p.call writer t vs' written = p.call writer s vs written := by
  cases hvs with
  | nil => cases p <;> rfl
  | cons ha hvs =>
    cases hvs with
    | nil =>
      cases p with
      | not => simp only [Primitive.call, ha.isTruthy_eq]
      | print =>
        have hst : s.Linked k t := hst.resolve_left nofun
        simp only [Primitive.call, hst.text_eq ha]
      | _ => rfl
    | cons hb hvs =>
      cases hvs with
      | nil => simp only [Primitive.call, p.binary_linked ha hb]
      | cons hc hvs => simp only [Primitive.call, List.length_cons, hvs.length_eq]

theorem primitivesOn_respects (writer : Writer) : (primitivesOn writer).Respects := by
  intro k s t n i j vs vs' written hst _ hvs
  rw [primitivesOn, primitivesOn]
  split
  · next p _ =>
    rw [p.call_linked writer written (.inr hst) hvs]
    refine ⟨rfl, ?_⟩
    cases hr : (p.call writer s vs written).result with
    | error f => exact .inl ⟨f, rfl, rfl⟩
    | ok v => exact .inr ⟨v, v, rfl, rfl, Value.linked_self (Primitive.call_isScalar hr)⟩
  · exact ⟨rfl, .inl ⟨_, rfl, rfl⟩⟩

/-- Pure natives answer linked arguments alike, wherever and whenever they are called. -/
def Host.PureRespects (host : Host) : Prop :=
  ∀ n, n.isPure = true → ∀ k s t i j vs vs', ValuesLinked k vs vs' → ∀ before before',
    (∃ f, (host n s i vs before).result = .error f ∧ (host n t j vs' before').result = .error f) ∨
      ∃ v v', (host n s i vs before).result = .ok v ∧ (host n t j vs' before').result = .ok v' ∧
        v.Linked k v'

/-- The writer, and what it has been given, matter to nothing but a print. -/
theorem Primitive.call_of_isPure {p : Primitive} (hp : p.isPure = true) (writer writer' : Writer)
    (s : Store) (args : List Value) (before before' : Array Bytes) :
    p.call writer' s args before' = p.call writer s args before := by
  unfold call
  split
  · rfl
  · cases hp
  · rfl
  · rfl

theorem Primitive.isPure_of_ofNative? {n : Native} {p : Primitive} (h : ofNative? n = some p) :
    p.isPure = n.isPure := by
  rw [← ofNative?_eq_some_iff.mp h]
  rfl

theorem primitivesOn_eq_of_isPure (writer writer' : Writer) {n : Native} (hn : n.isPure = true) :
    primitivesOn writer' n = primitivesOn writer n := by
  funext s scope args before
  cases hp : Primitive.ofNative? n with
  | none => simp only [primitivesOn, hp]
  | some p =>
    have hpure : p.isPure = true := (Primitive.isPure_of_ofNative? hp).trans hn
    simp only [primitivesOn, hp, Primitive.call_of_isPure hpure writer writer' s args before before]

theorem primitivesOn_pureRespects (writer : Writer) : (primitivesOn writer).PureRespects := by
  intro n hn k s t i j vs vs' hvs before before'
  cases hp : Primitive.ofNative? n with
  | none =>
    simp only [primitivesOn, hp]
    exact .inl ⟨_, rfl, rfl⟩
  | some p =>
    have hpure : p.isPure = true := (Primitive.isPure_of_ofNative? hp).trans hn
    simp only [primitivesOn, hp, p.call_linked (s := s) (t := t) writer before' (.inl hpure) hvs,
      Primitive.call_of_isPure hpure writer writer s vs before before']
    cases hr : (p.call writer s vs before).result with
    | error f => exact .inl ⟨f, rfl, rfl⟩
    | ok v => exact .inr ⟨v, v, rfl, rfl, Value.linked_self (Primitive.call_isScalar hr)⟩

def Invoke.Unison (host : Host) (invoke : Invoke) : Prop :=
  ∀ k span c c' vs vs', c'.literal = c.literal → k.scope c.scope c'.scope → ValuesLinked k vs vs' →
    Execution.Unison host k Value.Linked (invoke span c vs) (invoke span c' vs')

variable {host : Host} {invoke : Invoke} {i j : ScopeId}

theorem callNative_unison {k : Link} (hhost : host.Respects) (hij : k.scope i j) (span : Span) (n : Native)
    {vs vs' : List Value} (hvs : ValuesLinked k vs vs') :
    Unison host k Value.Linked (callNative host i span n vs) (callNative host j span n vs') := by
  intro s t out out' polls hout hst
  have hreply := hout.reply_eq n t j vs'
  obtain ⟨hwrites, ⟨f, hr, hr'⟩ | ⟨v, v', hr, hr', hv⟩⟩ := hhost k s t n i j vs vs' out hst hij hvs
  · simp only [callNative, hreply, hwrites, hr, hr']
    exact .error (.refl k t) hst
  · simp only [callNative, hreply, hwrites, hr, hr']
    exact .ok (.refl k t) hst hv

/-- Calls of linked values go to the same native or to linked closures, or are refused alike. -/
theorem Dispatch.of_linked {k : Link} {f f' : Value} (hf : f.Linked k f') (count : Nat) :
    (∃ n, of count f = .native n ∧ of count f' = .native n) ∨
    (∃ c c', of count f = .closure c ∧ of count f' = .closure c' ∧ c'.literal = c.literal ∧
      k.scope c.scope c'.scope) ∨
    ∃ cause, of count f = .refused cause ∧ of count f' = .refused cause := by
  obtain ⟨rfl, hscalar⟩ | ⟨c, c', rfl, rfl, -, hliteral, hscope⟩ | ⟨a, b, rfl, rfl, -⟩ := hf.cases
  · cases hd : Dispatch.of count f' with
    | native n => exact .inl ⟨n, rfl, rfl⟩
    | closure c =>
      rw [Dispatch.of_closure hd] at hscalar
      cases hscalar
    | refused cause => exact .inr (.inr ⟨cause, rfl, rfl⟩)
  · simp only [Dispatch.of, hliteral]
    split
    · exact .inr (.inl ⟨c, c', rfl, rfl, hliteral, hscope⟩)
    · exact .inr (.inr ⟨_, rfl, rfl⟩)
  · exact .inr (.inr ⟨_, rfl, rfl⟩)

theorem applyValue_unison {k : Link} (hhost : host.Respects) (hinv : invoke.Unison host) (hij : k.scope i j)
    (span : Span) {f f' : Value} (hf : f.Linked k f') {vs vs' : List Value}
    (hvs : ValuesLinked k vs vs') :
    Unison host k Value.Linked (applyValue host invoke i span f vs)
      (applyValue host invoke j span f' vs') := by
  have hlength : vs'.length = vs.length := hvs.length_eq.symm
  rw [applyValue_eq, applyValue_eq, hlength]
  refine unison_poll.bind fun k' hle _ _ _ => ?_
  have hij := Link.scope_le hle hij
  have hvs := hvs.mono hle
  obtain ⟨n, hd, hd'⟩ | ⟨c, c', hd, hd', hliteral, hscope⟩ | ⟨cause, hd, hd'⟩ :=
    Dispatch.of_linked hf vs.length
  · rw [hd, hd']
    exact callNative_unison hhost hij span n hvs
  · rw [hd, hd']
    exact hinv k' span c c' vs vs' hliteral (Link.scope_le hle hscope) hvs
  · rw [hd, hd']
    exact unison_fail cause span

mutual

theorem evalExpr_unison {k : Link} (hhost : host.Respects) (hinv : invoke.Unison host) (hij : k.scope i j)
    (e : Expr) : Unison host k Value.Linked (evalExpr host invoke i e) (evalExpr host invoke j e) := by
  cases e with
  | missing => exact unison_fail _ _
  | symbol s => exact unison_lookup hij s
  | number sp n => exact unison_pure rfl
  | boolean sp b => exact unison_pure rfl
  | null sp => exact unison_pure rfl
  | string sp s => exact unison_pure rfl
  | forever sp => exact unison_fail _ _
  | function sp params body =>
    rw [evalExpr, evalExpr]
    split
    · exact unison_fail _ _
    · exact unison_makeClosure hij _
  | call sp callee args =>
    rw [evalExpr, evalExpr]
    split
    · exact unison_fail _ _
    · refine (evalExpr_unison hhost hinv hij callee).bind fun k' hle f f' hf => ?_
      have hij := Link.scope_le hle hij
      refine (evalArgs_unison hhost hinv hij args).bind fun k'' hle vs vs' hvs => ?_
      exact applyValue_unison hhost hinv (Link.scope_le hle hij) sp (hf.mono hle) hvs

theorem evalArgs_unison {k : Link} (hhost : host.Respects) (hinv : invoke.Unison host) (hij : k.scope i j)
    (es : List Expr) :
    Unison host k ValuesLinked (evalArgs host invoke i es) (evalArgs host invoke j es) := by
  cases es with
  | nil => exact unison_pure .nil
  | cons e es =>
    rw [evalArgs, evalArgs]
    refine (evalExpr_unison hhost hinv hij e).bind fun k' hle v v' hv => ?_
    refine (evalArgs_unison hhost hinv (Link.scope_le hle hij) es).bind fun k'' hle vs vs' hvs => ?_
    exact unison_pure (.cons (hv.mono hle).orNull hvs)

end

theorem countFrame_unison {k : Link} (s : Symbol) {v v' : Value} (hv : v.Linked k v') :
    Unison host k (fun _ a b => b = a) (countFrame s v) (countFrame s v') := by
  obtain ⟨rfl, -⟩ | ⟨c, c', rfl, rfl, -⟩ | ⟨i, j, rfl, rfl, -⟩ := hv.cases
  · obtain ⟨n, -, hframe⟩ | hframe := countFrame_cases s v'
    · rw [hframe]
      exact unison_pure rfl
    · rw [hframe]
      exact unison_fail _ _
  · exact unison_fail _ _
  · exact unison_fail _ _

theorem startLoop_unison {k : Link} (hij : k.scope i j) (span : Span) (count : Expr) (body : Block) :
    Unison host k (fun _ a b => b = a) (startLoop host invoke i span count body)
      (startLoop host invoke j span count body) := by
  obtain ⟨s, hstart⟩ | ⟨frame, hstart⟩ | ⟨cause, place, -, hstart⟩ := startLoop_cases span count body
  · rw [hstart, hstart]
    exact (unison_lookup hij s).bind fun k' _ v v' hv => countFrame_unison s hv
  · rw [hstart, hstart]
    exact unison_pure rfl
  · rw [hstart, hstart]
    exact unison_fail cause place

theorem runLoop_unison {k : Link} {body body' : Execution Value}
    (hbody : ∀ k', k ≤ k' → Unison host k' Value.Linked body body') (rounds : Nat) (frame : LoopFrame)
    {last last' : Value} (hlast : last.Linked k last') :
    Unison host k Value.Linked (runLoop body rounds frame last) (runLoop body' rounds frame last') := by
  induction rounds generalizing k frame last last' with
  | zero => exact unison_throw _
  | succ rounds ih =>
    rw [runLoop, runLoop]
    split
    · exact unison_pure hlast
    · refine unison_poll.bind fun k₁ hle _ _ _ => ?_
      refine (hbody k₁ hle).bind fun k₂ hle' v v' hv => ?_
      exact ih (fun k' hle'' => hbody k' ((hle.trans hle').trans hle'')) frame.next hv

mutual

theorem evalStmt_unison {k : Link} (hhost : host.Respects) (hinv : invoke.Unison host) (hij : k.scope i j)
    (s : Stmt) : Unison host k Value.Linked (evalStmt host invoke i s) (evalStmt host invoke j s) := by
  cases s with
  | missing => exact unison_fail _ _
  | set sp target value =>
    cases target with
    | none => exact unison_fail _ _
    | some symbol =>
      rw [evalStmt, evalStmt]
      split
      · exact unison_fail _ _
      · refine (evalExpr_unison hhost hinv hij value).bind fun k' hle v v' hv => ?_
        refine (unison_assign (Link.scope_le hle hij) symbol.name hv.orNull).bind fun k'' hle _ _ _ => ?_
        exact unison_pure (hv.mono hle).orNull
  | branch sp condition thenBlock elseBlock =>
    rw [evalStmt, evalStmt]
    split
    · exact unison_fail _ _
    refine (evalExpr_unison hhost hinv hij condition).bind fun k' hle v v' hv => ?_
    have hij := Link.scope_le hle hij
    rw [hv.isTruthy_eq]
    split
    · exact evalBlock_unison hhost hinv hij thenBlock
    · split
      · exact unison_pure rfl
      · exact evalBlock_unison hhost hinv hij elseBlock
  | times sp count body =>
    rw [evalStmt_times, evalStmt_times]
    refine (startLoop_unison hij sp count body).bind fun k' hle _ frame hframe => ?_
    obtain rfl := hframe
    intro s t out out' polls hout hst
    have hbody (k'' : Link) (hle' : k' ≤ k'') :
        Unison host k'' Value.Linked (evalBlock host invoke i body) (evalBlock host invoke j body) :=
      evalBlock_unison hhost hinv (Link.scope_le (hle.trans hle') hij) body
    exact runLoop_unison hbody (polls + 1) frame (Value.linked_self rfl) s t out out' polls hout hst
  | call sp callee args =>
    rw [evalStmt, evalStmt]
    exact evalExpr_unison hhost hinv hij (.call sp callee args)

theorem evalBlock_unison {k : Link} (hhost : host.Respects) (hinv : invoke.Unison host) (hij : k.scope i j)
    (b : Block) : Unison host k Value.Linked (evalBlock host invoke i b) (evalBlock host invoke j b) := by
  cases b with
  | missing => exact unison_pure rfl
  | of sp body => exact evalBody_unison hhost hinv hij (Value.linked_self rfl) body

theorem evalBody_unison {k : Link} (hhost : host.Respects) (hinv : invoke.Unison host) (hij : k.scope i j)
    {last last' : Value} (hlast : last.Linked k last') (body : List Stmt) :
    Unison host k Value.Linked (evalBody host invoke i last body) (evalBody host invoke j last' body) := by
  cases body with
  | nil => exact unison_pure hlast
  | cons s rest =>
    rw [evalBody, evalBody]
    refine (evalStmt_unison hhost hinv hij s).bind fun k' hle v v' hv => ?_
    exact evalBody_unison hhost hinv (Link.scope_le hle hij) hv rest

end

theorem invokeAt_unison (setting : Setting) (hhost : setting.host.Respects) (left : Nat) :
    (invokeAt setting left).Unison setting.host := by
  induction left with
  | zero => exact fun k span c c' vs vs' _ _ _ => unison_fail _ _
  | succ left ih =>
    intro k span c c' vs vs' hliteral hscope hvs
    refine (unison_openScope hliteral hscope hvs).bind fun k' _ i j hij => ?_
    rw [hliteral]
    exact evalBlock_unison hhost ih hij c.literal.body

structure Stepped.Linked (k : Link) (a b : Stepped) : Prop where
  value : a.value.Linked k b.value
  next : b.next = a.next

theorem ensure_unison {k : Link} (hij : k.scope i j) :
    Unison host k (fun k => k.stack) (LoopStack.ensure i) (LoopStack.ensure j) := by
  intro s t out out' polls hout hst
  have hloops := hst.loops? hij
  rw [LoopStack.ensure, LoopStack.ensure]
  generalize s.loops? i = ref at hloops
  generalize t.loops? j = ref' at hloops
  cases hloops with
  | some href => exact .ok_here (.refl k t) hst href
  | none =>
    have honward := Link.Onward.addStack k t s.nextStack []
    have hnew : (k.withStack s.nextStack t.nextStack).stack s.nextStack t.nextStack := .inr ⟨rfl, rfl⟩
    have hij' := Link.scope_le honward.le hij
    exact .ok_here (honward.set j _ _) ((hst.addStack []).set hij' loopBinding ⟨_, rfl, hnew⟩) hnew

theorem push_unison {k : Link} {ref ref' : Nat} (href : k.stack ref ref') (frame : LoopFrame) :
    Unison host k (fun _ _ _ => True) (LoopStack.push ref frame) (LoopStack.push ref' frame) := by
  intro s t out out' polls hout hst
  rw [LoopStack.push, LoopStack.push, (hst.loops href).2.2]
  exact .ok_here ((Link.Onward.refl k t).setStack ref' _) (hst.setStack href _) trivial

theorem pop?_unison {k : Link} {ref ref' : Nat} (href : k.stack ref ref') :
    Unison host k (fun _ a b => b = a) (LoopStack.pop? ref) (LoopStack.pop? ref') := by
  intro s t out out' polls hout hst
  rw [LoopStack.pop?, LoopStack.pop?, (hst.loops href).2.2]
  cases s.stack ref with
  | nil => exact .ok_here (.refl k t) hst rfl
  | cons frame frames =>
    exact .ok_here ((Link.Onward.refl k t).setStack ref' frames) (hst.setStack href frames) rfl

theorem takeFrame_unison {k : Link} (hij : k.scope i j) (span : Span) (loc : Location)
    (entered : Option LoopFrame) :
    Unison host k (fun k a b => k.stack a.1 b.1 ∧ b.2 = a.2) (takeFrame i span loc entered)
      (takeFrame j span loc entered) := by
  refine (ensure_unison hij).bind fun k' _ ref ref' href => ?_
  cases entered with
  | some frame => exact unison_pure ⟨href, rfl⟩
  | none =>
    refine (pop?_unison href).bind fun k'' hle _ frame? hframe => ?_
    obtain rfl := hframe
    cases frame? with
    | some frame => exact unison_pure ⟨Link.stack_le hle href, rfl⟩
    | none => exact unison_fail _ _

theorem resumeLoop_unison {k : Link} {ref ref' : Nat} (href : k.stack ref ref') (frame : LoopFrame)
    (loc : Location) {s s' : Stepped} (hs : s.Linked k s') :
    Unison host k Stepped.Linked (resumeLoop ref frame loc s) (resumeLoop ref' frame loc s') := by
  rw [resumeLoop, resumeLoop, hs.next]
  split
  · exact (push_unison href frame).bind fun k' hle _ _ _ => unison_pure ⟨hs.value.mono hle, rfl⟩
  split
  · exact unison_pure ⟨hs.value, rfl⟩
  · exact (push_unison href frame.next).bind fun k' hle _ _ _ =>
      unison_pure ⟨hs.value.mono hle, rfl⟩

theorem enterBranch_unison {k : Link} (hhost : host.Respects) (hinv : invoke.Unison host)
    (hij : k.scope i j) (condition : Expr) (path : Location) :
    Unison host k (fun _ a b => b = a) (enterBranch host invoke i condition path)
      (enterBranch host invoke j condition path) := by
  rw [enterBranch, enterBranch]
  split
  · refine (evalExpr_unison hhost hinv hij condition).bind fun k' _ v v' hv => ?_
    rw [hv.isTruthy_eq]
    exact unison_pure rfl
  · exact unison_pure rfl

theorem Stepped.Linked.leave {k : Link} {s s' : Stepped} (hs : s.Linked k s') (loc : Location)
    (child : Int) : (loc.leave child s).Linked k (loc.leave child s') := by
  rw [Location.leave, Location.leave, hs.next]
  split
  · exact ⟨hs.value, rfl⟩
  · exact ⟨hs.value, rfl⟩

mutual

theorem stepStmt_unison {k : Link} (hhost : host.Respects) (hinv : invoke.Unison host)
    (hij : k.scope i j) (loc : Location) (s : Stmt) :
    Unison host k Stepped.Linked (stepStmt host invoke i loc s) (stepStmt host invoke j loc s) := by
  cases s with
  | missing | set | call =>
    rw [stepStmt_atomic rfl, stepStmt_atomic rfl]
    exact (evalStmt_unison hhost hinv hij _).bind fun k' _ v v' hv => unison_pure ⟨hv, rfl⟩
  | branch sp condition thenBlock elseBlock =>
    rw [stepStmt, stepStmt]
    split
    · exact unison_fail _ _
    refine (enterBranch_unison hhost hinv hij condition loc.below).bind fun k' hle _ path hpath => ?_
    obtain rfl := hpath
    have hij := Link.scope_le hle hij
    split
    · exact (stepBlock_unison hhost hinv hij path thenBlock).bind fun k'' _ s s' hs =>
        unison_pure (hs.leave loc 1)
    split
    · split
      · exact unison_pure ⟨rfl, rfl⟩
      · exact (stepBlock_unison hhost hinv hij path elseBlock).bind fun k'' _ s s' hs =>
          unison_pure (hs.leave loc 2)
    · exact unison_fail _ _
  | times sp count body =>
    -- how a round of the loop goes once its frame has been taken
    have hround (k' : Link) (hle : k ≤ k') (path : Location) (entered : Option LoopFrame) :
        Unison host k' Stepped.Linked
          (takeFrame i sp loc entered >>= fun taken => stepBlock host invoke i path body >>= fun s =>
            resumeLoop taken.1 taken.2 loc s)
          (takeFrame j sp loc entered >>= fun taken => stepBlock host invoke j path body >>= fun s =>
            resumeLoop taken.1 taken.2 loc s) := by
      have hij := Link.scope_le hle hij
      refine (takeFrame_unison hij sp loc entered).bind fun k₁ hle₁ taken taken' htaken => ?_
      refine (stepBlock_unison hhost hinv (Link.scope_le hle₁ hij) path body).bind
        fun k₂ hle₂ s s' hs => ?_
      rw [htaken.2]
      exact resumeLoop_unison (Link.stack_le hle₂ htaken.1) taken.2 loc hs
    rw [stepStmt, stepStmt]
    split
    · exact unison_fail _ _
    split
    · refine (startLoop_unison hij sp count body).bind fun k' hle _ frame hframe => ?_
      obtain rfl := hframe
      split
      · exact unison_pure ⟨rfl, rfl⟩
      · exact hround k' hle [1, 0] (some frame)
    split
    · exact unison_fail _ _
    · exact hround k le_rfl loc.below none

theorem stepBlock_unison {k : Link} (hhost : host.Respects) (hinv : invoke.Unison host)
    (hij : k.scope i j) (loc : Location) (b : Block) :
    Unison host k Stepped.Linked (stepBlock host invoke i loc b) (stepBlock host invoke j loc b) := by
  cases b with
  | missing => exact unison_pure ⟨rfl, rfl⟩
  | of sp body =>
    rw [stepBlock, stepBlock]
    split
    · exact unison_fail _ _
    · exact stepAt_unison hhost hinv hij loc _ _ body

theorem stepAt_unison {k : Link} (hhost : host.Respects) (hinv : invoke.Unison host) (hij : k.scope i j)
    (loc : Location) (count skip : Nat) (body : List Stmt) :
    Unison host k Stepped.Linked (stepAt host invoke i loc count skip body)
      (stepAt host invoke j loc count skip body) := by
  cases body with
  | nil => cases skip <;> exact unison_pure ⟨rfl, rfl⟩
  | cons s rest =>
    cases skip with
    | zero =>
      rw [stepAt, stepAt]
      refine (stepStmt_unison hhost hinv hij loc.below s).bind fun k' _ r r' hr => ?_
      rw [hr.next]
      split
      · exact unison_pure ⟨hr.value, rfl⟩
      · exact unison_pure ⟨hr.value, rfl⟩
    | succ skip =>
      rw [stepAt, stepAt]
      exact stepAt_unison hhost hinv hij loc count skip rest

end

theorem Store.Linked.restore {k k' : Link} {s t s' t' : Store} (hst : s.Linked k t) (hle : k ≤ k')
    (hst' : s'.Linked k' t') (hij : k.scope i j) :
    ((LoopCheckpoint.take s i).restore i s').Linked k' ((LoopCheckpoint.take t j).restore j t') := by
  have hij' := Link.scope_le hle hij
  have hlookup := hst.lookup? hij loopBinding
  rw [LoopCheckpoint.restore, LoopCheckpoint.restore, LoopCheckpoint.take, LoopCheckpoint.take,
    hst.frames_eq hij]
  dsimp only
  generalize s.lookup? i loopBinding = x at hlookup
  generalize t.lookup? j loopBinding = y at hlookup
  cases hlookup with
  | none => exact hst'.delete hij' loopBinding
  | @some v v' hv =>
    have hv' := hv.mono hle
    obtain ⟨rfl, hscalar⟩ | ⟨c, c', rfl, rfl, -⟩ | ⟨ref, ref', rfl, rfl, href⟩ := hv.cases
    · cases v' with
      | loops => cases hscalar
      | _ => exact hst'.set hij' loopBinding hv'
    · exact hst'.set hij' loopBinding hv'
    · exact (hst'.setStack (Link.stack_le hle href) _).set hij' loopBinding hv'

theorem Link.Onward.restore {k k' : Link} {t t' : Store} (h : k.Onward t k' t') (c : LoopCheckpoint)
    (id : ScopeId) : k.Onward t k' (c.restore id t') := by
  rw [LoopCheckpoint.restore]
  split
  · exact h.delete id loopBinding
  · exact (h.setStack _ _).set id loopBinding _
  · exact h.set id loopBinding _

theorem guarded_unison {k : Link} {x y : Execution Stepped} (hij : k.scope i j)
    (h : Unison host k Stepped.Linked x y) :
    Unison host k Stepped.Linked (Setting.guarded i x) (Setting.guarded j y) := by
  intro s t out out' polls hout hst
  have hxy := h s t out out' polls hout hst
  rw [Setting.guarded, Setting.guarded]
  generalize x ⟨s, out, polls⟩ = r at hxy
  generalize y ⟨t, out', polls⟩ = r' at hxy
  cases hxy with
  | ok honward hst' hs => exact .ok honward hst' hs
  | error honward hst' =>
    exact .error (honward.restore (.take t j) j) (hst.restore honward.le hst' hij)

/-- From linked stores a step goes the same way. -/
theorem step_unison {k : Link} {setting : Setting} (hhost : setting.host.Respects) (hij : k.scope i j)
    (n : Node) (loc : Location) :
    Unison setting.host k Stepped.Linked (setting.step i n loc) (setting.step j n loc) := by
  have hinv := invokeAt_unison setting hhost setting.depth
  rw [Setting.step_eq, Setting.step_eq]
  split
  · exact unison_pure ⟨rfl, rfl⟩
  refine unison_poll.bind fun k' hle _ _ _ => ?_
  have hij := Link.scope_le hle hij
  cases n.steppable with
  | error d => exact unison_throw _
  | ok body =>
    refine (guarded_unison hij (stepBlock_unison hhost hinv hij loc (.of .nowhere body))).bind
      fun k'' _ s s' hs => ?_
    rw [hs.next]
    split
    · exact unison_pure ⟨hs.value, rfl⟩
    · exact unison_pure hs

end Stepwise
