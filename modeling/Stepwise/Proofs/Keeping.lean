import Stepwise.Proofs.Patience
import Stepwise.Proofs.Terms

/-! Runs that keep to their terms. A judgement of runs that start in order, with what it says of their
values, goes from lookups, assignments, calls of natives and the like to evaluation and to steps, as
long as the trees meet the terms. -/

namespace Stepwise

open Execution

abbrev Judgement := ∀ α : Type, (α → Prop) → Execution α → Prop

/-- The judgement holds of what runs are made of, in a realm, and goes on to what is made of them. -/
structure Realm.Judges (r : Realm) (host : Host) (T : Judgement) : Prop where
  pure : ∀ {α : Type} {Q : α → Prop} {a : α}, Q a → T α Q (pure a)
  bind : ∀ {α β : Type} {P : α → Prop} {Q : β → Prop} {x : Execution α} {f : α → Execution β},
    T α P x → (∀ a, P a → T β Q (f a)) → T β Q (x >>= f)
  fail : ∀ {α : Type} {Q : α → Prop} {cause : Cause} {span : Span}, r.terms.permits cause span →
    T α Q (fail cause span)
  poll : T Unit (fun _ => True) poll
  lookup : ∀ {scope : ScopeId}, r.home scope → ∀ {s : Symbol}, r.terms.sites s.span →
    T Value r.Admits (lookup scope s)
  assign : ∀ {v : Value}, r.Admits v → ∀ scope name, T Unit (fun _ => True) (assign scope name v)
  makeClosure : ∀ {scope : ScopeId} {literal : Literal}, r.home scope →
    literal.body.Meets r.terms → T Value r.Admits (makeClosure scope literal)
  callNative : ∀ {scope : ScopeId} {args : List Value}, r.home scope → (∀ v ∈ args, r.Admits v) →
    ∀ {span : Span}, r.terms.sites span → ∀ n, T Value r.Admits (callNative host scope span n args)
  openScope : ∀ {c : Closure} {args : List Value}, r.Admits (.function c) →
    (∀ v ∈ args, r.Admits v) → T ScopeId r.home (openScope c args)
  loop : ∀ {body : Execution Value} {frame : LoopFrame} {last : Value}, Steady body →
    T Value r.Admits body → (frame.forever = true → r.terms.endless) → r.Admits last →
    T Value r.Admits (loopFrom body frame last)
  ensure : ∀ {scope : ScopeId}, r.home scope → T Nat r.held (LoopStack.ensure scope)
  push : ∀ {ref : Nat} {frame : LoopFrame}, r.held ref → r.frame frame →
    T Unit (fun _ => True) (LoopStack.push ref frame)
  pop? : ∀ {ref : Nat}, r.held ref →
    T (Option LoopFrame) (fun top => ∀ frame, top = some frame → r.frame frame) (LoopStack.pop? ref)
  guarded : ∀ {scope : ScopeId} {Q : Stepped → Prop} {x : Execution Stepped}, r.home scope →
    T Stepped Q x → T Stepped Q (Setting.guarded scope x)

namespace Realm.Judges

variable {r : Realm} {host : Host} {T : Judgement} {invoke : Invoke} {scope : ScopeId}

/-- Closures of the realm are entered as the judgement says. -/
def Enters (r : Realm) (T : Judgement) (invoke : Invoke) : Prop :=
  ∀ {span : Span} {c : Closure} {args : List Value}, r.terms.sites span → r.Admits (.function c) →
    (∀ v ∈ args, r.Admits v) → T Value r.Admits (invoke span c args)

theorem applyValue (h : r.Judges host T) (hinv : Enters r T invoke) (hscope : r.home scope)
    {span : Span} (hspan : r.terms.sites span) {callee : Value} (hcallee : r.Admits callee)
    {args : List Value} (hargs : ∀ v ∈ args, r.Admits v) :
    T Value r.Admits (applyValue host invoke scope span callee args) := by
  rw [applyValue_eq]
  refine h.bind h.poll fun _ _ => ?_
  cases hd : Dispatch.of args.length callee with
  | native n => exact h.callNative hscope hargs hspan n
  | closure c =>
    obtain rfl := Dispatch.of_closure hd
    exact hinv hspan hcallee hargs
  | refused cause => exact h.fail (r.terms.ofRun (Dispatch.of_refused_isOfRun hd) hspan)

mutual

theorem evalExpr (h : r.Judges host T) (hinv : Enters r T invoke) (hscope : r.home scope) (e : Expr)
    (he : e.Meets r.terms) : T Value r.Admits (evalExpr host invoke scope e) := by
  cases e with
  | missing => exact h.fail he
  | symbol s => exact h.lookup hscope he
  | number | boolean | null | string => exact h.pure trivial
  | forever span => exact h.fail he
  | function span params body =>
    rw [Stepwise.evalExpr]
    split
    · next hmissing => exact h.fail (he.1 hmissing)
    · exact h.makeClosure hscope he.2
  | call span callee args =>
    rw [Stepwise.evalExpr]
    split
    · next hmissing => exact h.fail (he.2.1 hmissing)
    · refine h.bind (evalExpr h hinv hscope callee he.2.2.1) fun f hf => ?_
      refine h.bind (evalArgs h hinv hscope args he.2.2.2) fun vs hvs => ?_
      exact h.applyValue hinv hscope he.1 hf hvs
termination_by structural e

theorem evalArgs (h : r.Judges host T) (hinv : Enters r T invoke) (hscope : r.home scope)
    (es : List Expr) (hes : Expr.AllMeet r.terms es) :
    T (List Value) (fun vs => ∀ v ∈ vs, r.Admits v) (evalArgs host invoke scope es) := by
  cases es with
  | nil => exact h.pure fun v hv => absurd hv List.not_mem_nil
  | cons e es =>
    rw [Stepwise.evalArgs]
    refine h.bind (evalExpr h hinv hscope e hes.1) fun v hv => ?_
    refine h.bind (evalArgs h hinv hscope es hes.2) fun vs hvs => ?_
    exact h.pure fun u hu => (List.mem_cons.mp hu).elim (fun heq => heq ▸ hv.orNull) (hvs u)
termination_by structural es

end

/-- The frame of a loop that starts runs forever only if the terms allow it. -/
theorem startLoop (h : r.Judges host T) (hscope : r.home scope) {span : Span} {count : Expr}
    {body : Block} (hbody : body.isMissing = true → r.terms.permits .timesWithoutBody span)
    (hcount : count.CountMeets r.terms span) :
    T LoopFrame (fun f => r.frame f ∧ (f.forever = true → r.terms.endless))
      (startLoop host invoke scope span count body) := by
  rw [Stepwise.startLoop.eq_def]
  split
  · next hmissing => exact h.fail (hbody hmissing)
  cases count with
  | missing | boolean | null | string | call | function => exact h.fail hcount
  | forever place => exact h.pure ⟨r.endless hcount, fun _ => hcount⟩
  | number place n => exact h.pure ⟨r.counted n, by rintro ⟨⟩⟩
  | symbol s =>
    refine h.bind (h.lookup hscope hcount) fun v _ => ?_
    cases v with
    | integer n => exact h.pure ⟨r.counted n, by rintro ⟨⟩⟩
    | _ => exact h.fail (r.terms.ofRun rfl hcount)

mutual

theorem evalStmt (h : r.Judges host T) (hinv : Enters r T invoke) (hsteady : invoke.Steady)
    (hscope : r.home scope) (s : Stmt) (hs : s.Meets r.terms) :
    T Value r.Admits (evalStmt host invoke scope s) := by
  cases s with
  | missing => exact h.fail hs
  | set span target value =>
    cases target with
    | none => exact h.fail (hs.1 (.inl rfl))
    | some symbol =>
      rw [Stepwise.evalStmt]
      split
      · next hmissing => exact h.fail (hs.1 (.inr hmissing))
      · refine h.bind (h.evalExpr hinv hscope value hs.2) fun v hv => ?_
        exact h.bind (h.assign hv.orNull scope _) fun _ _ => h.pure hv.orNull
  | branch span condition thenBlock elseBlock =>
    rw [Stepwise.evalStmt]
    split
    · next hmissing => exact h.fail (hs.1 hmissing)
    refine h.bind (h.evalExpr hinv hscope condition hs.2.1) fun v _ => ?_
    split
    · exact evalBlock h hinv hsteady hscope thenBlock hs.2.2.1
    split
    · exact h.pure trivial
    · exact evalBlock h hinv hsteady hscope elseBlock hs.2.2.2
  | times span count body =>
    rw [evalStmt_times]
    refine h.bind (h.startLoop hscope hs.1 hs.2.1) fun frame hframe => ?_
    exact h.loop (evalBlock_steady hsteady scope body)
      (evalBlock h hinv hsteady hscope body hs.2.2) hframe.2 trivial
  | call span callee args =>
    rw [Stepwise.evalStmt]
    exact h.evalExpr hinv hscope (.call span callee args) hs
termination_by structural s

theorem evalBlock (h : r.Judges host T) (hinv : Enters r T invoke) (hsteady : invoke.Steady)
    (hscope : r.home scope) (b : Block) (hb : b.Meets r.terms) :
    T Value r.Admits (evalBlock host invoke scope b) := by
  cases b with
  | missing => exact h.pure trivial
  | of span body => exact evalBody h hinv hsteady hscope .absent trivial body hb
termination_by structural b

theorem evalBody (h : r.Judges host T) (hinv : Enters r T invoke) (hsteady : invoke.Steady)
    (hscope : r.home scope) (last : Value) (hlast : r.Admits last) (body : List Stmt)
    (hbody : Stmt.AllMeet r.terms body) :
    T Value r.Admits (evalBody host invoke scope last body) := by
  cases body with
  | nil => exact h.pure hlast
  | cons s rest =>
    rw [Stepwise.evalBody]
    refine h.bind (evalStmt h hinv hsteady hscope s hbody.1.2) fun v hv => ?_
    exact evalBody h hinv hsteady hscope v hv rest hbody.2
termination_by structural body

end

theorem invokeAt (setting : Setting) (h : r.Judges setting.host T) (left : Nat) :
    Enters r T (invokeAt setting left) := by
  induction left with
  | zero => exact fun hspan _ _ => h.fail (r.terms.ofRun rfl hspan)
  | succ left ih =>
    intro span c args _ hc hargs
    refine h.bind (h.openScope hc hargs) fun scope hscope => ?_
    exact h.evalBlock ih (invokeAt_steady setting left) hscope c.literal.body hc.1

theorem evaluate {setting : Setting} (h : r.Judges setting.host T) (hscope : r.home scope)
    {p : Program} (hp : Stmt.AllMeet r.terms p.body) :
    T Value r.Admits (setting.evaluate scope (.program p)) :=
  h.evalBody (h.invokeAt setting setting.depth) (invokeAt_steady setting setting.depth) hscope
    .absent trivial p.body hp

theorem takeFrame (h : r.Judges host T) (hscope : r.home scope) (span : Span) (loc : Location)
    {entered : Option LoopFrame} (hentered : ∀ frame, entered = some frame → r.frame frame) :
    T (Nat × LoopFrame) (fun top => r.held top.1 ∧ r.frame top.2)
      (takeFrame scope span loc entered) := by
  refine h.bind (h.ensure hscope) fun ref href => ?_
  cases entered with
  | some frame => exact h.pure ⟨href, hentered frame rfl⟩
  | none =>
    refine h.bind (h.pop? href) fun top htop => ?_
    cases top with
    | some frame => exact h.pure ⟨href, htop frame rfl⟩
    | none => exact h.fail (r.terms.ofStale rfl)

theorem resumeLoop (h : r.Judges host T) {ref : Nat} (href : r.held ref) {frame : LoopFrame}
    (hframe : r.frame frame) (loc : Location) (s : Stepped) :
    T Stepped (fun _ => True) (resumeLoop ref frame loc s) := by
  rw [Stepwise.resumeLoop]
  split
  · exact h.bind (h.push href hframe) fun _ _ => h.pure trivial
  split
  · exact h.pure trivial
  · exact h.bind (h.push href (r.next hframe)) fun _ _ => h.pure trivial

mutual

theorem stepStmt (h : r.Judges host T) (hinv : Enters r T invoke) (hsteady : invoke.Steady)
    (hscope : r.home scope) (loc : Location) (s : Stmt) (hs : s.Meets r.terms) :
    T Stepped (fun _ => True) (stepStmt host invoke scope loc s) := by
  cases s with
  | missing | set | call =>
    rw [stepStmt_atomic rfl]
    exact h.bind (h.evalStmt hinv hsteady hscope _ hs) fun _ _ => h.pure trivial
  | branch span condition thenBlock elseBlock =>
    have henter : T Location (fun _ => True) (enterBranch host invoke scope condition loc.below) := by
      rw [enterBranch]
      split
      · exact h.bind (h.evalExpr hinv hscope condition hs.2.1) fun _ _ => h.pure trivial
      · exact h.pure trivial
    rw [Stepwise.stepStmt]
    split
    · next hmissing => exact h.fail (hs.1 hmissing)
    refine h.bind henter fun path _ => ?_
    split
    · exact h.bind (stepBlock h hinv hsteady hscope path thenBlock hs.2.2.1)
        fun _ _ => h.pure trivial
    split
    · split
      · exact h.pure trivial
      · exact h.bind (stepBlock h hinv hsteady hscope path elseBlock hs.2.2.2)
          fun _ _ => h.pure trivial
    · exact h.fail (r.terms.ofStale rfl)
  | times span count body =>
    have hround (path : Location) := stepBlock h hinv hsteady hscope path body hs.2.2
    rw [Stepwise.stepStmt]
    split
    · next hmissing => exact h.fail (hs.1 hmissing)
    split
    · refine h.bind (h.startLoop hscope hs.1 hs.2.1) fun frame hframe => ?_
      split
      · exact h.pure trivial
      · refine h.bind (h.takeFrame hscope span loc ?_) fun top htop => ?_
        · rintro _ ⟨⟩
          exact hframe.1
        · exact h.bind (hround [1, 0]) fun s _ => h.resumeLoop htop.1 htop.2 loc s
    split
    · exact h.fail (r.terms.ofStale rfl)
    · refine h.bind (h.takeFrame hscope span loc (by rintro _ ⟨⟩)) fun top htop => ?_
      exact h.bind (hround loc.below) fun s _ => h.resumeLoop htop.1 htop.2 loc s
termination_by structural s

theorem stepBlock (h : r.Judges host T) (hinv : Enters r T invoke) (hsteady : invoke.Steady)
    (hscope : r.home scope) (loc : Location) (b : Block) (hb : b.Meets r.terms) :
    T Stepped (fun _ => True) (stepBlock host invoke scope loc b) := by
  cases b with
  | missing => exact h.pure trivial
  | of span body =>
    rw [Stepwise.stepBlock]
    split
    · exact h.fail (r.terms.ofStale rfl)
    · exact stepAt h hinv hsteady hscope loc _ _ body hb
termination_by structural b

theorem stepAt (h : r.Judges host T) (hinv : Enters r T invoke) (hsteady : invoke.Steady)
    (hscope : r.home scope) (loc : Location) (count skip : Nat) (body : List Stmt)
    (hbody : Stmt.AllMeet r.terms body) :
    T Stepped (fun _ => True) (stepAt host invoke scope loc count skip body) := by
  cases body with
  | nil => cases skip <;> exact h.pure trivial
  | cons s rest =>
    cases skip with
    | succ skip =>
      rw [Stepwise.stepAt]
      exact stepAt h hinv hsteady hscope loc count skip rest hbody.2
    | zero =>
      rw [Stepwise.stepAt]
      refine h.bind (stepStmt h hinv hsteady hscope loc.below s hbody.1.2) fun _ _ => ?_
      split <;> exact h.pure trivial
termination_by structural body

end

theorem step {setting : Setting} (h : r.Judges setting.host T) (hscope : r.home scope)
    {p : Program} (hp : Stmt.AllMeet r.terms p.body) (loc : Location) :
    T Stepped (fun _ => True) (setting.step scope (.program p) loc) := by
  rw [Setting.step_eq]
  split
  · exact h.pure trivial
  refine h.bind h.poll fun _ _ => ?_
  have hbody : T Stepped (fun _ => True) (setting.stepBody scope loc p.body) :=
    h.stepBlock (h.invokeAt setting setting.depth) (invokeAt_steady setting setting.depth) hscope
      loc (.of .nowhere p.body) hp
  exact h.bind (h.guarded hscope hbody) fun _ _ => h.pure trivial

end Realm.Judges

/-- What a native answers, when it is called in order, is in order. -/
def Host.Keeps (host : Host) (r : Realm) : Prop :=
  ∀ n s scope args written, r.Upholds s → r.home scope → (∀ v ∈ args, r.Admits v) →
    (∀ v, (host n s scope args written).result = .ok v → r.Admits v) ∧
      ∀ f span, r.terms.sites span → (host n s scope args written).result = .error f →
        (f.placedAt span).Permitted r.terms

namespace Execution

variable {r : Realm} {α β : Type} {P : α → Prop} {Q : β → Prop}

/-- Started in order, the run leaves the store in order; its value is as expected and its failure
permitted. -/
def Keeps (r : Realm) (P : α → Prop) (x : Execution α) : Prop :=
  ∀ w, r.Upholds w.store → r.Upholds (x.after w).store ∧
    (∀ a w', x w = .ok a w' → P a) ∧ ∀ f w', x w = .error f w' → f.Permitted r.terms

theorem keeps_of_ok {x : Execution α} (h : ∀ w, r.Upholds w.store →
    ∃ a w', x w = .ok a w' ∧ P a ∧ r.Upholds w'.store) : Keeps r P x := by
  intro w hw
  obtain ⟨a, w', hx, ha, hw'⟩ := h w hw
  rw [after_ok hx, hx]
  refine ⟨hw', ?_, by rintro _ _ ⟨⟩⟩
  rintro _ _ ⟨⟩
  exact ha

theorem keeps_throw {f : Failure} (h : f.Permitted r.terms) :
    Keeps r P (throw f : Execution α) := by
  intro w hw
  refine ⟨hw, by rintro _ _ ⟨⟩, ?_⟩
  rintro _ _ ⟨⟩
  exact h

theorem permitted_diagnostic {cause : Cause} {span : Span} (h : r.terms.permits cause span) :
    (Failure.diagnostic ⟨cause, span⟩).Permitted r.terms := by
  rintro d ⟨⟩
  exact h

theorem permitted_canceled : Failure.canceled.Permitted r.terms := by
  intro d hd
  rw [Failure.diagnostic?] at hd
  cases hd

theorem Keeps.bind {x : Execution α} {f : α → Execution β} (hx : Keeps r P x)
    (hf : ∀ a, P a → Keeps r Q (f a)) : Keeps r Q (x >>= f) := by
  intro w hw
  obtain ⟨hafter, hok, herror⟩ := hx w hw
  cases h : x w with
  | ok a w₁ =>
    rw [after_ok h] at hafter
    have hrest := hf a (hok a w₁ h) w₁ hafter
    rwa [after, bind_ok h]
  | error e w₁ =>
    rw [after_error h] at hafter
    rw [after_error (bind_error h), bind_error h]
    refine ⟨hafter, by rintro _ _ ⟨⟩, ?_⟩
    rintro _ _ ⟨⟩
    exact herror e w₁ h

theorem keeps_pure {a : α} (h : P a) : Keeps r P (pure a : Execution α) :=
  keeps_of_ok fun w hw => ⟨a, w, rfl, h, hw⟩

theorem keeps_poll : Keeps r (fun _ => True) poll := by
  rintro ⟨store, written, polls⟩ hw
  cases polls with
  | zero =>
    refine ⟨hw, by rintro _ _ ⟨⟩, ?_⟩
    rintro _ _ ⟨⟩
    exact permitted_canceled
  | succ polls => exact ⟨hw, fun _ _ _ => trivial, by rintro _ _ ⟨⟩⟩

theorem keeps_lookup {scope : ScopeId} (hscope : r.home scope) {s : Symbol}
    (hs : r.terms.sites s.span) : Keeps r r.Admits (lookup scope s) := by
  intro w hw
  cases h : w.store.get? scope s.name with
  | some v =>
    have hx : lookup scope s w = .ok v w := by rw [lookup, h]
    rw [after_ok hx, hx]
    refine ⟨hw, ?_, by rintro _ _ ⟨⟩⟩
    rintro _ _ ⟨⟩
    exact hw.get? hscope h
  | none =>
    have hx : lookup scope s w = .error (.diagnostic ⟨.unbound s.name, s.span⟩) w := by
      rw [lookup, h]
    rw [after_error hx, hx]
    refine ⟨hw, by rintro _ _ ⟨⟩, ?_⟩
    rintro _ _ ⟨⟩
    exact permitted_diagnostic (r.terms.ofRun rfl hs)

theorem keeps_callNative {host : Host} (hhost : host.Keeps r) {scope : ScopeId}
    (hscope : r.home scope) {args : List Value} (hargs : ∀ v ∈ args, r.Admits v) {span : Span}
    (hspan : r.terms.sites span) (n : Native) :
    Keeps r r.Admits (callNative host scope span n args) := by
  intro w hw
  obtain ⟨hok, herror⟩ := hhost n w.store scope args w.written hw hscope hargs
  cases h : (host n w.store scope args w.written).result with
  | ok v =>
    simp only [after, callNative, h]
    refine ⟨hw, ?_, by rintro _ _ ⟨⟩⟩
    rintro _ _ ⟨⟩
    exact hok v h
  | error f =>
    simp only [after, callNative, h]
    refine ⟨hw, by rintro _ _ ⟨⟩, ?_⟩
    rintro _ _ ⟨⟩
    exact herror f span hspan h

theorem keeps_openScope {c : Closure} {args : List Value} (hc : r.Admits (.function c))
    (hargs : ∀ v ∈ args, r.Admits v) : Keeps r r.home (openScope c args) := by
  refine keeps_of_ok fun w hw => ⟨_, _, rfl, hw.nextScope _ (Nat.le_refl _), ?_⟩
  refine hw.extend hc.2 fun x v hv => ?_
  exact hargs v (List.of_mem_zip (Bindings.mem_of_get?_ofList hv)).2

theorem keeps_loopFrom {body : Execution Value} (hbody : Keeps r r.Admits body) (frame : LoopFrame)
    {last : Value} (hlast : r.Admits last) : Keeps r r.Admits (loopFrom body frame last) := by
  have hrounds (rounds : Nat) : ∀ (frame : LoopFrame) (last : Value), r.Admits last →
      Keeps r r.Admits (runLoop body rounds frame last) := by
    induction rounds with
    | zero => exact fun _ _ _ => keeps_throw permitted_canceled
    | succ rounds ih =>
      intro frame last hlast
      rw [runLoop]
      split
      · exact keeps_pure hlast
      · exact keeps_poll.bind fun _ _ => hbody.bind fun v hv => ih frame.next v hv
  exact fun w => hrounds (w.polls + 1) frame last hlast w

theorem keeps_ensure {scope : ScopeId} (hscope : r.home scope) :
    Keeps r r.held (LoopStack.ensure scope) := by
  refine keeps_of_ok fun w hw => ?_
  cases h : w.store.loops? scope with
  | some ref =>
    refine ⟨ref, w, ?_, hw.loops hscope h, hw⟩
    simp only [LoopStack.ensure, h]
  | none =>
    have href : r.held w.store.nextStack := hw.nextStack _ (Nat.le_refl _)
    let store := (w.store.addStack []).set scope loopBinding (.loops w.store.nextStack)
    have hloops : r.Admits (.loops w.store.nextStack) := href
    have hstore : r.Upholds store := hw.addStack.set hloops scope _
    refine ⟨w.store.nextStack, { w with store := store }, ?_, href, hstore⟩
    simp only [LoopStack.ensure, h, store]

theorem keeps_push {ref : Nat} {frame : LoopFrame} (hframe : r.frame frame) :
    Keeps r (fun _ => True) (LoopStack.push ref frame) := by
  refine keeps_of_ok fun w hw => ⟨(), _, rfl, trivial, hw.setStack fun href f hf => ?_⟩
  obtain rfl | hf := List.mem_cons.mp hf
  · exact hframe
  · exact hw.framed ref href f hf

theorem keeps_pop? {ref : Nat} (href : r.held ref) :
    Keeps r (fun top => ∀ frame, top = some frame → r.frame frame) (LoopStack.pop? ref) := by
  refine keeps_of_ok fun w hw => ?_
  cases h : w.store.stack ref with
  | nil => exact ⟨none, w, by simp only [LoopStack.pop?, h], by rintro _ ⟨⟩, hw⟩
  | cons frame frames =>
    have hframes : ∀ f ∈ frame :: frames, r.frame f := h ▸ hw.framed ref href
    have hstore : r.Upholds (w.store.setStack ref frames) :=
      hw.setStack fun _ f hf => hframes f (List.mem_cons_of_mem _ hf)
    refine ⟨some frame, { w with store := w.store.setStack ref frames }, ?_, ?_, hstore⟩
    · simp only [LoopStack.pop?, h]
    · rintro _ ⟨⟩
      exact hframes frame List.mem_cons_self

theorem Keeps.guarded {scope : ScopeId} (hscope : r.home scope) {P : Stepped → Prop}
    {x : Execution Stepped} (hx : Keeps r P x) : Keeps r P (Setting.guarded scope x) := by
  intro w hw
  obtain ⟨hafter, hok, herror⟩ := hx w hw
  cases h : x w with
  | ok s w' =>
    rw [after_ok h] at hafter
    simp only [after, Setting.guarded, h]
    refine ⟨hafter, ?_, by rintro _ _ ⟨⟩⟩
    rintro _ _ ⟨⟩
    exact hok s w' h
  | error e w' =>
    rw [after_error h] at hafter
    simp only [after, Setting.guarded, h]
    refine ⟨hw.restore hafter hscope, by rintro _ _ ⟨⟩, ?_⟩
    rintro _ _ ⟨⟩
    exact herror e w' h

end Execution

theorem Host.Keeps.judges {r : Realm} {host : Host} (hhost : host.Keeps r) :
    r.Judges host fun _ => Execution.Keeps r where
  pure := keeps_pure
  bind := Execution.Keeps.bind
  fail hcause := keeps_throw (permitted_diagnostic hcause)
  poll := keeps_poll
  lookup := keeps_lookup
  assign hv scope name := keeps_of_ok fun _ hw => ⟨(), _, rfl, trivial, hw.set hv scope name⟩
  makeClosure hscope hliteral :=
    keeps_of_ok fun _ hw => ⟨_, _, rfl, ⟨hliteral, hscope⟩, hw.countClosure⟩
  callNative hscope hargs _ hspan n := keeps_callNative hhost hscope hargs hspan n
  openScope := keeps_openScope
  loop _ hbody _ hlast := keeps_loopFrom hbody _ hlast
  ensure := keeps_ensure
  push _ hframe := keeps_push hframe
  pop? := keeps_pop?
  guarded hscope hx := hx.guarded hscope

end Stepwise
