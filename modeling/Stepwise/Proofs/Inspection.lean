import Stepwise.Proofs.Terms
import Stepwise.Proofs.Traversal

/-! Checks of one tree, side by side. The two may differ in their grounds and in how they number their
scratch scopes. A relation between them goes from lookups, assignments, calls of natives and the like to
whole bodies, as long as the tree meets the terms. A statement about one check is such a relation that
says nothing of the other. -/

namespace Stepwise

open Checking

/-- A relation between checks. The number is a bound of the scratch scopes that they are told of. -/
abbrev CheckRelation := Nat → ∀ α : Type, Checking α → Checking α → Prop

/-- The relation holds of what checks are made of, and goes on to what is made of them. -/
structure Terms.Relates (t : Terms) (R : CheckRelation) (g g' : Ground)
    (shift : ScratchId → ScratchId) : Prop where
  closures : g'.store.closures = g.store.closures
  scope : g'.scope = g.scope
  pure : ∀ {k : Nat} {α : Type} (a : α), R k α (pure a) (pure a)
  bind : ∀ {k : Nat} {α β : Type} {x x' : Checking α} {f f' : α → Checking β}, R k α x x' →
    (∀ a, R k β (f a) (f' a)) → R k β (x >>= f) (x' >>= f')
  fail : ∀ {k : Nat} {α : Type} {cause : Cause} {span : Span}, cause.isStale = false →
    t.permits cause span → R k α (fail cause span) (fail cause span)
  lookup : ∀ {k : Nat} {S : ScratchId} {s : Symbol}, S < k → t.sites s.span →
    R k Finding (lookup g S s) (lookup g' (shift S) s)
  assign : ∀ {k : Nat} {S : ScratchId}, S < k → ∀ name f,
    R k Unit (assign S name f) (assign (shift S) name f)
  wait : ∀ {k : Nat} {S : ScratchId} {literal : Literal}, S < k → literal.body.Meets t →
    R k Nat (wait literal S) (wait literal (shift S))
  native : ∀ {k : Nat} {S : ScratchId} {span : Span}, S < k → t.sites span → ∀ n args,
    R k Finding (checkNative g S span n args) (checkNative g' (shift S) span n args)
  visit : ∀ {k : Nat} {s : Stmt}, t.stands s → R k Unit (visit s) (visit s)
  branch : ∀ {k : Nat} {S : ScratchId} {body body' : ScratchId → Checking Finding}, S < k →
    (∀ i, R (i + 1) Finding (body i) (body' (shift i))) →
    R k Unit (branch S body) (branch (shift S) body')

def Node.Meets (t : Terms) : Node → Prop
  | .program p => Stmt.AllMeet t p.body
  | .block b => b.Meets t
  | .stmt s => s.Meets t
  | .expr e => e.Meets t
  | .params ps => t.permits (.unexpectedNode .symbolList) ps.span

theorem Node.meets_of_walk {t : Terms} (ht : t.Lenient) (n : Node)
    (h : ∀ visit ∈ n.walk fun _ => true, t.Allows visit.node) : n.Meets t := by
  cases n with
  | program p =>
    simp only [Node.walk, Visit.enter, if_true, List.forall_mem_cons] at h
    exact Stmt.allMeet_of_walk ht p.body h.2
  | block b => exact b.meets_of_walk ht h
  | stmt s => exact s.meets_of_walk ht h
  | expr e => exact e.meets_of_walk ht h
  | params ps => exact ht.permits _ _

namespace Terms.Relates

variable {t : Terms} {R : CheckRelation} {g g' : Ground} {shift : ScratchId → ScratchId}

theorem checkApply (h : t.Relates R g g' shift) {k : Nat} {S : ScratchId} (hS : S < k) {span : Span}
    (hspan : t.sites span) (callee : Finding) (args : List Finding) :
    R k Finding (checkApply g S span callee args) (checkApply g' (shift S) span callee args) := by
  cases callee with
  | unknown => exact h.pure _
  | known v =>
    rw [checkApply_known, checkApply_known]
    cases hd : Dispatch.of args.length v with
    | native n => exact h.native hS hspan n args
    | closure c => exact h.pure _
    | refused cause =>
      exact h.fail (Dispatch.of_refused hd) (t.ofRun (Dispatch.of_refused_isOfRun hd) hspan)

mutual

theorem checkExpr (h : t.Relates R g g' shift) {k : Nat} {S : ScratchId} (hS : S < k) (e : Expr)
    (he : e.Meets t) :
    R k Finding (checkExpr g S e) (checkExpr g' (shift S) e) := by
  cases e with
  | missing | forever => exact h.fail rfl he
  | symbol s => exact h.lookup hS he
  | number | boolean | null | string => exact h.pure _
  | function span params body =>
    rw [Stepwise.checkExpr, Stepwise.checkExpr]
    split
    · next hmissing => exact h.fail rfl (he.1 hmissing)
    · rw [h.closures, h.scope]
      exact h.bind (h.wait hS he.2) fun turn => h.pure _
  | call span callee args =>
    rw [Stepwise.checkExpr, Stepwise.checkExpr]
    split
    · next hmissing => exact h.fail rfl (he.2.1 hmissing)
    · refine h.bind (checkExpr h hS callee he.2.2.1) fun f => ?_
      exact h.bind (checkArgs h hS args he.2.2.2) fun vs => h.checkApply hS he.1 f vs
termination_by structural e

theorem checkArgs (h : t.Relates R g g' shift) {k : Nat} {S : ScratchId} (hS : S < k)
    (es : List Expr) (hes : Expr.AllMeet t es) :
    R k (List Finding) (checkArgs g S es) (checkArgs g' (shift S) es) := by
  cases es with
  | nil => exact h.pure _
  | cons e es =>
    rw [Stepwise.checkArgs, Stepwise.checkArgs]
    refine h.bind (checkExpr h hS e hes.1) fun f => ?_
    exact h.bind (checkArgs h hS es hes.2) fun fs => h.pure _
termination_by structural es

end

theorem checkCount (h : t.Relates R g g' shift) {k : Nat} {S : ScratchId} (hS : S < k) {span : Span}
    {count : Expr} (hcount : count.CountMeets t span) :
    R k Unit (checkCount g S span count) (checkCount g' (shift S) span count) := by
  cases count with
  | missing | boolean | null | string | call | function => exact h.fail rfl hcount
  | forever | number => exact h.pure _
  | symbol s =>
    refine h.bind (h.lookup hS hcount) fun f => ?_
    cases f with
    | unknown => exact h.pure _
    | known v =>
      cases v with
      | integer n => exact h.pure _
      | _ => exact h.fail rfl (t.ofRun rfl hcount)

mutual

theorem checkStmt (h : t.Relates R g g' shift) {k : Nat} {S : ScratchId} (hS : S < k) (s : Stmt)
    (hs : s.Meets t) :
    R k Finding (checkStmt g S s) (checkStmt g' (shift S) s) := by
  cases s with
  | missing => exact h.fail rfl hs
  | set span target value =>
    cases target with
    | none => exact h.fail rfl (hs.1 (.inl rfl))
    | some symbol =>
      rw [Stepwise.checkStmt, Stepwise.checkStmt]
      split
      · next hmissing => exact h.fail rfl (hs.1 (.inr hmissing))
      · refine h.bind (h.checkExpr hS value hs.2) fun f => ?_
        exact h.bind (h.assign hS _ _) fun _ => h.pure _
  | branch span condition thenBlock elseBlock =>
    rw [Stepwise.checkStmt, Stepwise.checkStmt]
    split
    · next hmissing => exact h.fail rfl (hs.1 hmissing)
    · refine h.bind (h.checkExpr hS condition hs.2.1) fun _ => ?_
      refine h.bind (h.branch hS fun i => ?_) fun _ => ?_
      · exact checkBlock h (Nat.lt_succ_self i) thenBlock hs.2.2.1
      split
      · refine h.bind (h.branch hS fun i => ?_) fun _ => h.pure _
        exact checkBlock h (Nat.lt_succ_self i) elseBlock hs.2.2.2
      · exact h.pure _
  | times span count body =>
    rw [Stepwise.checkStmt, Stepwise.checkStmt]
    split
    · next hmissing => exact h.fail rfl (hs.1 hmissing)
    · refine h.bind (h.checkCount hS hs.2.1) fun _ => ?_
      refine h.bind (h.branch hS fun i => ?_) fun _ => h.pure _
      exact checkBlock h (Nat.lt_succ_self i) body hs.2.2
  | call span callee args =>
    rw [Stepwise.checkStmt, Stepwise.checkStmt]
    exact h.checkExpr hS (.call span callee args) hs
termination_by structural s

theorem checkBlock (h : t.Relates R g g' shift) {k : Nat} {S : ScratchId} (hS : S < k) (b : Block)
    (hb : b.Meets t) :
    R k Finding (checkBlock g S b) (checkBlock g' (shift S) b) := by
  cases b with
  | missing => exact h.pure _
  | of span body => exact checkBody h hS _ body hb
termination_by structural b

theorem checkBody (h : t.Relates R g g' shift) {k : Nat} {S : ScratchId} (hS : S < k) (last : Finding)
    (body : List Stmt) (hbody : Stmt.AllMeet t body) :
    R k Finding (checkBody g S last body) (checkBody g' (shift S) last body) := by
  cases body with
  | nil => exact h.pure _
  | cons s rest =>
    rw [Stepwise.checkBody, Stepwise.checkBody]
    refine h.bind (h.visit hbody.1.1) fun _ => ?_
    refine h.bind (checkStmt h hS s hbody.1.2) fun f => ?_
    exact checkBody h hS f rest hbody.2
termination_by structural body

end

theorem checkNode (h : t.Relates R g g' shift) {k : Nat} {S : ScratchId} (hS : S < k) (n : Node)
    (hn : n.Meets t) :
    R k Finding (checkNode g S n) (checkNode g' (shift S) n) := by
  cases n with
  | program p => exact h.checkBody hS _ p.body hn
  | block b => exact h.checkBlock hS b hn
  | stmt s => exact h.checkStmt hS s hn
  | expr e => exact h.checkExpr hS e hn
  | params ps => exact h.fail rfl hn

end Terms.Relates

/-- A condition on the state of a check that all it does maintains, and one on its failures. -/
structure Terms.Maintains (t : Terms) (g : Ground) (I : CheckState → Prop) (F : Failure → Prop) :
    Prop where
  scopes : ∀ {c : CheckState} (scopes : Array Scratch) (made : Array ScratchId), I c →
    I { c with scopes, made }
  wait : ∀ {c : CheckState} {w : Waiting}, I c → w.literal.body.Meets t →
    I { c with waiting := c.waiting.push w }
  visit : ∀ {c : CheckState} {s : Stmt}, I c → t.stands s → I { c with visited := c.visited.push s }
  write : ∀ {c : CheckState} {n : Native} {s : Store} {i : ScopeId} {args : List Value}, I c →
    n.isPure = true → I { c with written := c.written ++ (g.host n s i args c.written).writes }
  body : ∀ {c : CheckState} {w : Waiting}, I c → w ∈ c.waiting → w.literal.body.Meets t
  fail : ∀ {cause : Cause} {span : Span}, cause.isStale = false → t.permits cause span →
    F (.diagnostic ⟨cause, span⟩)
  native : ∀ {n : Native} {s : Store} {i : ScopeId} {args : List Value} {written : Array Bytes}
    {f : Failure} {span : Span}, t.sites span → (g.host n s i args written).result = .error f →
    F (f.placedAt span)

namespace Checking

variable {t : Terms} {g : Ground} {I : CheckState → Prop} {F : Failure → Prop} {α β : Type}

/-- The condition holds after the check as it did before, and if it fails it does so in order. -/
def Keeps (I : CheckState → Prop) (F : Failure → Prop) (x : Checking α) : Prop :=
  ∀ c, I c → (∀ a c', x c = .ok a c' → I c') ∧ ∀ f c', x c = .error f c' → I c' ∧ F f

theorem keeps_of_ok {x : Checking α} (h : ∀ c, I c → ∃ a c', x c = .ok a c' ∧ I c') :
    Keeps I F x := by
  intro c hc
  obtain ⟨a, c', hx, hc'⟩ := h c hc
  rw [hx]
  refine ⟨?_, by rintro _ _ ⟨⟩⟩
  rintro _ _ ⟨⟩
  exact hc'

theorem keeps_throw {f : Failure} (hf : F f) : Keeps I F (throw f : Checking α) := by
  intro c hc
  refine ⟨by rintro _ _ ⟨⟩, ?_⟩
  rintro _ _ ⟨⟩
  exact ⟨hc, hf⟩

theorem Keeps.bind {x : Checking α} {f : α → Checking β} (hx : Keeps I F x)
    (hf : ∀ a, Keeps I F (f a)) : Keeps I F (x >>= f) := by
  intro c hc
  obtain ⟨hok, herror⟩ := hx c hc
  cases h : x c with
  | ok a c₁ =>
    rw [bind_ok h]
    exact hf a c₁ (hok a c₁ h)
  | error e c₁ =>
    rw [bind_error h]
    refine ⟨by rintro _ _ ⟨⟩, ?_⟩
    rintro _ _ ⟨⟩
    exact herror e c₁ h

theorem keeps_get : Keeps I F (get : Checking CheckState) := keeps_of_ok fun c hc => ⟨c, c, rfl, hc⟩

theorem keeps_openScope (h : t.Maintains g I F) (outer : List ScratchId) (b : Bindings Finding) :
    Keeps I F (openScope outer b) :=
  keeps_of_ok fun _ hc => ⟨_, _, rfl, h.scopes _ _ hc⟩

theorem keeps_lookup (h : t.Maintains g I F) (S : ScratchId) {s : Symbol} (hs : t.sites s.span) :
    Keeps I F (lookup g S s) := by
  intro c hc
  cases hget : c.get? g S s.name with
  | some f =>
    have hx : lookup g S s c = .ok f c := by rw [lookup, hget]
    rw [hx]
    refine ⟨?_, by rintro _ _ ⟨⟩⟩
    rintro _ _ ⟨⟩
    exact hc
  | none =>
    have hx : lookup g S s c = (fail (.unbound s.name) s.span : Checking Finding) c := by
      rw [lookup, hget]
      rfl
    rw [hx]
    exact keeps_throw (h.fail rfl (t.ofRun rfl hs)) c hc

theorem keeps_askNative (h : t.Maintains g I F) (S : ScratchId) {span : Span} (hspan : t.sites span)
    {n : Native} (hn : n.isPure = true) (args : List Value) : Keeps I F (askNative g S span n args) := by
  intro c hc
  have hwritten := @h.write c n (c.shown g) (g.store.nextScope + S) args hc hn
  rw [askNative]
  cases hreply : (g.host n (c.shown g) (g.store.nextScope + S) args c.written).result with
  | ok v =>
    refine ⟨?_, by rintro _ _ ⟨⟩⟩
    rintro _ _ ⟨⟩
    exact hwritten
  | error f =>
    refine ⟨by rintro _ _ ⟨⟩, ?_⟩
    rintro _ _ ⟨⟩
    exact ⟨hwritten, h.native hspan hreply⟩

theorem keeps_native (h : t.Maintains g I F) (S : ScratchId) {span : Span} (hspan : t.sites span)
    (n : Native) (args : List Finding) : Keeps I F (checkNative g S span n args) := by
  have hpure (f : Finding) : Keeps I F (pure f : Checking Finding) :=
    keeps_of_ok fun c hc => ⟨f, c, rfl, hc⟩
  rw [checkNative]
  split
  · next hn =>
    split
    · next vs _ => exact keeps_askNative h S hspan hn vs
    · exact hpure _
  · exact hpure _

theorem keeps_forgetAll (h : t.Maintains g I F) {c : CheckState} (hc : I c) (S : ScratchId)
    (names : List Name) : I (c.forgetAll S names) := by
  induction names generalizing c with
  | nil => exact hc
  | cons x names ih => exact ih (h.scopes _ _ hc)

theorem Keeps.branch (h : t.Maintains g I F) {S : ScratchId} {body : ScratchId → Checking Finding}
    (hbody : ∀ i, Keeps I F (body i)) : Keeps I F (branch S body) := by
  refine keeps_get.bind fun c => (keeps_openScope h _ _).bind fun inner => ?_
  refine (hbody inner).bind fun _ => ?_
  exact keeps_of_ok fun c hc => ⟨(), _, rfl, keeps_forgetAll h hc S _⟩

theorem keeps_relates (h : t.Maintains g I F) : t.Relates (fun _ _ x _ => Keeps I F x) g g id where
  closures := rfl
  scope := rfl
  pure a := keeps_of_ok fun c hc => ⟨a, c, rfl, hc⟩
  bind := Keeps.bind
  fail hstale hpermits := keeps_throw (h.fail hstale hpermits)
  lookup _ hs := keeps_lookup h _ hs
  assign _ _ _ := keeps_of_ok fun _ hc => ⟨(), _, rfl, h.scopes _ _ hc⟩
  wait _ hliteral := keeps_of_ok fun _ hc => ⟨_, _, rfl, h.wait hc hliteral⟩
  native _ hspan := keeps_native h _ hspan
  visit hs := keeps_of_ok fun _ hc => ⟨(), _, rfl, h.visit hc hs⟩
  branch _ hbody := Keeps.branch h hbody

theorem keeps_checkWaiting (h : t.Maintains g I F) {w : Waiting} (hw : w.literal.body.Meets t) :
    Keeps I F (checkWaiting g w) := by
  have hforget : Keeps I F (modify CheckState.forget) :=
    keeps_of_ok fun c hc => ⟨_, _, rfl, h.scopes _ _ hc⟩
  refine hforget.bind fun _ => keeps_get.bind fun c => (keeps_openScope h _ _).bind fun scope => ?_
  have hblock := (keeps_relates h).checkBlock (Nat.lt_succ_self scope) w.literal.body hw
  exact Keeps.bind hblock fun _ => keeps_of_ok fun c hc => ⟨(), c, rfl, hc⟩

@[simp] theorem get_bind_apply (f : CheckState → Checking α) (c : CheckState) :
    ((get : Checking CheckState) >>= f) c = f c c :=
  rfl

theorem checkAllWaiting_cases (g : Ground) (bodies turn : Nat) (c : CheckState) :
    (c.waiting[turn]? = none ∧ checkAllWaiting g (bodies + 1) turn c = .ok () c) ∨
      ∃ w, c.waiting[turn]? = some w ∧ checkAllWaiting g (bodies + 1) turn c =
        (do checkWaiting g w; checkAllWaiting g bodies (turn + 1)) c := by
  cases hw : c.waiting[turn]? with
  | none =>
    refine .inl ⟨rfl, ?_⟩
    simp only [checkAllWaiting, get_bind_apply, hw]
    rfl
  | some w =>
    refine .inr ⟨w, rfl, ?_⟩
    simp only [checkAllWaiting, get_bind_apply, hw]

theorem keeps_checkAllWaiting (h : t.Maintains g I F) (bodies turn : Nat) :
    Keeps I F (checkAllWaiting g bodies turn) := by
  induction bodies generalizing turn with
  | zero => exact keeps_of_ok fun c hc => ⟨(), c, rfl, hc⟩
  | succ bodies ih =>
    intro c hc
    obtain ⟨-, hx⟩ | ⟨w, hw, hx⟩ := checkAllWaiting_cases g bodies turn c
    · rw [hx]
      refine ⟨?_, by rintro _ _ ⟨⟩⟩
      rintro _ _ ⟨⟩
      exact hc
    · rw [hx]
      have hmeets := h.body hc (Array.mem_of_getElem? hw)
      exact (keeps_checkWaiting h hmeets).bind (fun _ => ih (turn + 1)) c hc

theorem keeps_check (h : t.Maintains g I F) {n : Node} (hn : n.Meets t) : Keeps I F (check g n) := by
  refine (keeps_openScope h _ _).bind fun scope => ?_
  refine Keeps.bind ((keeps_relates h).checkNode (Nat.lt_succ_self scope) n hn) fun f => ?_
  refine (keeps_checkAllWaiting h _ _).bind fun _ => ?_
  cases f <;> exact keeps_of_ok fun c hc => ⟨_, c, rfl, hc⟩

end Checking

/-- The bodies that wait meet the terms, and the statements visited so far may stand in a tree. -/
structure CheckState.Meets (t : Terms) (c : CheckState) : Prop where
  waiting : ∀ w ∈ c.waiting, w.literal.body.Meets t
  visited : ∀ s ∈ c.visited, t.stands s

namespace CheckState.Meets

variable {t : Terms} {c : CheckState}

theorem initial (t : Terms) : CheckState.initial.Meets t where
  waiting _ h := absurd h (Array.not_mem_empty _)
  visited _ h := absurd h (Array.not_mem_empty _)

theorem wait (h : c.Meets t) {w : Waiting} (hw : w.literal.body.Meets t) :
    CheckState.Meets t { c with waiting := c.waiting.push w } := by
  refine ⟨fun w' hw' => ?_, h.visited⟩
  obtain hw' | rfl := Array.mem_push.mp hw'
  · exact h.waiting w' hw'
  · exact hw

theorem visit (h : c.Meets t) {s : Stmt} (hs : t.stands s) :
    CheckState.Meets t { c with visited := c.visited.push s } := by
  refine ⟨h.waiting, fun s' hs' => ?_⟩
  obtain hs' | rfl := Array.mem_push.mp hs'
  · exact h.visited s' hs'
  · exact hs

end CheckState.Meets

end Stepwise
