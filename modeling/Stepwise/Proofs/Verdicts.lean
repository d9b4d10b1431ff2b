import Stepwise.Proofs.Sandbox
import Stepwise.Proofs.Unison

/-! Checks against linked scopes. What the check knows in one store it knows in the other, but for the
numbers of things, so a tree that passes in one of them passes in the other, and one that fails there
fails here in the same way. -/

namespace Stepwise

open Checking

/-- The closures that two checks make up stand for each other, turn by turn. -/
def Link.withTurns (k : Link) (s t : Store) : Link :=
  { k with closure := fun i j => k.closure i j ∨ ∃ turn, i = s.closures + turn ∧ j = t.closures + turn }

theorem Link.le_withTurns (k : Link) (s t : Store) : k ≤ k.withTurns s t :=
  ⟨le_rfl, le_rfl, fun _ _ h => .inl h⟩

/-- Both checks know linked values, or neither knows anything. -/
inductive Finding.Linked (k : Link) : Finding → Finding → Prop
  | known {v v' : Value} : v.Linked k v' → Linked k (.known v) (.known v')
  | unknown : Linked k .unknown .unknown

abbrev FindingsLinked (k : Link) : List Finding → List Finding → Prop := List.Forall₂ (Finding.Linked k)

namespace Finding

variable {k : Link} {f f' : Finding}

theorem Linked.orNull (h : f.Linked k f') : f.orNull.Linked k f'.orNull := by
  cases h with
  | known hv => exact .known hv.orNull
  | unknown => exact .unknown

theorem Linked.isFunction_eq (h : f.Linked k f') : f'.isFunction = f.isFunction := by
  cases h with
  | unknown => rfl
  | @known v v' hv =>
    obtain ⟨rfl, -⟩ | ⟨c, c', rfl, rfl, -⟩ | ⟨i, j, rfl, rfl, -⟩ := hv.cases <;> rfl

theorem values?_linked {fs fs' : List Finding} (h : FindingsLinked k fs fs') :
    Option.Rel (ValuesLinked k) (values? fs) (values? fs') := by
  induction h with
  | nil => exact .some .nil
  | @cons f f' fs fs' hf _ ih =>
    cases hf with
    | unknown => exact .none
    | known hv =>
      simp only [values?]
      generalize values? fs = vs at ih
      generalize values? fs' = vs' at ih
      cases ih with
      | none => exact .none
      | some hvs => exact .some (.cons hv hvs)

end Finding

structure Scratch.Linked (k : Link) (a b : Scratch) : Prop where
  bindings : a.bindings.Rel (Finding.Linked k) b.bindings
  outer : b.outer = a.outer

/-- Checks of one tree that stand at the same place of it. -/
structure CheckState.Linked (k : Link) (c c' : CheckState) : Prop where
  size : c'.scopes.size = c.scopes.size
  scopes : ∀ i : ScratchId, Option.Rel (Scratch.Linked k) c.scopes[i]? c'.scopes[i]?
  waiting : c'.waiting = c.waiting

/-- The scopes checked against are linked, and so are the functions written in the tree. -/
structure Ground.Linked (k : Link) (g g' : Ground) : Prop where
  host : g'.host = g.host
  get? : ∀ name, Option.Rel (Value.Linked k) (g.store.get? g.scope name) (g'.store.get? g'.scope name)
  scope : k.scope g.scope g'.scope
  closure : ∀ turn, k.closure (g.store.closures + turn) (g'.store.closures + turn)

theorem CheckState.initial_linked (k : Link) : CheckState.initial.Linked k .initial :=
  ⟨rfl, fun _ => .none, rfl⟩

theorem Store.Linked.ground {k : Link} {s t : Store} (h : s.Linked k t) {i j : ScopeId}
    (hij : k.scope i j) (host : Host) : Ground.Linked (k.withTurns s t) ⟨host, s, i⟩ ⟨host, t, j⟩ where
  host := rfl
  get? name := by
    have hget := h.get? hij name
    dsimp only
    generalize s.get? i name = v at hget
    generalize t.get? j name = v' at hget
    cases hget with
    | none => exact .none
    | some hv => exact .some (hv.mono (k.le_withTurns s t))
  scope := hij
  closure turn := .inr ⟨turn, rfl, rfl⟩

namespace CheckState.Linked

variable {k : Link} {c c' : CheckState} {S : ScratchId}

theorem chain_eq (h : c.Linked k c') (i : ScratchId) : c'.chain i = c.chain i := by
  have hscope := h.scopes i
  rw [CheckState.chain, CheckState.chain]
  generalize c.scopes[i]? = a at hscope
  generalize c'.scopes[i]? = b at hscope
  cases hscope with
  | none => rfl
  | some hab => exact congrArg (i :: ·) hab.outer

theorem bindings (h : c.Linked k c') (i : ScratchId) :
    (c.bindings i).Rel (Finding.Linked k) (c'.bindings i) := by
  have hscope := h.scopes i
  rw [CheckState.bindings, CheckState.bindings]
  generalize c.scopes[i]? = a at hscope
  generalize c'.scopes[i]? = b at hscope
  cases hscope with
  | none => exact Bindings.rel_empty
  | some hab => exact hab.bindings

theorem get? {g g' : Ground} (hg : g.Linked k g') (h : c.Linked k c') (i : ScratchId) (name : Name) :
    Option.Rel (Finding.Linked k) (c.get? g i name) (c'.get? g' i name) := by
  have hfind (chain : List ScratchId) : Option.Rel (Finding.Linked k)
      (chain.findSome? fun i => (c.bindings i).get? name)
      (chain.findSome? fun i => (c'.bindings i).get? name) := by
    induction chain with
    | nil => exact .none
    | cons i chain ih =>
      have hfirst := (h.bindings i).get? name
      rw [List.findSome?_cons, List.findSome?_cons]
      generalize (c.bindings i).get? name = f at hfirst
      generalize (c'.bindings i).get? name = f' at hfirst
      cases hfirst with
      | none => exact ih
      | some hf => exact .some hf
  have hground := hg.get? name
  have hinside := hfind (c.chain i)
  rw [CheckState.get?, CheckState.get?, h.chain_eq i]
  generalize List.findSome? _ _ = f at hinside
  generalize List.findSome? _ _ = f' at hinside
  cases hinside with
  | some hf => exact .some hf
  | none =>
    generalize g.store.get? g.scope name = v at hground
    generalize g'.store.get? g'.scope name = v' at hground
    cases hground with
    | none => exact .none
    | some hv => exact .some (.known hv)

theorem set (h : c.Linked k c') (S : ScratchId) (name : Name) {f f' : Finding} (hf : f.Linked k f') :
    (c.set S name f).Linked k (c'.set S name f') where
  size := by rw [size_set, size_set, h.size]
  scopes i := by
    have hscope := h.scopes i
    simp only [CheckState.set, Array.getElem?_modify]
    generalize c.scopes[i]? = a at hscope
    generalize c'.scopes[i]? = b at hscope
    split
    · cases hscope with
      | none => exact .none
      | some hab => exact .some ⟨hab.bindings.insert name hf, hab.outer⟩
    · exact hscope
  waiting := h.waiting

theorem forgetAll (h : c.Linked k c') (S : ScratchId) (names : List Name) :
    (c.forgetAll S names).Linked k (c'.forgetAll S names) := by
  induction names generalizing c c' with
  | nil => exact h
  | cons name names ih => exact ih (h.set S name .unknown)

theorem leave (h : c.Linked k c') (S inner : ScratchId) : (c.leave S inner).Linked k (c'.leave S inner) := by
  rw [CheckState.leave, CheckState.leave, (h.bindings inner).names_eq]
  exact h.forgetAll S _

theorem extend (h : c.Linked k c') (outer : List ScratchId) {b b' : Bindings Finding}
    (hb : b.Rel (Finding.Linked k) b') : (c.extend outer b).Linked k (c'.extend outer b') where
  size := by rw [size_extend, size_extend, h.size]
  scopes i := by
    have hscope := h.scopes i
    simp only [CheckState.extend, Array.getElem?_push, h.size]
    split
    · exact .some ⟨hb, rfl⟩
    · exact hscope
  waiting := h.waiting

theorem forget (h : c.Linked k c') : c.forget.Linked k c'.forget where
  size := by simp only [CheckState.forget, Array.size_map, h.size]
  scopes i := by
    have hscope := h.scopes i
    simp only [CheckState.forget, Array.getElem?_map]
    generalize c.scopes[i]? = a at hscope
    generalize c'.scopes[i]? = b at hscope
    cases hscope with
    | none => exact .none
    | some hab =>
      refine .some ⟨?_, hab.outer⟩
      refine List.forall₂_map_left_iff.mpr (List.forall₂_map_right_iff.mpr ?_)
      refine List.Forall₂.imp (fun x y hxy => ⟨hxy.1, ?_⟩) hab.bindings
      dsimp only
      rw [Finding.forgotten, Finding.forgotten, hxy.2.isFunction_eq]
      split
      · exact hxy.2
      · exact .unknown
  waiting := h.waiting

end CheckState.Linked

namespace Checking

variable {α β γ δ : Type} {k : Link} {P : α → β → Prop} {Q : γ → δ → Prop}

/-- From linked states the two checks fail alike, or they go on to linked states. -/
def Agree (k : Link) (P : α → β → Prop) (x : Checking α) (y : Checking β) : Prop :=
  ∀ c c' : CheckState, c.Linked k c' →
    (∃ a b d d', x c = .ok a d ∧ y c' = .ok b d' ∧ P a b ∧ d.Linked k d') ∨
      ∃ f d d', x c = .error f d ∧ y c' = .error f d'

theorem Agree.bind {x : Checking α} {y : Checking β} {f : α → Checking γ} {g : β → Checking δ}
    (h : Agree k P x y) (hfg : ∀ a b, P a b → Agree k Q (f a) (g b)) : Agree k Q (x >>= f) (y >>= g) := by
  intro c c' hc
  obtain ⟨a, b, d, d', hx, hy, hab, hd⟩ | ⟨e, d, d', hx, hy⟩ := h c c' hc
  · rw [bind_ok hx, bind_ok hy]
    exact hfg a b hab d d' hd
  · rw [bind_error hx, bind_error hy]
    exact .inr ⟨e, d, d', rfl, rfl⟩

theorem agree_pure {a : α} {b : β} (h : P a b) : Agree k P (pure a) (pure b) :=
  fun c c' hc => .inl ⟨a, b, c, c', rfl, rfl, h, hc⟩

theorem agree_throw (f : Failure) : Agree k P (throw f) (throw f) :=
  fun c c' _ => .inr ⟨f, c, c', rfl, rfl⟩

theorem agree_fail (cause : Cause) (span : Span) : Agree k P (fail cause span) (fail cause span) :=
  agree_throw _

theorem agree_modify {f f' : CheckState → CheckState} (h : ∀ c c', c.Linked k c' → (f c).Linked k (f' c')) :
    Agree k (fun _ _ => True) (modify f) (modify f') :=
  fun c c' hc => .inl ⟨_, _, f c, f' c', rfl, rfl, trivial, h c c' hc⟩

theorem agree_get : Agree k (CheckState.Linked k) get get :=
  fun c c' hc => .inl ⟨c, c', c, c', rfl, rfl, hc, hc⟩

theorem agree_openScope (outer : List ScratchId) {b b' : Bindings Finding}
    (hb : b.Rel (Finding.Linked k) b') :
    Agree k (fun inner inner' => inner' = inner) (openScope outer b) (openScope outer b') :=
  fun _ _ hc => .inl ⟨_, _, _, _, rfl, rfl, hc.size, hc.extend outer hb⟩

variable {g g' : Ground}

theorem agree_lookup (hg : g.Linked k g') (S : ScratchId) (s : Symbol) :
    Agree k (Finding.Linked k) (lookup g S s) (lookup g' S s) := by
  intro c c' hc
  have hget := CheckState.Linked.get? hg hc S s.name
  rw [lookup, lookup]
  generalize c.get? g S s.name = f at hget
  generalize c'.get? g' S s.name = f' at hget
  cases hget with
  | none => exact .inr ⟨_, c, c', rfl, rfl⟩
  | some hf => exact .inl ⟨_, _, c, c', rfl, rfl, hf, hc⟩

theorem agree_assign (S : ScratchId) (name : Name) {f f' : Finding} (hf : f.Linked k f') :
    Agree k (fun _ _ => True) (assign S name f) (assign S name f') :=
  fun _ _ hc => .inl ⟨_, _, _, _, rfl, rfl, trivial, hc.set S name hf⟩

theorem agree_wait (literal : Literal) (S : ScratchId) :
    Agree k (fun a b => b = a) (wait literal S) (wait literal S) := by
  intro c c' hc
  refine .inl ⟨_, _, _, _, rfl, rfl, by rw [hc.waiting], hc.size, hc.scopes, ?_⟩
  rw [hc.waiting]

theorem agree_visit (s : Stmt) : Agree k (fun _ _ => True) (visit s) (visit s) :=
  fun _ _ hc => .inl ⟨_, _, _, _, rfl, rfl, trivial, hc.size, hc.scopes, hc.waiting⟩

theorem agree_branch (S : ScratchId) {body body' : ScratchId → Checking Finding}
    (hbody : ∀ inner, Agree k (Finding.Linked k) (body inner) (body' inner)) :
    Agree k (fun _ _ => True) (branch S body) (branch S body') := by
  refine agree_get.bind fun c c' hc => ?_
  rw [hc.chain_eq]
  refine (agree_openScope _ Bindings.rel_empty).bind fun _ inner hinner => ?_
  obtain rfl := hinner
  exact (hbody inner).bind fun _ _ _ => agree_modify fun d d' hd => hd.leave S inner

theorem agree_askNative (hhost : g.host.PureRespects) (hg : g.Linked k g') (S : ScratchId) (span : Span)
    {n : Native} (hn : n.isPure = true) {vs vs' : List Value} (hvs : ValuesLinked k vs vs') :
    Agree k (Finding.Linked k) (askNative g S span n vs) (askNative g' S span n vs') := by
  intro c c' hc
  rw [askNative, askNative, hg.host]
  obtain ⟨f, hr, hr'⟩ | ⟨v, v', hr, hr', hv⟩ := hhost n hn k (c.shown g) (c'.shown g')
    (g.store.nextScope + S) (g'.store.nextScope + S) vs vs' hvs c.written c'.written
  · simp only [hr, hr']
    exact .inr ⟨_, _, _, rfl, rfl⟩
  · simp only [hr, hr']
    exact .inl ⟨_, _, _, _, rfl, rfl, .known hv, hc.size, hc.scopes, hc.waiting⟩

theorem agree_native (hhost : g.host.PureRespects) (hg : g.Linked k g') (S : ScratchId) (span : Span)
    (n : Native) {fs fs' : List Finding} (hfs : FindingsLinked k fs fs') :
    Agree k (Finding.Linked k) (checkNative g S span n fs) (checkNative g' S span n fs') := by
  have hvalues := Finding.values?_linked hfs
  rw [checkNative, checkNative]
  split
  · next hpure =>
    generalize Finding.values? fs = vs at hvalues
    generalize Finding.values? fs' = vs' at hvalues
    cases hvalues with
    | none => exact agree_pure .unknown
    | @some vs vs' hvs => exact agree_askNative hhost hg S span hpure hvs
  · exact agree_pure .unknown

theorem checkApply_agree (hhost : g.host.PureRespects) (hg : g.Linked k g') (S : ScratchId) (span : Span)
    {f f' : Finding} (hf : f.Linked k f') {fs fs' : List Finding} (hfs : FindingsLinked k fs fs') :
    Agree k (Finding.Linked k) (checkApply g S span f fs) (checkApply g' S span f' fs') := by
  cases hf with
  | unknown => exact agree_pure .unknown
  | known hv =>
    rw [checkApply_known, checkApply_known, ← hfs.length_eq]
    obtain ⟨n, hd, hd'⟩ | ⟨c, c', hd, hd', -⟩ | ⟨cause, hd, hd'⟩ := Dispatch.of_linked hv fs.length
    · rw [hd, hd']
      exact agree_native hhost hg S span n hfs
    · rw [hd, hd']
      exact agree_pure .unknown
    · rw [hd, hd']
      exact agree_fail cause span

mutual

theorem checkExpr_agree (hhost : g.host.PureRespects) (hg : g.Linked k g') (S : ScratchId) (e : Expr) :
    Agree k (Finding.Linked k) (checkExpr g S e) (checkExpr g' S e) := by
  cases e with
  | missing | forever => exact agree_fail _ _
  | symbol s => exact agree_lookup hg S s
  | number sp n => exact agree_pure (.known rfl)
  | boolean sp b => exact agree_pure (.known rfl)
  | null sp => exact agree_pure (.known rfl)
  | string sp s => exact agree_pure (.known rfl)
  | function sp params body =>
    rw [checkExpr, checkExpr]
    split
    · exact agree_fail _ _
    · refine (agree_wait _ S).bind fun turn _ hturn => ?_
      obtain rfl := hturn
      exact agree_pure (.known ⟨_, rfl, hg.closure _, rfl, hg.scope⟩)
  | call sp callee args =>
    rw [checkExpr, checkExpr]
    split
    · exact agree_fail _ _
    · refine (checkExpr_agree hhost hg S callee).bind fun f f' hf => ?_
      refine (checkArgs_agree hhost hg S args).bind fun fs fs' hfs => ?_
      exact checkApply_agree hhost hg S sp hf hfs

theorem checkArgs_agree (hhost : g.host.PureRespects) (hg : g.Linked k g') (S : ScratchId)
    (es : List Expr) : Agree k (FindingsLinked k) (checkArgs g S es) (checkArgs g' S es) := by
  cases es with
  | nil => exact agree_pure .nil
  | cons e es =>
    rw [checkArgs, checkArgs]
    refine (checkExpr_agree hhost hg S e).bind fun f f' hf => ?_
    exact (checkArgs_agree hhost hg S es).bind fun fs fs' hfs => agree_pure (.cons hf.orNull hfs)

end

theorem checkCount_agree (hhost : g.host.PureRespects) (hg : g.Linked k g') (S : ScratchId) (span : Span)
    (count : Expr) : Agree k (fun _ _ => True) (checkCount g S span count) (checkCount g' S span count) := by
  cases count with
  | missing | boolean | null | string | call | function => exact agree_fail _ _
  | forever sp => exact agree_pure trivial
  | number sp n => exact agree_pure trivial
  | symbol s =>
    refine (checkExpr_agree hhost hg S (.symbol s)).bind fun f f' hf => ?_
    cases hf with
    | unknown => exact agree_pure trivial
    | @known v v' hv =>
      obtain ⟨rfl, -⟩ | ⟨c, c', rfl, rfl, -⟩ | ⟨i, j, rfl, rfl, -⟩ := hv.cases
      · cases v' with
        | integer n => exact agree_pure trivial
        | _ => exact agree_fail _ _
      · exact agree_fail _ _
      · exact agree_fail _ _

mutual

theorem checkStmt_agree (hhost : g.host.PureRespects) (hg : g.Linked k g') (S : ScratchId) (s : Stmt) :
    Agree k (Finding.Linked k) (checkStmt g S s) (checkStmt g' S s) := by
  cases s with
  | missing => exact agree_fail _ _
  | set sp target value =>
    cases target with
    | none => exact agree_fail _ _
    | some symbol =>
      rw [checkStmt, checkStmt]
      split
      · exact agree_fail _ _
      · refine (checkExpr_agree hhost hg S value).bind fun f f' hf => ?_
        exact (agree_assign S symbol.name hf.orNull).bind fun _ _ _ => agree_pure hf.orNull
  | branch sp condition thenBlock elseBlock =>
    rw [checkStmt, checkStmt]
    split
    · exact agree_fail _ _
    refine (checkExpr_agree hhost hg S condition).bind fun _ _ _ => ?_
    refine (agree_branch S fun inner => checkBlock_agree hhost hg inner thenBlock).bind fun _ _ _ => ?_
    split
    · exact (agree_branch S fun inner => checkBlock_agree hhost hg inner elseBlock).bind fun _ _ _ =>
        agree_pure .unknown
    · exact agree_pure .unknown
  | times sp count body =>
    rw [checkStmt, checkStmt]
    split
    · exact agree_fail _ _
    refine (checkCount_agree hhost hg S sp count).bind fun _ _ _ => ?_
    exact (agree_branch S fun inner => checkBlock_agree hhost hg inner body).bind fun _ _ _ =>
      agree_pure .unknown
  | call sp callee args => exact checkExpr_agree hhost hg S (.call sp callee args)

theorem checkBlock_agree (hhost : g.host.PureRespects) (hg : g.Linked k g') (S : ScratchId) (b : Block) :
    Agree k (Finding.Linked k) (checkBlock g S b) (checkBlock g' S b) := by
  cases b with
  | missing => exact agree_pure (.known rfl)
  | of sp body => exact checkBody_agree hhost hg S (.known (Value.linked_self rfl)) body

theorem checkBody_agree (hhost : g.host.PureRespects) (hg : g.Linked k g') (S : ScratchId)
    {last last' : Finding} (hlast : last.Linked k last') (body : List Stmt) :
    Agree k (Finding.Linked k) (checkBody g S last body) (checkBody g' S last' body) := by
  cases body with
  | nil => exact agree_pure hlast
  | cons s rest =>
    rw [checkBody, checkBody]
    refine (agree_visit s).bind fun _ _ _ => ?_
    refine (checkStmt_agree hhost hg S s).bind fun f f' hf => ?_
    exact checkBody_agree hhost hg S hf rest

end

theorem checkWaiting_agree (hhost : g.host.PureRespects) (hg : g.Linked k g') (w : Waiting) :
    Agree k (fun _ _ => True) (checkWaiting g w) (checkWaiting g' w) := by
  have hparams : (Bindings.ofList (w.literal.paramNames.map fun name => (name, Finding.unknown))).Rel
      (Finding.Linked k) (.ofList (w.literal.paramNames.map fun name => (name, .unknown))) := by
    refine Bindings.rel_ofList (List.forall₂_same.mpr fun entry hentry => ⟨rfl, ?_⟩)
    obtain ⟨name, -, rfl⟩ := List.mem_map.mp hentry
    exact .unknown
  refine (agree_modify fun c c' hc => hc.forget).bind fun _ _ _ => ?_
  refine agree_get.bind fun c c' hc => ?_
  rw [hc.chain_eq]
  refine (agree_openScope _ hparams).bind fun _ inner hinner => ?_
  obtain rfl := hinner
  exact (checkBlock_agree hhost hg inner w.literal.body).bind fun _ _ _ => agree_pure trivial

theorem checkAllWaiting_agree (hhost : g.host.PureRespects) (hg : g.Linked k g') (bodies turn : Nat) :
    Agree k (fun _ _ => True) (checkAllWaiting g bodies turn) (checkAllWaiting g' bodies turn) := by
  induction bodies generalizing turn with
  | zero => exact agree_pure trivial
  | succ bodies ih =>
    intro c c' hc
    have hnext (w : Waiting) := (checkWaiting_agree hhost hg w).bind fun _ _ _ => ih (turn + 1)
    obtain ⟨hw, hx⟩ | ⟨w, hw, hx⟩ := checkAllWaiting_cases g bodies turn c
    · obtain ⟨-, hx'⟩ | ⟨w', hw', -⟩ := checkAllWaiting_cases g' bodies turn c'
      · exact .inl ⟨_, _, c, c', hx, hx', trivial, hc⟩
      · rw [hc.waiting, hw] at hw'
        cases hw'
    · obtain ⟨hw', -⟩ | ⟨w', hw', hx'⟩ := checkAllWaiting_cases g' bodies turn c'
      · rw [hc.waiting, hw] at hw'
        cases hw'
      · rw [hc.waiting, hw] at hw'
        obtain rfl := Option.some.inj hw'
        rw [hx, hx']
        exact hnext w c c' hc

/-- From linked scopes the checks come to the same verdict. -/
theorem check_agree (hhost : g.host.PureRespects) (hg : g.Linked k g') (p : Program) :
    Agree k (fun _ _ => True) (check g (.program p)) (check g' (.program p)) := by
  refine (agree_openScope [] Bindings.rel_empty).bind fun _ S hS => ?_
  obtain rfl := hS
  refine (checkBody_agree hhost hg S (.known (Value.linked_self rfl)) p.body).bind fun f f' hf => ?_
  refine (checkAllWaiting_agree hhost hg _ 0).bind fun _ _ _ => ?_
  cases hf with
  | known _ => exact agree_pure trivial
  | unknown => exact agree_pure trivial

end Checking

end Stepwise
