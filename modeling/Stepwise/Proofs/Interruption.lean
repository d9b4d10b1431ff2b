import Stepwise.Proofs.Patience

/-! Runs that may be cut off. A run gives way to another one if it fails in one of some ways, or goes just as
the other one does. If natives do so and calls do so, then all that is made of them does. -/

namespace Stepwise

open Execution

namespace Execution

variable {α β : Type} {F : Failure → (written : Array Bytes) → Prop}

/-- The first run is cut off by one of these failures, or the second one goes the same way. -/
def GivesWay (F : Failure → (written : Array Bytes) → Prop) (x y : Execution α) : Prop :=
  ∀ w, (∃ f w', F f w'.written ∧ x w = .error f w') ∨ y w = x w

theorem GivesWay.refl (x : Execution α) : GivesWay F x x := fun _ => .inr rfl

theorem GivesWay.bind {x y : Execution α} {f g : α → Execution β} (hxy : GivesWay F x y)
    (hfg : ∀ a, GivesWay F (f a) (g a)) : GivesWay F (x >>= f) (y >>= g) := by
  intro w
  obtain ⟨e, w', hcut, hx⟩ | hy := hxy w
  · exact .inl ⟨e, w', hcut, bind_error hx⟩
  cases hx : x w with
  | ok a w₁ =>
    rw [hx] at hy
    rw [bind_ok hx, bind_ok hy]
    exact hfg a w₁
  | error e w₁ =>
    rw [hx] at hy
    rw [bind_error hx, bind_error hy]
    exact .inr rfl

theorem GivesWay.ends {x y : Execution α} (h : GivesWay F x y) {m m' : Memory}
    {r : Except Failure α} (hends : x.Ends m r m') :
    (∃ f, r = .error f ∧ F f m'.written) ∨ y.Ends m r m' := by
  obtain ⟨used, hends⟩ := hends
  by_cases hr : ∃ f, r = .error f ∧ F f m'.written
  · exact .inl hr
  · refine .inr ⟨used, fun spare => ?_⟩
    obtain ⟨f, w', hcut, hx⟩ | hy := h (m.world (used + spare))
    · have hreply : reply r (m'.world spare) = reply (.error f) w' := (hends spare).symm.trans hx
      obtain ⟨rfl, rfl⟩ := reply_inj hreply
      exact absurd ⟨f, rfl, hcut⟩ hr
    · exact hy.trans (hends spare)

theorem givesWay_loopFrom {body body' : Execution Value} (h : GivesWay F body body')
    (frame : LoopFrame) (last : Value) :
    GivesWay F (loopFrom body frame last) (loopFrom body' frame last) := by
  have hrounds (rounds : Nat) : ∀ frame last,
      GivesWay F (runLoop body rounds frame last) (runLoop body' rounds frame last) := by
    induction rounds with
    | zero => exact fun _ _ => .refl _
    | succ rounds ih =>
      intro frame last
      rw [runLoop, runLoop]
      split
      · exact .refl _
      · exact (GivesWay.refl poll).bind fun _ => h.bind fun v => ih frame.next v
  exact fun w => hrounds (w.polls + 1) frame last w

end Execution

section

variable {host host' : Host} {invoke invoke' : Invoke} {scope : ScopeId}
  {F : Failure → (written : Array Bytes) → Prop}

def Host.GivesWay (F : Failure → (written : Array Bytes) → Prop) (host host' : Host) : Prop :=
  ∀ scope span n args, Execution.GivesWay F (callNative host scope span n args)
    (callNative host' scope span n args)

def Invoke.GivesWay (F : Failure → (written : Array Bytes) → Prop) (invoke invoke' : Invoke) : Prop :=
  ∀ span c args, Execution.GivesWay F (invoke span c args) (invoke' span c args)

theorem applyValue_givesWay (hhost : host.GivesWay F host') (hinv : invoke.GivesWay F invoke') (span : Span)
    (callee : Value) (args : List Value) : GivesWay F (applyValue host invoke scope span callee args)
      (applyValue host' invoke' scope span callee args) := by
  rw [applyValue_eq, applyValue_eq]
  refine (GivesWay.refl poll).bind fun _ => ?_
  cases Dispatch.of args.length callee with
  | native n => exact hhost scope span n args
  | closure c => exact hinv span c args
  | refused cause => exact .refl _

mutual

theorem evalExpr_givesWay (hhost : host.GivesWay F host') (hinv : invoke.GivesWay F invoke') (e : Expr) :
    GivesWay F (evalExpr host invoke scope e) (evalExpr host' invoke' scope e) := by
  cases e with
  | call span callee args =>
    rw [evalExpr, evalExpr]
    split
    · exact .refl _
    · refine (evalExpr_givesWay hhost hinv callee).bind fun f => ?_
      refine (evalArgs_givesWay hhost hinv args).bind fun vs => ?_
      exact applyValue_givesWay hhost hinv span f vs
  | _ => exact .refl _
termination_by structural e

theorem evalArgs_givesWay (hhost : host.GivesWay F host') (hinv : invoke.GivesWay F invoke')
    (es : List Expr) : GivesWay F (evalArgs host invoke scope es) (evalArgs host' invoke' scope es) := by
  cases es with
  | nil => exact .refl _
  | cons e es =>
    rw [evalArgs, evalArgs]
    refine (evalExpr_givesWay hhost hinv e).bind fun v => ?_
    exact (evalArgs_givesWay hhost hinv es).bind fun vs => .refl _
termination_by structural es

end

theorem startLoop_givesWay (span : Span) (count : Expr) (body : Block) :
    GivesWay F (startLoop host invoke scope span count body)
      (startLoop host' invoke' scope span count body) := by
  obtain ⟨s, hstart⟩ | ⟨frame, hstart⟩ | ⟨cause, place, -, hstart⟩ := startLoop_cases span count body
  all_goals
    rw [hstart, hstart]
    exact .refl _

mutual

theorem evalStmt_givesWay (hhost : host.GivesWay F host') (hinv : invoke.GivesWay F invoke') (s : Stmt) :
    GivesWay F (evalStmt host invoke scope s) (evalStmt host' invoke' scope s) := by
  cases s with
  | missing => exact .refl _
  | set span target value =>
    cases target with
    | none => exact .refl _
    | some symbol =>
      rw [evalStmt, evalStmt]
      split
      · exact .refl _
      · exact (evalExpr_givesWay hhost hinv value).bind fun v => .refl _
  | branch span condition thenBlock elseBlock =>
    rw [evalStmt, evalStmt]
    split
    · exact .refl _
    refine (evalExpr_givesWay hhost hinv condition).bind fun v => ?_
    split
    · exact evalBlock_givesWay hhost hinv thenBlock
    split
    · exact .refl _
    · exact evalBlock_givesWay hhost hinv elseBlock
  | times span count body =>
    rw [evalStmt_times, evalStmt_times]
    refine (startLoop_givesWay span count body).bind fun frame => ?_
    exact givesWay_loopFrom (evalBlock_givesWay hhost hinv body) frame .absent
  | call span callee args =>
    rw [evalStmt, evalStmt]
    exact evalExpr_givesWay hhost hinv (.call span callee args)
termination_by structural s

theorem evalBlock_givesWay (hhost : host.GivesWay F host') (hinv : invoke.GivesWay F invoke') (b : Block) :
    GivesWay F (evalBlock host invoke scope b) (evalBlock host' invoke' scope b) := by
  cases b with
  | missing => exact .refl _
  | of span body => exact evalBody_givesWay hhost hinv .absent body
termination_by structural b

theorem evalBody_givesWay (hhost : host.GivesWay F host') (hinv : invoke.GivesWay F invoke') (last : Value)
    (body : List Stmt) : GivesWay F (evalBody host invoke scope last body)
      (evalBody host' invoke' scope last body) := by
  cases body with
  | nil => exact .refl _
  | cons s rest =>
    rw [evalBody, evalBody]
    exact (evalStmt_givesWay hhost hinv s).bind fun v => evalBody_givesWay hhost hinv v rest
termination_by structural body

end

theorem enterBranch_givesWay (hhost : host.GivesWay F host') (hinv : invoke.GivesWay F invoke')
    (condition : Expr) (path : Location) : GivesWay F (enterBranch host invoke scope condition path)
      (enterBranch host' invoke' scope condition path) := by
  rw [enterBranch, enterBranch]
  split
  · exact (evalExpr_givesWay hhost hinv condition).bind fun v => .refl _
  · exact .refl _

mutual

theorem stepStmt_givesWay (hhost : host.GivesWay F host') (hinv : invoke.GivesWay F invoke')
    (loc : Location) (s : Stmt) : GivesWay F (stepStmt host invoke scope loc s)
      (stepStmt host' invoke' scope loc s) := by
  cases s with
  | missing | set | call =>
    rw [stepStmt, stepStmt]
    exact (evalStmt_givesWay hhost hinv _).bind fun v => .refl _
  | branch span condition thenBlock elseBlock =>
    rw [stepStmt, stepStmt]
    split
    · exact .refl _
    refine (enterBranch_givesWay hhost hinv condition loc.below).bind fun path => ?_
    split
    · exact (stepBlock_givesWay hhost hinv path thenBlock).bind fun s => .refl _
    split
    · split
      · exact .refl _
      · exact (stepBlock_givesWay hhost hinv path elseBlock).bind fun s => .refl _
    · exact .refl _
  | times span count body =>
    rw [stepStmt, stepStmt]
    split
    · exact .refl _
    split
    · refine (startLoop_givesWay span count body).bind fun frame => ?_
      split
      · exact .refl _
      refine (GivesWay.refl (takeFrame scope span loc (some frame))).bind fun taken => ?_
      exact (stepBlock_givesWay hhost hinv [1, 0] body).bind fun s => .refl _
    split
    · exact .refl _
    refine (GivesWay.refl (takeFrame scope span loc none)).bind fun taken => ?_
    exact (stepBlock_givesWay hhost hinv loc.below body).bind fun s => .refl _
termination_by structural s

theorem stepBlock_givesWay (hhost : host.GivesWay F host') (hinv : invoke.GivesWay F invoke')
    (loc : Location) (b : Block) : GivesWay F (stepBlock host invoke scope loc b)
      (stepBlock host' invoke' scope loc b) := by
  cases b with
  | missing => exact .refl _
  | of span body =>
    rw [stepBlock, stepBlock]
    split
    · exact .refl _
    · exact stepAt_givesWay hhost hinv loc body.length loc.below.head.toNat body
termination_by structural b

theorem stepAt_givesWay (hhost : host.GivesWay F host') (hinv : invoke.GivesWay F invoke') (loc : Location)
    (count skip : Nat) (body : List Stmt) : GivesWay F (stepAt host invoke scope loc count skip body)
      (stepAt host' invoke' scope loc count skip body) := by
  cases body with
  | nil =>
    rw [stepAt, stepAt]
    exact .refl _
  | cons s rest =>
    cases skip with
    | zero =>
      rw [stepAt, stepAt]
      exact (stepStmt_givesWay hhost hinv loc.below s).bind fun r => .refl _
    | succ skip =>
      rw [stepAt, stepAt]
      exact stepAt_givesWay hhost hinv loc count skip rest
termination_by structural body

end

theorem Host.givesWay_refl (F : Failure → (written : Array Bytes) → Prop) (host : Host) :
    host.GivesWay F host := fun _ _ _ _ => .refl _

theorem Execution.GivesWay.guarded {x y : Execution Stepped} (h : GivesWay F x y) :
    GivesWay F (Setting.guarded scope x) (Setting.guarded scope y) := by
  intro w
  obtain ⟨f, w', hdeep, hx⟩ | hy := h w
  · let restored := { w' with store := (LoopCheckpoint.take w.store scope).restore scope w'.store }
    have hguarded : Setting.guarded scope x w = .error f restored := by
      rw [Setting.guarded, hx]
    exact .inl ⟨f, restored, hdeep, hguarded⟩
  · exact .inr (by rw [Setting.guarded, hy, ← Setting.guarded])

end

namespace Setting

variable {a b : Setting} {F : Failure → (written : Array Bytes) → Prop}

theorem evaluate_givesWay (hhost : a.host.GivesWay F b.host) (hinv : a.invoke.GivesWay F b.invoke)
    (scope : ScopeId) (n : Node) : GivesWay F (a.evaluate scope n) (b.evaluate scope n) := by
  cases n with
  | program p => exact evalBody_givesWay hhost hinv .absent p.body
  | block b => exact evalBlock_givesWay hhost hinv b
  | stmt s => exact evalStmt_givesWay hhost hinv s
  | expr e => exact evalExpr_givesWay hhost hinv e
  | params ps => exact .refl _

theorem step_givesWay (hhost : a.host.GivesWay F b.host) (hinv : a.invoke.GivesWay F b.invoke)
    (scope : ScopeId) (n : Node) (loc : Location) :
    GivesWay F (a.step scope n loc) (b.step scope n loc) := by
  rw [step_eq, step_eq]
  split
  · exact .refl _
  refine (GivesWay.refl poll).bind fun _ => ?_
  cases n.steppable with
  | error d => exact .refl _
  | ok body =>
    have hbody : GivesWay F (a.stepBody scope loc body) (b.stepBody scope loc body) :=
      stepBlock_givesWay hhost hinv loc (.of .nowhere body)
    exact hbody.guarded.bind fun s => .refl _

end Setting

/-- So a print fails that the writer has refused, and what it took of the line is the last that was
written. -/
def Writer.Refuses (writer : Writer) (f : Failure) (written : Array Bytes) : Prop :=
  ∃ before line refusal span, writer before line = some refusal ∧ written = before ++ [refusal.taken] ∧
    f = (Failure.wrapped Primitive.print.name refusal.reason).placedAt span

/-- A call goes as with a writer that does not fail, unless it is a print that is refused. -/
theorem Primitive.call_cases (p : Primitive) (writer : Writer) (s : Store) (args : List Value)
    (written : Array Bytes) : p.call writer s args written = p.call .unfailing s args written ∨
      ∃ line refusal, writer written line = some refusal ∧
        p.call writer s args written =
          ⟨[refusal.taken], .error (.wrapped print.name refusal.reason)⟩ := by
  unfold call
  split
  · exact .inl rfl
  · next v =>
    obtain ⟨-, hwrite⟩ | ⟨refusal, hrefusal, hwrite⟩ := write_cases writer (s.text v ++ [10]) written
    · rw [hwrite]
      exact .inl rfl
    · rw [hwrite]
      exact .inr ⟨_, refusal, hrefusal, rfl⟩
  · exact .inl rfl
  · exact .inl rfl

theorem primitivesOn_givesWay (writer : Writer) :
    (primitivesOn writer).GivesWay writer.Refuses primitives := by
  intro scope span n args w
  cases hn : Primitive.ofNative? n with
  | none => exact .inr (by simp only [callNative, primitives, primitivesOn, hn])
  | some p =>
    obtain hsame | ⟨line, refusal, hrefusal, hcall⟩ := p.call_cases writer w.store args w.written
    · exact .inr (by simp only [callNative, primitives, primitivesOn, hn, hsame])
    · refine .inl ⟨_, { w with written := w.written ++ [refusal.taken] },
        ⟨w.written, line, refusal, span, hrefusal, rfl, rfl⟩, ?_⟩
      simp only [callNative, primitivesOn, hn, hcall]

theorem invokeAt_givesWay {F : Failure → (written : Array Bytes) → Prop} {host host' : Host}
    (hhost : host.GivesWay F host')
    (depth left : Nat) : (invokeAt ⟨host, depth⟩ left).GivesWay F (invokeAt ⟨host', depth⟩ left) := by
  induction left with
  | zero => exact fun span c args => .refl _
  | succ left ih =>
    intro span c args
    exact (GivesWay.refl (openScope c args)).bind fun scope => evalBlock_givesWay hhost ih c.literal.body

/-- With any writer an evaluation goes as with one that does not fail, or a print of it is refused. -/
theorem evaluate_givesWay_unfailing (writer : Writer) (depth : Nat) (scope : ScopeId) (n : Node) :
    GivesWay writer.Refuses (Setting.evaluate ⟨primitivesOn writer, depth⟩ scope n)
      (Setting.evaluate ⟨primitives, depth⟩ scope n) :=
  have hhost := primitivesOn_givesWay writer
  Setting.evaluate_givesWay hhost (invokeAt_givesWay hhost depth depth) scope n

/-- And so does a step. -/
theorem step_givesWay_unfailing (writer : Writer) (depth : Nat) (scope : ScopeId) (n : Node)
    (loc : Location) : GivesWay writer.Refuses (Setting.step ⟨primitivesOn writer, depth⟩ scope n loc)
      (Setting.step ⟨primitives, depth⟩ scope n loc) :=
  have hhost := primitivesOn_givesWay writer
  Setting.step_givesWay hhost (invokeAt_givesWay hhost depth depth) scope n loc

end Stepwise
