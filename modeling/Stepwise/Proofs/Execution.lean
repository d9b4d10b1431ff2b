import Stepwise.Stepping

/-! How runs are put together, and what calls and loop counts come to. A call is refused for the type
of its callee or the number of its arguments, or it goes on to a native or into a closure; a count is
a constant, the value of one symbol, or refused. A primitive answers with a scalar, or it refuses its
arguments for their number, for their types, or for a divisor of zero. -/

namespace Stepwise

/-- The error that a run has ended with, if it has. -/
def errorOf? {ε σ α : Type} : EStateM.Result ε σ α → Option ε
  | .ok _ _ => none
  | .error e _ => some e

theorem errorOf?_eq_some {ε σ α : Type} {r : EStateM.Result ε σ α} {e : ε} (h : errorOf? r = some e) :
    ∃ s, r = .error e s := by
  cases r with
  | ok a s => cases h
  | error e' s =>
    obtain rfl := Option.some.inj h
    exact ⟨s, rfl⟩

/-- The value that a run has come to, if it has. -/
def resultOf? {ε σ α : Type} : EStateM.Result ε σ α → Option α
  | .ok a _ => some a
  | .error _ _ => none

theorem resultOf?_eq_some {ε σ α : Type} {r : EStateM.Result ε σ α} {a : α}
    (h : resultOf? r = some a) : ∃ s, r = .ok a s := by
  cases r with
  | ok a' s =>
    obtain rfl := Option.some.inj h
    exact ⟨s, rfl⟩
  | error e s => cases h

section Bind

variable {ε σ α β : Type} {x : EStateM ε σ α} {f : α → EStateM ε σ β} {s s' : σ}

theorem bind_ok {a : α} (h : x s = .ok a s') : (x >>= f) s = f a s' := by
  simp only [bind, EStateM.bind, h]

theorem bind_error {e : ε} (h : x s = .error e s') : (x >>= f) s = .error e s' := by
  simp only [bind, EStateM.bind, h]

theorem bind_eq_ok {b : β} (h : (x >>= f) s = .ok b s') :
    ∃ a s₁, x s = .ok a s₁ ∧ f a s₁ = .ok b s' := by
  cases hx : x s with
  | ok a s₁ => exact ⟨a, s₁, rfl, by rw [← h, bind_ok hx]⟩
  | error e s₁ => rw [bind_error hx] at h; cases h

theorem bind_eq_error {e : ε} (h : (x >>= f) s = .error e s') :
    x s = .error e s' ∨ ∃ a s₁, x s = .ok a s₁ ∧ f a s₁ = .error e s' := by
  cases hx : x s with
  | ok a s₁ => exact .inr ⟨a, s₁, rfl, by rw [← h, bind_ok hx]⟩
  | error e' s₁ => rw [bind_error hx] at h; cases h; exact .inl rfl

theorem map_eq_ok {g : α → β} {b : β} (h : (g <$> x) s = .ok b s') : ∃ a, x s = .ok a s' ∧ b = g a := by
  rw [map_eq_pure_bind] at h
  obtain ⟨a, s₁, hx, hp⟩ := bind_eq_ok h
  cases hp
  exact ⟨a, hx, rfl⟩

end Bind

namespace Execution

variable {α β : Type} {x : Execution α} {w w' : World}

/-- The world a run leaves behind, whether it went well or not. -/
def after (x : Execution α) (w : World) : World :=
  match x w with
  | .ok _ w => w
  | .error _ w => w

theorem after_ok {a : α} (h : x w = .ok a w') : x.after w = w' := by rw [after, h]

theorem after_error {e : Failure} (h : x w = .error e w') : x.after w = w' := by rw [after, h]

/-- A run in two parts leaves what its second part leaves, or the first part was all of it. -/
theorem after_bind (x : Execution α) (f : α → Execution β) (w : World) :
    (∃ a, (x >>= f).after w = (f a).after (x.after w)) ∨ (x >>= f).after w = x.after w := by
  cases hx : x w with
  | ok a w₁ =>
    rw [after_ok hx, after, bind_ok hx]
    exact .inl ⟨a, rfl⟩
  | error e w₁ => exact .inr ((after_error (bind_error hx)).trans (after_error hx).symm)

end Execution

open Execution

theorem poll_ok_store {w w' : World} (h : poll w = .ok () w') : w'.store = w.store := by
  obtain ⟨store, written, polls⟩ := w
  cases polls with
  | zero => cases h
  | succ polls =>
    cases h
    rfl

def countFrame (s : Symbol) : Value → Execution LoopFrame
  | .integer n => pure (.counted n)
  | v => fail (.countNotInteger v.shape) s.span

theorem countFrame_cases (s : Symbol) (v : Value) :
    (∃ n, v = .integer n ∧ countFrame s v = pure (.counted n)) ∨
      countFrame s v = fail (.countNotInteger v.shape) s.span := by
  cases v with
  | integer n => exact .inl ⟨n, rfl, rfl⟩
  | _ => exact .inr rfl

/-- How a loop starts depends on its place, its count and its body alone, but for the value of a
count symbol. -/
theorem startLoop_cases (span : Span) (count : Expr) (body : Block) :
    (∃ s, ∀ host invoke scope,
      startLoop host invoke scope span count body = lookup scope s >>= countFrame s) ∨
    (∃ frame, ∀ host invoke scope, startLoop host invoke scope span count body = pure frame) ∨
    (∃ cause place, cause.kind = .invalidConstruct ∧ ∀ host invoke scope,
      startLoop host invoke scope span count body = fail cause place) := by
  cases hb : body.isMissing with
  | true => exact .inr (.inr ⟨_, _, rfl, fun _ _ _ => by rw [startLoop.eq_def, hb]; rfl⟩)
  | false =>
    cases count with
    | symbol s =>
      refine .inl ⟨s, fun host invoke scope => ?_⟩
      rw [startLoop.eq_def, hb]
      refine bind_congr fun v => ?_
      cases v <;> rfl
    | forever sp => exact .inr (.inl ⟨_, fun _ _ _ => by rw [startLoop.eq_def, hb]; rfl⟩)
    | number sp n => exact .inr (.inl ⟨_, fun _ _ _ => by rw [startLoop.eq_def, hb]; rfl⟩)
    | _ => exact .inr (.inr ⟨_, _, rfl, fun _ _ _ => by rw [startLoop.eq_def, hb]; rfl⟩)

inductive Dispatch where
  | native (n : Native)
  | closure (c : Closure)
  | refused (cause : Cause)

namespace Dispatch

def of (count : Nat) : Value → Dispatch
  | .native n =>
    match n.arity with
    | some expected =>
      if count = expected then .native n else .refused (.nativeArity n.name expected count)
    | none => .native n
  | .function c =>
    if count = c.literal.arity then .closure c else .refused (.functionArity c.literal.arity count)
  | v => .refused (.notCallable v.shape)

def run (host : Host) (invoke : Invoke) (scope : ScopeId) (span : Span) (args : List Value) :
    Dispatch → Execution Value
  | .native n => callNative host scope span n args
  | .closure c => invoke span c args
  | .refused cause => fail cause span

theorem of_closure {count : Nat} {v : Value} {c : Closure} (h : of count v = .closure c) :
    v = .function c := by
  cases v with
  | native n =>
    simp only [of] at h
    split at h
    · split at h <;> cases h
    · cases h
  | function c' =>
    simp only [of] at h
    split at h
    · cases h
      rfl
    · cases h
  | _ => cases h

/-- A call is refused for the number of its arguments or the type of its callee. -/
theorem of_refused_cases {count : Nat} {v : Value} {cause : Cause} (h : of count v = .refused cause) :
    (∃ name expected, cause = .nativeArity name expected count) ∨
      (∃ arity, cause = .functionArity arity count) ∨ ∃ shape, cause = .notCallable shape := by
  cases v with
  | native n =>
    simp only [of] at h
    split at h
    · split at h
      · cases h
      · cases h
        exact .inl ⟨_, _, rfl⟩
    · cases h
  | function c =>
    simp only [of] at h
    split at h
    · cases h
    · cases h
      exact .inr (.inl ⟨_, rfl⟩)
  | _ =>
    cases h
    exact .inr (.inr ⟨_, rfl⟩)

end Dispatch

theorem applyValue_eq (host : Host) (invoke : Invoke) (scope : ScopeId) (span : Span)
    (callee : Value) (args : List Value) :
    applyValue host invoke scope span callee args =
      (do poll; (Dispatch.of args.length callee).run host invoke scope span args) := by
  rw [applyValue.eq_def]
  refine bind_congr fun _ => ?_
  cases callee with
  | native n =>
    cases harity : n.arity with
    | none => simp only [Dispatch.of, harity, Dispatch.run]
    | some expected =>
      simp only [Dispatch.of, harity]
      split <;> rfl
  | function c =>
    simp only [Dispatch.of]
    split <;> rfl
  | _ => rfl

/-- Values that are not made by the run: they refer to no scope and to no loop stack. -/
def Value.isScalar : Value → Bool
  | .function _ | .loops _ => false
  | _ => true

theorem Primitive.binary_isScalar {p : Primitive} {a b v : Value} (h : p.binary a b = .ok v) :
    v.isScalar := by
  unfold Primitive.binary at h
  split at h
  · cases hn : p.arithmetic _ _ with
    | error e => rw [hn] at h; cases h
    | ok n => rw [hn] at h; cases h; rfl
  · split at h
    · cases h; rfl
    · cases h
  · cases h

theorem Primitive.write_cases (writer : Writer) (line : Bytes) (written : Array Bytes) :
    (writer written line = none ∧ write writer line written = ⟨[line], .ok .null⟩) ∨
      ∃ refusal, writer written line = some refusal ∧
        write writer line written = ⟨[refusal.taken], .error (.wrapped print.name refusal.reason)⟩ := by
  unfold write
  cases writer written line with
  | none => exact .inl ⟨rfl, rfl⟩
  | some refusal => exact .inr ⟨refusal, rfl, rfl⟩

theorem Primitive.call_isScalar {p : Primitive} {writer : Writer} {s : Store} {vs : List Value}
    {written : Array Bytes} {v : Value} (h : (p.call writer s vs written).result = .ok v) :
    v.isScalar := by
  unfold Primitive.call at h
  split at h
  · cases h; rfl
  · next x =>
    obtain ⟨-, heq⟩ | ⟨refusal, -, heq⟩ := write_cases writer (s.text x ++ [10]) written
    · rw [heq] at h; cases h; rfl
    · rw [heq] at h; cases h
  · next a b =>
    cases hb : p.binary a b with
    | ok v => rw [hb] at h; cases h; exact binary_isScalar hb
    | error c => rw [hb] at h; cases h
  · cases h

theorem primitivesOn_isScalar {writer : Writer} {n : Native} {s : Store} {scope : ScopeId}
    {vs : List Value} {written : Array Bytes} {v : Value}
    (h : (primitivesOn writer n s scope vs written).result = .ok v) : v.isScalar := by
  rw [primitivesOn] at h
  split at h
  · exact Primitive.call_isScalar h
  · cases h

theorem Primitive.ofNative?_eq_some_iff {n : Native} {p : Primitive} :
    ofNative? n = some p ↔ p.native = n := by
  constructor
  · intro h
    exact eq_of_beq (List.find?_some (p := fun p : Primitive => p.native == n) h)
  · rintro rfl
    cases p <;> decide

/-- What a primitive can have against its arguments. -/
inductive Primitive.Refuses : Primitive → Cause → Prop where
  | zero : Refuses .divide .divisionByZero
  | operands (p : Primitive) (a b : Shape) : Refuses p (.operands p.name a b)
  | count (p : Primitive) (got : Nat) : Refuses p (.nativeArity p.name p.arity got)

theorem Primitive.binary_refuses {p : Primitive} {a b : Value} {cause : Cause}
    (h : p.binary a b = .error cause) : p.Refuses cause := by
  unfold Primitive.binary at h
  split at h
  · cases p with
    | divide =>
      simp only [arithmetic] at h
      split at h <;> cases h
      exact .zero
    | add | subtract | multiply => cases h
    | not | print =>
      cases h
      exact .operands _ _ _
  · split at h <;> cases h
    exact .operands p _ _
  · cases h
    exact .operands p _ _

theorem Primitive.call_refuses {p : Primitive} {writer : Writer} {s : Store} {vs : List Value}
    {written : Array Bytes} {f : Failure} (h : (p.call writer s vs written).result = .error f) :
    (∃ cause, f = .diagnostic ⟨cause, .nowhere⟩ ∧ p.Refuses cause) ∨
      ∃ line refusal, writer written line = some refusal ∧ f = .wrapped print.name refusal.reason := by
  unfold Primitive.call at h
  split at h
  · cases h
  · next x =>
    obtain ⟨-, heq⟩ | ⟨refusal, hrefusal, heq⟩ := write_cases writer (s.text x ++ [10]) written
    · rw [heq] at h; cases h
    · rw [heq] at h
      cases h
      exact .inr ⟨_, refusal, hrefusal, rfl⟩
  · split at h
    · cases h
    · next hbinary =>
      cases h
      exact .inl ⟨_, rfl, binary_refuses hbinary⟩
  · cases h
    exact .inl ⟨_, rfl, .count p _⟩

/-- A diagnostic of the primitives has no place yet. -/
theorem primitives_refuses {n : Native} {s : Store} {scope : ScopeId} {vs : List Value}
    {written : Array Bytes} {f : Failure} {d : Diagnostic}
    (h : (primitives n s scope vs written).result = .error f) (hd : f.diagnostic? = some d) :
    d.span = .nowhere ∧ ∃ p : Primitive, p.Refuses d.cause := by
  rw [primitives, primitivesOn] at h
  split at h
  · next p _ =>
    obtain ⟨cause, rfl, hcause⟩ | ⟨line, refusal, hrefusal, -⟩ := Primitive.call_refuses h
    · cases hd
      exact ⟨rfl, p, hcause⟩
    · cases hrefusal
  · cases h
    cases hd

/-- Statements that a step runs whole. -/
def Stmt.isAtomic : Stmt → Bool
  | .branch _ _ _ _ | .times _ _ _ => false
  | .missing | .set _ _ _ | .call _ _ _ => true

theorem stepStmt_atomic {s : Stmt} (h : s.isAtomic) (host : Host) (invoke : Invoke)
    (scope : ScopeId) (loc : Location) :
    stepStmt host invoke scope loc s =
      (do return ⟨← evalStmt host invoke scope s, loc.past⟩) := by
  cases s with
  | branch | times => simp [Stmt.isAtomic] at h
  | missing | set | call => rw [stepStmt]

end Stepwise
