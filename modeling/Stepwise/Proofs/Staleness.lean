import Stepwise.Proofs.Frames

/-! Stale locations. Of all that can fail in a run, only the way down a location tells that the location
is stale; evaluation and the machine that moves from place to place never do, unless a native says so
in its answer. -/

namespace Stepwise

open Execution

def Failure.isStale (f : Failure) : Bool := f.diagnostic?.any fun d => d.cause.isStale

theorem Failure.isStale_placedAt (f : Failure) (span : Span) : (f.placedAt span).isStale = f.isStale := by
  rw [placedAt]
  split
  · next d hd =>
    split
    · simp [isStale, diagnostic?, hd]
    · rfl
  · rfl

/-- Some native answers that a location is stale. -/
def Host.RepliesStale (host : Host) : Prop :=
  ∃ n s scope args written f, (host n s scope args written).result = .error f ∧ f.isStale = true

theorem primitives_not_repliesStale : ¬ primitives.RepliesStale := by
  rintro ⟨n, s, scope, args, written, f, h, hstale⟩
  obtain ⟨⟨cause, span⟩, hd, hstale⟩ := (Option.any_eq_true _ _).mp hstale
  obtain ⟨-, p, hp⟩ := primitives_refuses h hd
  cases hp <;> cases hstale

namespace Execution

variable {α β : Type} {host : Host} {x : Execution α}

/-- Where the run fails with a stale location, a native has answered so. -/
def BlamesHost (host : Host) (x : Execution α) : Prop :=
  ∀ w f w', x w = .error f w' → f.isStale = true → host.RepliesStale

theorem BlamesHost.bind {f : α → Execution β} (hx : BlamesHost host x)
    (hf : ∀ a, BlamesHost host (f a)) : BlamesHost host (x >>= f) := by
  intro w e w' h hstale
  obtain h | ⟨a, w₁, -, h⟩ := bind_eq_error h
  · exact hx w e w' h hstale
  · exact hf a w₁ e w' h hstale

theorem blames_pure (a : α) : BlamesHost host (pure a : Execution α) := nofun

theorem blames_throw {f : Failure} (h : f.isStale = false) :
    BlamesHost host (throw f : Execution α) := by
  rintro w _ w' ⟨⟩ hstale
  rw [h] at hstale
  cases hstale

theorem blames_fail {cause : Cause} {span : Span} (h : cause.isStale = false) :
    BlamesHost host (fail cause span : Execution α) :=
  blames_throw h

theorem blames_poll : BlamesHost host poll := by
  rintro ⟨store, written, polls⟩ f w' h hstale
  cases polls with
  | zero =>
    cases h
    cases hstale
  | succ polls => cases h

theorem blames_lookup (scope : ScopeId) (s : Symbol) : BlamesHost host (lookup scope s) := by
  intro w f w' h hstale
  rw [lookup] at h
  split at h
  · cases h
  · cases h
    cases hstale

theorem blames_callNative (scope : ScopeId) (span : Span) (n : Native) (args : List Value) :
    BlamesHost host (callNative host scope span n args) := by
  intro w f w' h hstale
  simp only [callNative] at h
  split at h
  · cases h
  · next e he =>
    cases h
    rw [Failure.isStale_placedAt] at hstale
    exact ⟨n, w.store, scope, args, w.written, e, he, hstale⟩

end Execution

def Invoke.BlamesHost (host : Host) (invoke : Invoke) : Prop :=
  ∀ span c args, Execution.BlamesHost host (invoke span c args)

variable {host : Host} {invoke : Invoke}

theorem blames_compositional (host : Host) : Compositional fun _ => BlamesHost host where
  pure := blames_pure
  bind hx hf := hx.bind hf
  fail _ h := blames_fail h

theorem blames_executes (hinv : invoke.BlamesHost host) (scope : ScopeId) :
    Executes (fun _ => BlamesHost host) (fun _ => True) host invoke scope := by
  have hcomputes : Computes (fun _ => BlamesHost host) host invoke scope :=
    { blames_compositional host with
      poll := blames_poll
      lookup := blames_lookup scope
      makeClosure := fun _ => nofun
      callNative := blames_callNative scope
      invoke := hinv }
  exact { blames_compositional host with
    expr := hcomputes.evalExpr
    start := hcomputes.startLoop hcomputes.lookup
    assign := fun _ _ => nofun
    loop := fun frame last hbody =>
      hcomputes.loopFrom blames_poll (blames_throw rfl) nofun hbody frame last }

theorem invokeAt_blames (setting : Setting) (left : Nat) :
    (invokeAt setting left).BlamesHost setting.host := by
  induction left with
  | zero => exact fun span c args => blames_fail rfl
  | succ left ih =>
    intro span c args
    have hopen : BlamesHost setting.host (openScope c args) := nofun
    exact hopen.bind fun id => (blames_executes ih id).evalBlock c.literal.body fun _ _ => trivial

theorem advanceBlock_blames {scope : ScopeId} (hinv : invoke.BlamesHost host) (c : Spot)
    (b : Block) : BlamesHost host (advanceBlock (markLoops scope) host invoke scope c b) := by
  have hensure : BlamesHost host (LoopStack.ensure scope) := by
    intro w f w' h
    rw [LoopStack.ensure] at h
    split at h <;> cases h
  have hmark : BlamesHost host (markLoops scope) := (blames_compositional host).map hensure
  exact (blames_executes hinv scope).advanceBlock hmark c b fun _ _ => trivial

end Stepwise
