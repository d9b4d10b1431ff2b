import Stepwise.Proofs.Composition

/-! Runs that no one cancels. Polls are all that evaluation reads of the patience it is granted: a
run either comes to its end with polls to spare, and then more of them would not change it, or it is
refused one and stops there. So each run has one ending under endless patience, or none, and the
endings of a composed run are those of its parts. -/

namespace Stepwise

/-- A world without the patience granted to a run in it. -/
structure Memory where
  store : Store
  written : Array Bytes

def Memory.world (m : Memory) (polls : Nat) : World := ⟨m.store, m.written, polls⟩

namespace Execution

variable {α β : Type} {x : Execution α} {f : α → Execution β} {m m' m₁ m₂ : Memory} {used polls : Nat}

def reply : Except Failure α → World → EStateM.Result Failure World α
  | .ok a, w => .ok a w
  | .error e, w => .error e w

/-- The run ends so after a number of polls; those granted beyond them are left over. -/
def EndsIn (used : Nat) (x : Execution α) (m : Memory) (r : Except Failure α) (m' : Memory) : Prop :=
  ∀ spare, x (m.world (used + spare)) = reply r (m'.world spare)

/-- What the run comes to when nobody cancels it. -/
def Ends (x : Execution α) (m : Memory) (r : Except Failure α) (m' : Memory) : Prop :=
  ∃ used, EndsIn used x m r m'

def SteadyAt (x : Execution α) (m : Memory) (polls : Nat) : Prop :=
  (∃ used r m', used ≤ polls ∧ EndsIn used x m r m') ∨
    ∃ m' : Memory, x (m.world polls) = .error .canceled (m'.world 0)

/-- With the polls it is granted the run comes to its end, or it is refused one. -/
def Steady (x : Execution α) : Prop := ∀ m polls, SteadyAt x m polls

theorem reply_inj {r r' : Except Failure α} {w w' : World} (h : reply r w = reply r' w') :
    r = r' ∧ w = w' := by
  cases r <;> cases r' <;> cases h <;> exact ⟨rfl, rfl⟩

theorem world_inj {p p' : Nat} (h : m.world p = m'.world p') : m = m' ∧ p = p' := by
  obtain ⟨s, o⟩ := m
  obtain ⟨s', o'⟩ := m'
  cases h
  exact ⟨rfl, rfl⟩

theorem EndsIn.unique {used' : Nat} {r r' : Except Failure α} (h : EndsIn used x m r m')
    (h' : EndsIn used' x m r' m₁) : r = r' ∧ m' = m₁ ∧ used = used' := by
  have hs := h used'
  rw [Nat.add_comm, h' used] at hs
  obtain ⟨hr, hw⟩ := reply_inj hs
  obtain ⟨hm, hu⟩ := world_inj hw
  exact ⟨hr.symm, hm.symm, hu⟩

theorem Ends.unique {r r' : Except Failure α} (h : Ends x m r m') (h' : Ends x m r' m₁) :
    r = r' ∧ m' = m₁ := by
  obtain ⟨used, h⟩ := h
  obtain ⟨used', h'⟩ := h'
  have hh := h.unique h'
  exact ⟨hh.1, hh.2.1⟩

theorem SteadyAt.polls_le (h : SteadyAt x m polls) {r : Except Failure α} {left : Nat}
    (hx : x (m.world polls) = reply r (m'.world left)) : left ≤ polls := by
  obtain ⟨used, r', m₁, hle, hends⟩ | ⟨m₁, hc⟩ := h
  · have hs := hends (polls - used)
    rw [Nat.add_sub_cancel' hle, hx] at hs
    have := (world_inj (reply_inj hs).2).2
    omega
  · have hs : reply r (m'.world left) = reply (.error .canceled) (m₁.world 0) := hx.symm.trans hc
    have := (world_inj (reply_inj hs).2).2
    omega

theorem SteadyAt.endsIn (h : SteadyAt x m polls) {r : Except Failure α} {left : Nat}
    (hx : x (m.world polls) = reply r (m'.world (left + 1))) :
    ∃ used, used + (left + 1) = polls ∧ EndsIn used x m r m' := by
  obtain ⟨used, r', m₁, hle, hends⟩ | ⟨m₁, hc⟩ := h
  · have hs := hends (polls - used)
    rw [Nat.add_sub_cancel' hle, hx] at hs
    obtain ⟨hr, hw⟩ := reply_inj hs
    obtain ⟨hm, hp⟩ := world_inj hw
    subst hr hm
    exact ⟨used, by omega, hends⟩
  · have hs : reply r (m'.world (left + 1)) = reply (.error .canceled) (m₁.world 0) :=
      hx.symm.trans hc
    have := (world_inj (reply_inj hs).2).2
    omega

theorem SteadyAt.endsIn_of_ok (h : SteadyAt x m polls) {a : α} {w : World}
    (hx : x (m.world polls) = .ok a w) :
    ∃ used m', EndsIn used x m (.ok a) m' ∧ w = m'.world w.polls := by
  obtain ⟨used, r, m', hle, hends⟩ | ⟨m', hc⟩ := h
  · have hs := hends (polls - used)
    rw [Nat.add_sub_cancel' hle, hx] at hs
    have hs : reply (.ok a) w = reply r (m'.world (polls - used)) := hs
    obtain ⟨rfl, rfl⟩ := reply_inj hs
    exact ⟨used, m', hends, rfl⟩
  · rw [hx] at hc
    cases hc

theorem EndsIn.bind {used' : Nat} {a : α} {r : Except Failure β}
    (hx : EndsIn used x m (.ok a) m₁) (hf : EndsIn used' (f a) m₁ r m') :
    EndsIn (used + used') (x >>= f) m r m' := by
  intro spare
  rw [Nat.add_assoc, bind_ok (hx (used' + spare))]
  exact hf spare

theorem EndsIn.bind_error {e : Failure} (hx : EndsIn used x m (.error e) m') :
    EndsIn used (x >>= f) m (.error e) m' :=
  fun spare => Stepwise.bind_error (hx spare)

theorem SteadyAt.bind (hx : SteadyAt x m polls)
    (hf : ∀ used a m₁, used ≤ polls → EndsIn used x m (.ok a) m₁ →
      SteadyAt (f a) m₁ (polls - used)) : SteadyAt (x >>= f) m polls := by
  obtain ⟨used, r, m₁, hle, hends⟩ | ⟨m₁, hc⟩ := hx
  · cases r with
    | error e => exact .inl ⟨used, _, m₁, hle, hends.bind_error⟩
    | ok a =>
      obtain ⟨used', r', m₂, hle', hends'⟩ | ⟨m₂, hc⟩ := hf used a m₁ hle hends
      · exact .inl ⟨used + used', r', m₂, by omega, hends.bind hends'⟩
      · refine .inr ⟨m₂, ?_⟩
        have hs := hends (polls - used)
        rw [Nat.add_sub_cancel' hle] at hs
        rw [bind_ok hs, hc]
  · exact .inr ⟨m₁, bind_error hc⟩

theorem Steady.bind (hx : Steady x) (hf : ∀ a, Steady (f a)) : Steady (x >>= f) :=
  fun m polls => (hx m polls).bind fun _ a m₁ _ _ => hf a m₁ _

theorem endsIn_bind_iff {r : Except Failure β} (hx : Steady x) (hf : ∀ a, Steady (f a)) :
    EndsIn used (x >>= f) m r m' ↔
      (∃ used₁ used₂ a m₁, used = used₁ + used₂ ∧ EndsIn used₁ x m (.ok a) m₁ ∧
        EndsIn used₂ (f a) m₁ r m') ∨
      ∃ e, r = .error e ∧ EndsIn used x m (.error e) m' := by
  constructor
  · intro h
    have hone := h 1
    cases hr : x (m.world (used + 1)) with
    | error e w =>
      rw [bind_error hr] at hone
      have hone : reply (.error e) w = reply r (m'.world 1) := hone
      obtain ⟨rfl, rfl⟩ := reply_inj hone
      have hr : x (m.world (used + 1)) = reply (.error e) (m'.world (0 + 1)) := hr
      obtain ⟨used', hu, hends⟩ := (hx m (used + 1)).endsIn hr
      obtain rfl : used' = used := by omega
      exact .inr ⟨e, rfl, hends⟩
    | ok a w =>
      obtain ⟨store, written, p⟩ := w
      rw [bind_ok hr] at hone
      let m₁ : Memory := ⟨store, written⟩
      have hone : f a (m₁.world p) = reply r (m'.world (0 + 1)) := hone
      have hp : 1 ≤ p := (hf a m₁ p).polls_le hone
      obtain ⟨p, rfl⟩ : ∃ q, p = q + 1 := ⟨p - 1, by omega⟩
      have hr : x (m.world (used + 1)) = reply (.ok a) (m₁.world (p + 1)) := hr
      obtain ⟨used₁, hu₁, hends₁⟩ := (hx m (used + 1)).endsIn hr
      obtain ⟨used₂, hu₂, hends₂⟩ := (hf a m₁ (p + 1)).endsIn hone
      exact .inl ⟨used₁, used₂, a, m₁, by omega, hends₁, hends₂⟩
  · rintro (⟨used₁, used₂, a, m₁, rfl, hends, hends'⟩ | ⟨e, rfl, hends⟩)
    · exact hends.bind hends'
    · exact hends.bind_error

theorem ends_bind_iff {r : Except Failure β} (hx : Steady x) (hf : ∀ a, Steady (f a)) :
    Ends (x >>= f) m r m' ↔
      (∃ a m₁, Ends x m (.ok a) m₁ ∧ Ends (f a) m₁ r m') ∨
      ∃ e, r = .error e ∧ Ends x m (.error e) m' := by
  constructor
  · rintro ⟨used, h⟩
    obtain ⟨used₁, used₂, a, m₁, -, h₁, h₂⟩ | ⟨e, hr, h⟩ := (endsIn_bind_iff hx hf).mp h
    · exact .inl ⟨a, m₁, ⟨used₁, h₁⟩, ⟨used₂, h₂⟩⟩
    · exact .inr ⟨e, hr, ⟨used, h⟩⟩
  · rintro (⟨a, m₁, ⟨used₁, h₁⟩, ⟨used₂, h₂⟩⟩ | ⟨e, rfl, ⟨used, h⟩⟩)
    · exact ⟨used₁ + used₂, h₁.bind h₂⟩
    · exact ⟨used, h.bind_error⟩

def Instant (x : Execution α) : Prop :=
  ∀ m : Memory, ∃ r, ∃ m' : Memory, ∀ polls, x (m.world polls) = reply r (m'.world polls)

theorem Instant.steady (h : Instant x) : Steady x := by
  intro m polls
  obtain ⟨r, m', hx⟩ := h m
  exact .inl ⟨0, r, m', Nat.zero_le _, fun spare => by rw [Nat.zero_add]; exact hx spare⟩

theorem endsIn_pure (a : α) (m : Memory) : EndsIn 0 (pure a) m (.ok a) m :=
  fun spare => by rw [Nat.zero_add]; rfl

theorem ends_pure_iff {a : α} {r : Except Failure α} :
    Ends (pure a) m r m' ↔ r = .ok a ∧ m' = m := by
  constructor
  · intro h
    exact h.unique ⟨0, endsIn_pure a m⟩
  · rintro ⟨rfl, rfl⟩
    exact ⟨0, endsIn_pure a m'⟩

theorem endsIn_throw (e : Failure) (m : Memory) :
    EndsIn 0 (throw e : Execution α) m (.error e) m :=
  fun spare => by rw [Nat.zero_add]; rfl

theorem ends_fail_iff {cause : Cause} {span : Span} {r : Except Failure α} :
    Ends (fail cause span) m r m' ↔ r = .error (.diagnostic ⟨cause, span⟩) ∧ m' = m := by
  constructor
  · intro h
    exact h.unique ⟨0, endsIn_throw _ m⟩
  · rintro ⟨rfl, rfl⟩
    exact ⟨0, endsIn_throw _ m'⟩

theorem endsIn_poll (m : Memory) : EndsIn 1 poll m (.ok ()) m := by
  intro spare
  rw [Nat.add_comm]
  rfl

theorem ends_poll_iff {r : Except Failure Unit} : Ends poll m r m' ↔ r = .ok () ∧ m' = m := by
  constructor
  · intro h
    exact h.unique ⟨1, endsIn_poll m⟩
  · rintro ⟨rfl, rfl⟩
    exact ⟨1, endsIn_poll m'⟩

theorem instant_pure (a : α) : Instant (pure a : Execution α) := fun m => ⟨.ok a, m, fun _ => rfl⟩

theorem steady_pure (a : α) : Steady (pure a : Execution α) := (instant_pure a).steady

theorem instant_fail (cause : Cause) (span : Span) : Instant (fail cause span : Execution α) :=
  fun m => ⟨.error (.diagnostic ⟨cause, span⟩), m, fun _ => rfl⟩

theorem steady_fail (cause : Cause) (span : Span) : Steady (fail cause span : Execution α) :=
  (instant_fail cause span).steady

theorem steady_poll : Steady poll := by
  intro m polls
  cases polls with
  | zero => exact .inr ⟨m, rfl⟩
  | succ polls => exact .inl ⟨1, _, m, by omega, endsIn_poll m⟩

theorem ends_poll_bind_iff {x : Execution α} {r : Except Failure α} (hx : Steady x) :
    Ends (do poll; x) m r m' ↔ Ends x m r m' := by
  rw [ends_bind_iff steady_poll fun _ => hx]
  constructor
  · rintro (⟨_, m₁, hpoll, h⟩ | ⟨e, -, hpoll⟩)
    · obtain ⟨-, rfl⟩ := ends_poll_iff.mp hpoll
      exact h
    · obtain ⟨he, -⟩ := ends_poll_iff.mp hpoll
      cases he
  · exact fun h => .inl ⟨(), m, ends_poll_iff.mpr ⟨rfl, rfl⟩, h⟩

theorem Steady.map {g : α → β} (hx : Steady x) : Steady (g <$> x) := by
  rw [map_eq_pure_bind]
  exact hx.bind fun a => steady_pure _

theorem ends_map_ok_iff {g : α → β} {b : β} (hx : Steady x) :
    Ends (g <$> x) m (.ok b) m' ↔ ∃ a, b = g a ∧ Ends x m (.ok a) m' := by
  rw [map_eq_pure_bind, ends_bind_iff hx fun a => steady_pure _]
  constructor
  · rintro (⟨a, m₁, hends, hp⟩ | ⟨e, he, -⟩)
    · obtain ⟨hb, rfl⟩ := ends_pure_iff.mp hp
      cases hb
      exact ⟨a, rfl, hends⟩
    · cases he
  · rintro ⟨a, rfl, hends⟩
    exact .inl ⟨a, m', hends, ends_pure_iff.mpr ⟨rfl, rfl⟩⟩

theorem ends_map_error_iff {g : α → β} {e : Failure} (hx : Steady x) :
    Ends (g <$> x) m (.error e) m' ↔ Ends x m (.error e) m' := by
  rw [map_eq_pure_bind, ends_bind_iff hx fun a => steady_pure _]
  constructor
  · rintro (⟨a, m₁, hends, hp⟩ | ⟨e', he, h⟩)
    · obtain ⟨he, -⟩ := ends_pure_iff.mp hp
      cases he
    · cases he
      exact h
  · exact fun h => .inr ⟨e, rfl, h⟩

theorem instant_lookup (scope : ScopeId) (s : Symbol) : Instant (lookup scope s) := by
  intro m
  cases h : m.store.get? scope s.name with
  | some v => exact ⟨.ok v, m, fun _ => by simp only [lookup, Memory.world, h, reply]⟩
  | none => exact ⟨.error _, m, fun _ => by simp only [lookup, Memory.world, h, reply]; rfl⟩

theorem steady_lookup (scope : ScopeId) (s : Symbol) : Steady (lookup scope s) :=
  (instant_lookup scope s).steady

theorem instant_assign (scope : ScopeId) (name : Name) (v : Value) : Instant (assign scope name v) :=
  fun m => ⟨.ok (), ⟨m.store.set scope name v, m.written⟩, fun _ => rfl⟩

theorem steady_assign (scope : ScopeId) (name : Name) (v : Value) : Steady (assign scope name v) :=
  (instant_assign scope name v).steady

theorem instant_makeClosure (scope : ScopeId) (literal : Literal) : Instant (makeClosure scope literal) :=
  fun m => ⟨.ok (.function (m.store.closure literal scope)), ⟨m.store.countClosure, m.written⟩, fun _ => rfl⟩

theorem steady_makeClosure (scope : ScopeId) (literal : Literal) : Steady (makeClosure scope literal) :=
  (instant_makeClosure scope literal).steady

theorem instant_openScope (c : Closure) (args : List Value) : Instant (openScope c args) :=
  fun m => ⟨.ok m.store.nextScope,
    ⟨m.store.extend c.scope (.ofList (c.literal.paramNames.zip args)), m.written⟩, fun _ => rfl⟩

theorem steady_openScope (c : Closure) (args : List Value) : Steady (openScope c args) :=
  (instant_openScope c args).steady

theorem instant_callNative (host : Host) (scope : ScopeId) (span : Span) (n : Native)
    (args : List Value) : Instant (callNative host scope span n args) := by
  intro m
  let m' : Memory := ⟨m.store, m.written ++ (host n m.store scope args m.written).writes⟩
  cases h : (host n m.store scope args m.written).result with
  | ok v => exact ⟨.ok v, m', fun _ => by simp only [callNative, Memory.world, h, reply, m']⟩
  | error e =>
    exact ⟨.error (e.placedAt span), m', fun _ => by
      simp only [callNative, Memory.world, h, reply, m']⟩

theorem steady_callNative (host : Host) (scope : ScopeId) (span : Span) (n : Native)
    (args : List Value) : Steady (callNative host scope span n args) :=
  (instant_callNative host scope span n args).steady

end Execution

open Execution

variable {host : Host} {invoke : Invoke} {body : Execution Value}

/-- Rounds beyond the polls that are left do not matter. -/
theorem runLoop_rounds (hbody : Steady body) {a b : Nat} (m : Memory) (polls : Nat)
    (frame : LoopFrame) (last : Value) (ha : polls < a) (hb : polls < b) :
    runLoop body a frame last (m.world polls) = runLoop body b frame last (m.world polls) := by
  induction a generalizing b m polls frame last with
  | zero => omega
  | succ a ih =>
    obtain ⟨b, rfl⟩ : ∃ b', b = b' + 1 := ⟨b - 1, by omega⟩
    rw [runLoop, runLoop]
    split
    · rfl
    cases polls with
    | zero => rfl
    | succ polls =>
      have hpoll : poll (m.world (polls + 1)) = .ok () (m.world polls) := rfl
      rw [bind_ok hpoll, bind_ok hpoll]
      cases hr : body (m.world polls) with
      | error e w => rw [bind_error hr, bind_error hr]
      | ok v w =>
        obtain ⟨store, written, left⟩ := w
        have hr' : body (m.world polls) = reply (.ok v) (Memory.world ⟨store, written⟩ left) := hr
        have hle := (hbody m polls).polls_le hr'
        rw [bind_ok hr, bind_ok hr]
        exact ih ⟨store, written⟩ left frame.next v (by omega) (by omega)

theorem loopFrom_of_done {frame : LoopFrame} (h : frame.done = true) (last : Value) :
    loopFrom body frame last = pure last := by
  funext w
  rw [loopFrom, runLoop, if_pos h]

theorem loopFrom_of_not_done (hbody : Steady body) {frame : LoopFrame} (h : frame.done = false)
    (last : Value) :
    loopFrom body frame last = (do poll; let v ← body; loopFrom body frame.next v) := by
  funext w
  rw [loopFrom, runLoop, if_neg (by simp [h])]
  obtain ⟨store, written, polls⟩ := w
  let m : Memory := ⟨store, written⟩
  cases polls with
  | zero => rfl
  | succ polls =>
    have hpoll : poll (m.world (polls + 1)) = .ok () (m.world polls) := rfl
    change (poll >>= _) (m.world (polls + 1)) = (poll >>= _) (m.world (polls + 1))
    rw [bind_ok hpoll, bind_ok hpoll]
    cases hr : body (m.world polls) with
    | error e w => rw [bind_error hr, bind_error hr]
    | ok v w =>
      obtain ⟨store', written', left⟩ := w
      have hr' : body (m.world polls) = reply (.ok v) (Memory.world ⟨store', written'⟩ left) := hr
      have hle := (hbody m polls).polls_le hr'
      rw [bind_ok hr, bind_ok hr]
      have hrounds : left < polls + 1 := by omega
      exact runLoop_rounds hbody ⟨store', written'⟩ left frame.next v hrounds (Nat.lt_succ_self left)

theorem loopFrom_steady (hbody : Steady body) (frame : LoopFrame) (last : Value) :
    Steady (loopFrom body frame last) := by
  intro m polls
  -- every round takes a poll, so the polls bound the rounds
  induction polls using Nat.strongRecOn generalizing m frame last with
  | ind polls ih =>
    cases hd : frame.done with
    | true =>
      rw [loopFrom_of_done hd]
      exact steady_pure last m polls
    | false =>
      rw [loopFrom_of_not_done hbody hd]
      refine (steady_poll m polls).bind fun used _ m₁ hle hpoll => ?_
      obtain ⟨-, rfl, rfl⟩ := hpoll.unique (endsIn_poll m)
      refine (hbody m₁ (polls - 1)).bind fun used v m₂ hle' _ => ?_
      exact ih (polls - 1 - used) (by omega) frame.next v m₂

theorem endsIn_loopFrom_iff (hbody : Steady body) {frame : LoopFrame} (h : frame.done = false)
    {last : Value} {used : Nat} {m m' : Memory} {r : Except Failure Value} :
    EndsIn used (loopFrom body frame last) m r m' ↔
      (∃ round rest v m₁, used = 1 + (round + rest) ∧ EndsIn round body m (.ok v) m₁ ∧
        EndsIn rest (loopFrom body frame.next v) m₁ r m') ∨
      ∃ round e, used = 1 + round ∧ r = .error e ∧ EndsIn round body m (.error e) m' := by
  have hrest (v : Value) := loopFrom_steady hbody frame.next v
  rw [loopFrom_of_not_done hbody h, endsIn_bind_iff steady_poll fun _ => hbody.bind hrest]
  constructor
  · rintro (⟨one, used', _, m₁, rfl, hpoll, hround⟩ | ⟨e, -, hpoll⟩)
    · obtain ⟨-, rfl, rfl⟩ := hpoll.unique (endsIn_poll m)
      obtain ⟨round, rest, v, m₂, rfl, hv, hgo⟩ | ⟨e, rfl, he⟩ := (endsIn_bind_iff hbody hrest).mp hround
      · exact .inl ⟨round, rest, v, m₂, rfl, hv, hgo⟩
      · exact .inr ⟨used', e, rfl, rfl, he⟩
    · obtain ⟨hr, -⟩ := hpoll.unique (endsIn_poll m)
      cases hr
  · rintro (⟨round, rest, v, m₁, rfl, hv, hgo⟩ | ⟨round, e, rfl, rfl, he⟩)
    · exact .inl ⟨1, round + rest, (), m, rfl, endsIn_poll m, hv.bind hgo⟩
    · exact .inl ⟨1, round, (), m, rfl, endsIn_poll m, he.bind_error⟩

theorem steady_compositional : Compositional fun _ => Steady where
  pure := steady_pure
  bind hx hf := hx.bind hf
  fail span _ := steady_fail _ span

def Invoke.Steady (invoke : Invoke) : Prop :=
  ∀ span c args, Execution.Steady (invoke span c args)

theorem startLoop_steady (scope : ScopeId) (span : Span) (count : Expr) (block : Block) :
    Steady (startLoop host invoke scope span count block) :=
  steady_compositional.startLoop (steady_lookup scope) span count block

theorem evalExpr_steady (hinv : invoke.Steady) (scope : ScopeId) (e : Expr) :
    Steady (evalExpr host invoke scope e) := by
  have hcomputes : Computes (fun _ => Steady) host invoke scope :=
    { steady_compositional with
      poll := steady_poll
      lookup := steady_lookup scope
      makeClosure := steady_makeClosure scope
      callNative := steady_callNative host scope
      invoke := hinv }
  exact hcomputes.evalExpr e

theorem steady_executes (hinv : invoke.Steady) (scope : ScopeId) :
    Executes (fun _ => Steady) (fun _ => True) host invoke scope where
  toCompositional := steady_compositional
  expr := evalExpr_steady hinv scope
  start := startLoop_steady scope
  assign v _ := steady_assign scope _ v
  loop frame last hbody := loopFrom_steady hbody frame last

theorem evalStmt_steady (hinv : invoke.Steady) (scope : ScopeId) (s : Stmt) :
    Steady (evalStmt host invoke scope s) :=
  (steady_executes hinv scope).evalStmt s fun _ _ => trivial

theorem evalBlock_steady (hinv : invoke.Steady) (scope : ScopeId) (b : Block) :
    Steady (evalBlock host invoke scope b) :=
  (steady_executes hinv scope).evalBlock b fun _ _ => trivial

theorem evalBody_steady (hinv : invoke.Steady) (scope : ScopeId) (last : Value)
    (body : List Stmt) : Steady (evalBody host invoke scope last body) :=
  (steady_executes hinv scope).evalBody last body fun _ _ => trivial

theorem invokeAt_steady (setting : Setting) (left : Nat) : (invokeAt setting left).Steady := by
  induction left with
  | zero => exact fun span c args => steady_fail _ _
  | succ left ih =>
    intro span c args
    exact (steady_openScope c args).bind fun id => evalBlock_steady ih id c.literal.body

theorem ensure_steady (scope : ScopeId) : Steady (LoopStack.ensure scope) := by
  apply Instant.steady
  intro m
  cases h : m.store.loops? scope with
  | some ref => exact ⟨.ok ref, m, fun _ => by simp only [LoopStack.ensure, Memory.world, h]; rfl⟩
  | none =>
    let store := (m.store.addStack []).set scope loopBinding (.loops m.store.nextStack)
    exact ⟨.ok m.store.nextStack, ⟨store, m.written⟩, fun _ => by
      simp only [LoopStack.ensure, Memory.world, h]; rfl⟩

theorem push_steady (ref : Nat) (frame : LoopFrame) : Steady (LoopStack.push ref frame) :=
  Instant.steady fun m => ⟨.ok (), ⟨m.store.setStack ref (frame :: m.store.stack ref), m.written⟩,
    fun _ => rfl⟩

theorem pop?_steady (ref : Nat) : Steady (LoopStack.pop? ref) := by
  apply Instant.steady
  intro m
  cases h : m.store.stack ref with
  | nil => exact ⟨.ok none, m, fun _ => by simp only [LoopStack.pop?, Memory.world, h]; rfl⟩
  | cons frame frames =>
    exact ⟨.ok (some frame), ⟨m.store.setStack ref frames, m.written⟩, fun _ => by
      simp only [LoopStack.pop?, Memory.world, h]; rfl⟩

theorem takeFrame_steady (scope : ScopeId) (span : Span) (loc : Location)
    (entered : Option LoopFrame) : Steady (takeFrame scope span loc entered) := by
  refine (ensure_steady scope).bind fun ref => ?_
  cases entered with
  | some frame => exact steady_pure _
  | none =>
    refine (pop?_steady ref).bind fun top => ?_
    cases top with
    | some frame => exact steady_pure _
    | none => exact steady_fail _ _

theorem resumeLoop_steady (ref : Nat) (frame : LoopFrame) (loc : Location) (s : Stepped) :
    Steady (resumeLoop ref frame loc s) := by
  rw [resumeLoop]
  split
  · exact (push_steady ref frame).bind fun _ => steady_pure _
  · split
    · exact steady_pure _
    · exact (push_steady ref frame.next).bind fun _ => steady_pure _

theorem enterBranch_steady (hinv : invoke.Steady) (scope : ScopeId) (condition : Expr)
    (path : Location) : Steady (enterBranch host invoke scope condition path) := by
  rw [enterBranch]
  split
  · exact (evalExpr_steady hinv scope condition).bind fun v => steady_pure _
  · exact steady_pure _

mutual

theorem stepStmt_steady (hinv : invoke.Steady) (scope : ScopeId) (loc : Location) (s : Stmt) :
    Steady (stepStmt host invoke scope loc s) := by
  cases s with
  | missing | set | call =>
    rw [stepStmt_atomic rfl]
    exact (evalStmt_steady hinv scope _).bind fun v => steady_pure _
  | branch sp condition thenBlock elseBlock =>
    rw [stepStmt]
    split
    · exact steady_fail _ _
    refine (enterBranch_steady hinv scope condition loc.below).bind fun path => ?_
    split
    · exact (stepBlock_steady hinv scope path thenBlock).bind fun s => steady_pure _
    split
    · split
      · exact steady_pure _
      · exact (stepBlock_steady hinv scope path elseBlock).bind fun s => steady_pure _
    · exact steady_fail _ _
  | times sp count body =>
    rw [stepStmt]
    split
    · exact steady_fail _ _
    split
    · refine (startLoop_steady scope sp count body).bind fun frame => ?_
      split
      · exact steady_pure _
      refine (takeFrame_steady scope sp loc _).bind fun taken => ?_
      exact (stepBlock_steady hinv scope _ body).bind fun s => resumeLoop_steady _ _ _ s
    split
    · exact steady_fail _ _
    · refine (takeFrame_steady scope sp loc none).bind fun taken => ?_
      exact (stepBlock_steady hinv scope _ body).bind fun s => resumeLoop_steady _ _ _ s

theorem stepBlock_steady (hinv : invoke.Steady) (scope : ScopeId) (loc : Location) (b : Block) :
    Steady (stepBlock host invoke scope loc b) := by
  cases b with
  | missing => exact steady_pure _
  | of sp body =>
    rw [stepBlock]
    split
    · exact steady_fail _ _
    · exact stepAt_steady hinv scope loc _ _ body

theorem stepAt_steady (hinv : invoke.Steady) (scope : ScopeId) (loc : Location) (count skip : Nat)
    (body : List Stmt) : Steady (stepAt host invoke scope loc count skip body) := by
  cases body with
  | nil => cases skip <;> exact steady_pure _
  | cons s rest =>
    cases skip with
    | zero =>
      rw [stepAt]
      refine (stepStmt_steady hinv scope loc.below s).bind fun r => ?_
      split
      · exact steady_pure _
      · exact steady_pure _
    | succ skip =>
      rw [stepAt]
      exact stepAt_steady hinv scope loc count skip rest

end

end Stepwise
