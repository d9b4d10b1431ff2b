import Stepwise.Proofs.Patience

/-! Machines that run in steps. A step yields a value and the place of the next one, or it leaves the
machine; a run is over when a step leaves or fails. A machine that works inside another one, place
for place, runs as a part of its runs. -/

namespace Stepwise

/-- The value of a step and the place of the next one; with none the machine has been left. -/
structure Moved (κ : Type) where
  value : Value
  next : Option κ

namespace Moved

variable {κ κ' : Type}

/-- A step of an inner machine as one of the outer: its places lie `into` the outer one, and leaving
it is `leave`. -/
def within (into : κ → κ') (leave : Value → Moved κ') (s : Moved κ) : Moved κ' :=
  match s.next with
  | some c => ⟨s.value, some (into c)⟩
  | none => leave s.value

end Moved

open Execution

section

variable {κ κ' : Type} (step : κ → Execution (Moved κ))

/-- After a first move the machine comes to an end in `n` successful steps, the first one counted;
a step that fails is an end too. No step is canceled. -/
def Finishes : (n : Nat) → Execution (Moved κ) → Memory → Except Failure Value → Memory → Prop
  | 0, x, m, r, m' => ∃ f, r = .error f ∧ x.Ends m (.error f) m'
  | n + 1, x, m, r, m' => ∃ s m₁, x.Ends m (.ok s) m₁ ∧
    match s.next with
    | none => n = 0 ∧ r = .ok s.value ∧ m' = m₁
    | some c => Finishes n (step c) m₁ r m'

/-- What follows a step: the end of the run, or the run from the next place. -/
def Follows (n : Nat) (s : Moved κ) (m : Memory) (r : Except Failure Value) (m' : Memory) : Prop :=
  match s.next with
  | none => n = 0 ∧ r = .ok s.value ∧ m' = m
  | some c => Finishes step n (step c) m r m'

def Completes (x : Execution (Moved κ)) (m : Memory) (r : Except Failure Value) (m' : Memory) :
    Prop :=
  ∃ n, Finishes step n x m r m'

variable {step} {x : Execution (Moved κ)} {m m' : Memory} {r : Except Failure Value} {n : Nat}

theorem finishes_succ_iff :
    Finishes step (n + 1) x m r m' ↔ ∃ s m₁, x.Ends m (.ok s) m₁ ∧ Follows step n s m₁ r m' := Iff.rfl

theorem finishes_pure_iff {s : Moved κ} :
    Finishes step n (pure s) m r m' ↔ ∃ k, n = k + 1 ∧ Follows step k s m r m' := by
  cases n with
  | zero =>
    constructor
    · rintro ⟨f, rfl, h⟩
      obtain ⟨hr, -⟩ := ends_pure_iff.mp h
      cases hr
    · rintro ⟨k, hk, -⟩
      omega
  | succ n =>
    rw [finishes_succ_iff]
    constructor
    · rintro ⟨s', m₁, h, hf⟩
      obtain ⟨hr, rfl⟩ := ends_pure_iff.mp h
      cases hr
      exact ⟨n, rfl, hf⟩
    · rintro ⟨k, hk, hf⟩
      obtain rfl : n = k := by omega
      exact ⟨s, m, ends_pure_iff.mpr ⟨rfl, rfl⟩, hf⟩

/-- What is run before the first step of a machine adds nothing to its count. -/
theorem finishes_bind_iff {α : Type} {y : Execution α} {f : α → Execution (Moved κ)}
    (hy : Steady y) (hf : ∀ a, Steady (f a)) :
    Finishes step n (y >>= f) m r m' ↔
      (∃ a m₁, y.Ends m (.ok a) m₁ ∧ Finishes step n (f a) m₁ r m') ∨
      ∃ e, n = 0 ∧ r = .error e ∧ y.Ends m (.error e) m' := by
  cases n with
  | zero =>
    constructor
    · rintro ⟨e, rfl, h⟩
      obtain ⟨a, m₁, ha, h⟩ | ⟨e', he, h⟩ := (ends_bind_iff hy hf).mp h
      · exact .inl ⟨a, m₁, ha, e, rfl, h⟩
      · cases he
        exact .inr ⟨e, rfl, rfl, h⟩
    · rintro (⟨a, m₁, ha, e, rfl, h⟩ | ⟨e, -, rfl, h⟩)
      · exact ⟨e, rfl, (ends_bind_iff hy hf).mpr (.inl ⟨a, m₁, ha, h⟩)⟩
      · exact ⟨e, rfl, (ends_bind_iff hy hf).mpr (.inr ⟨e, rfl, h⟩)⟩
  | succ n =>
    simp only [finishes_succ_iff]
    constructor
    · rintro ⟨s, m₁, h, hs⟩
      obtain ⟨a, m₂, ha, h⟩ | ⟨e, he, -⟩ := (ends_bind_iff hy hf).mp h
      · exact .inl ⟨a, m₂, ha, s, m₁, h, hs⟩
      · cases he
    · rintro (⟨a, m₂, ha, s, m₁, h, hs⟩ | ⟨e, hn, -⟩)
      · exact ⟨s, m₁, (ends_bind_iff hy hf).mpr (.inl ⟨a, m₂, ha, h⟩), hs⟩
      · omega

theorem follows_none_iff {v : Value} :
    Follows step n ⟨v, none⟩ m r m' ↔ n = 0 ∧ r = .ok v ∧ m' = m := Iff.rfl

theorem completes_pure_iff {s : Moved κ} :
    Completes step (pure s) m r m' ↔ ∃ n, Follows step n s m r m' := by
  simp only [Completes, finishes_pure_iff]
  exact ⟨fun ⟨_, k, _, h⟩ => ⟨k, h⟩, fun ⟨k, h⟩ => ⟨k + 1, k, rfl, h⟩⟩

theorem completes_bind_iff {α : Type} {y : Execution α} {f : α → Execution (Moved κ)}
    (hy : Steady y) (hf : ∀ a, Steady (f a)) :
    Completes step (y >>= f) m r m' ↔
      (∃ a m₁, y.Ends m (.ok a) m₁ ∧ Completes step (f a) m₁ r m') ∨
      ∃ e, r = .error e ∧ y.Ends m (.error e) m' := by
  simp only [Completes, finishes_bind_iff hy hf]
  constructor
  · rintro ⟨n, ⟨a, m₁, ha, h⟩ | ⟨e, -, hr, h⟩⟩
    · exact .inl ⟨a, m₁, ha, n, h⟩
    · exact .inr ⟨e, hr, h⟩
  · rintro (⟨a, m₁, ha, n, h⟩ | ⟨e, hr, h⟩)
    · exact ⟨n, .inl ⟨a, m₁, ha, h⟩⟩
    · exact ⟨0, .inr ⟨e, rfl, hr, h⟩⟩

theorem completes_leave_iff {y : Execution Value} (hy : Steady y) :
    Completes step ((fun v => ⟨v, none⟩) <$> y) m r m' ↔ y.Ends m r m' := by
  rw [map_eq_pure_bind, completes_bind_iff hy fun v => steady_pure _]
  constructor
  · rintro (⟨v, m₁, h, h'⟩ | ⟨e, rfl, h⟩)
    · obtain ⟨n, -, rfl, rfl⟩ := completes_pure_iff.mp h'
      exact h
    · exact h
  · intro h
    cases r with
    | ok v => exact .inl ⟨v, m', h, completes_pure_iff.mpr ⟨0, rfl, rfl, rfl⟩⟩
    | error e => exact .inr ⟨e, rfl, h⟩

theorem completes_bind_congr {α : Type} {y : Execution α} {f : α → Execution (Moved κ)}
    {g : α → Execution Value} (hy : Steady y) (hf : ∀ a, Steady (f a)) (hg : ∀ a, Steady (g a))
    (h : ∀ a m, Completes step (f a) m r m' ↔ (g a).Ends m r m') :
    Completes step (y >>= f) m r m' ↔ (y >>= g).Ends m r m' := by
  simp only [completes_bind_iff hy hf, ends_bind_iff hy hg, h]

theorem completes_fail_iff {cause : Cause} {span : Span} :
    Completes step (fail cause span) m r m' ↔
      (fail cause span : Execution Value).Ends m r m' := by
  rw [ends_fail_iff]
  constructor
  · rintro ⟨n, h⟩
    cases n with
    | zero =>
      obtain ⟨f, rfl, h⟩ := h
      obtain ⟨hf, hm⟩ := ends_fail_iff.mp h
      cases hf
      exact ⟨rfl, hm⟩
    | succ n =>
      obtain ⟨s, m₁, h, -⟩ := h
      obtain ⟨hf, -⟩ := ends_fail_iff.mp h
      cases hf
  · rintro ⟨rfl, rfl⟩
    exact ⟨0, _, rfl, ends_fail_iff.mpr ⟨rfl, rfl⟩⟩

end

section Within

variable {κ κ' : Type} {inner : κ → Execution (Moved κ)} {outer : κ' → Execution (Moved κ')}
  {into : κ → κ'} {leave : Value → Moved κ'}

/-- What follows a step in the outer machine, when runs from the next places on are as they should. -/
theorem follows_within_iff {n : Nat} {s : Moved κ} {m m' : Memory} {r : Except Failure Value}
    (hrest : ∀ c, Finishes outer n (outer (into c)) m r m' ↔
      (∃ k j v m₁, n = k + j ∧ Finishes inner k (inner c) m (.ok v) m₁ ∧
        Follows outer j (leave v) m₁ r m') ∨
      ∃ f, r = .error f ∧ Finishes inner n (inner c) m (.error f) m') :
    Follows outer n (s.within into leave) m r m' ↔
      (∃ k j v m₁, n = k + j ∧ Follows inner k s m (.ok v) m₁ ∧ Follows outer j (leave v) m₁ r m') ∨
      ∃ f, r = .error f ∧ Follows inner n s m (.error f) m' := by
  obtain ⟨value, _ | c⟩ := s
  · constructor
    · intro h
      exact .inl ⟨0, n, value, m, (Nat.zero_add n).symm, ⟨rfl, rfl, rfl⟩, h⟩
    · rintro (⟨k, j, v, m₁, hn, ⟨rfl, hv, rfl⟩, h⟩ | ⟨f, -, -, hf, -⟩)
      · cases hv
        obtain rfl : n = j := by omega
        exact h
      · cases hf
  · exact hrest c

/-- A run of an inner machine, and what follows it, is a run of the outer one. -/
theorem finishes_within_iff (hinner : ∀ c, Steady (inner c))
    (hstep : ∀ c, outer (into c) = Moved.within into leave <$> inner c) {n : Nat}
    {x : Execution (Moved κ)} (hx : Steady x) {m m' : Memory} {r : Except Failure Value} :
    Finishes outer n (Moved.within into leave <$> x) m r m' ↔
      (∃ k j v m₁, n = k + j ∧ Finishes inner k x m (.ok v) m₁ ∧ Follows outer j (leave v) m₁ r m') ∨
      ∃ f, r = .error f ∧ Finishes inner n x m (.error f) m' := by
  -- on the steps of the outer run, of which each is one of the inner run until that is over
  induction n generalizing x m with
  | zero =>
    constructor
    · rintro ⟨f, rfl, h⟩
      exact .inr ⟨f, rfl, f, rfl, (ends_map_error_iff hx).mp h⟩
    · rintro (⟨k, j, v, m₁, hn, h, -⟩ | ⟨f, rfl, f', hf, h⟩)
      · obtain rfl : k = 0 := by omega
        obtain ⟨f, hf, -⟩ := h
        cases hf
      · cases hf
        exact ⟨f, rfl, (ends_map_error_iff hx).mpr h⟩
  | succ n ih =>
    have hrest (c : κ) (m₁ : Memory) := ih (hinner c) (m := m₁)
    simp only [← hstep] at hrest
    have hfollows (s : Moved κ) (m₁ : Memory) := follows_within_iff (s := s) (hrest · m₁)
    rw [finishes_succ_iff]
    constructor
    · rintro ⟨s', m₁, h, hs'⟩
      obtain ⟨s, rfl, hs⟩ := (ends_map_ok_iff hx).mp h
      obtain ⟨k, j, v, m₂, hn, hk, hj⟩ | ⟨f, rfl, hk⟩ := (hfollows s m₁).mp hs'
      · exact .inl ⟨k + 1, j, v, m₂, by omega, ⟨s, m₁, hs, hk⟩, hj⟩
      · exact .inr ⟨f, rfl, s, m₁, hs, hk⟩
    · rintro (⟨k, j, v, m₂, hn, hk, hj⟩ | ⟨f, rfl, s, m₁, hs, hk⟩)
      · cases k with
        | zero =>
          obtain ⟨f, hf, -⟩ := hk
          cases hf
        | succ k =>
          obtain ⟨s, m₁, hs, hk⟩ := hk
          exact ⟨_, m₁, (ends_map_ok_iff hx).mpr ⟨s, rfl, hs⟩,
            (hfollows s m₁).mpr (.inl ⟨k, j, v, m₂, by omega, hk, hj⟩)⟩
      · exact ⟨_, m₁, (ends_map_ok_iff hx).mpr ⟨s, rfl, hs⟩,
          (hfollows s m₁).mpr (.inr ⟨f, rfl, hk⟩)⟩

theorem completes_within_iff (hinner : ∀ c, Steady (inner c))
    (hstep : ∀ c, outer (into c) = Moved.within into leave <$> inner c)
    {x : Execution (Moved κ)} (hx : Steady x) {m m' : Memory} {r : Except Failure Value} :
    Completes outer (Moved.within into leave <$> x) m r m' ↔
      (∃ v m₁, Completes inner x m (.ok v) m₁ ∧ ∃ j, Follows outer j (leave v) m₁ r m') ∨
      ∃ f, r = .error f ∧ Completes inner x m (.error f) m' := by
  constructor
  · rintro ⟨n, h⟩
    obtain ⟨k, j, v, m₁, -, hk, hj⟩ | ⟨f, hr, hk⟩ := (finishes_within_iff hinner hstep hx).mp h
    · exact .inl ⟨v, m₁, ⟨k, hk⟩, j, hj⟩
    · exact .inr ⟨f, hr, n, hk⟩
  · rintro (⟨v, m₁, ⟨k, hk⟩, j, hj⟩ | ⟨f, hr, n, hk⟩)
    · exact ⟨k + j, (finishes_within_iff hinner hstep hx).mpr (.inl ⟨k, j, v, m₁, rfl, hk, hj⟩)⟩
    · exact ⟨n, (finishes_within_iff hinner hstep hx).mpr (.inr ⟨f, hr, hk⟩)⟩

end Within

end Stepwise
