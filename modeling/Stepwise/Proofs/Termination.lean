import Stepwise.Proofs.Equivalence
import Stepwise.Proofs.Keeping

/-! Runs without endless loops come to an end. Calls nest no deeper than the limit, what a body runs is
a part of it, and the frame of a loop with a count has fewer rounds left after each of them. -/

namespace Stepwise

open Execution

namespace LoopFrame

/-- The rounds that a loop with a count has left. A frame that is done is taken to have more than any
other, as its next round could only be one whose count has wrapped around. -/
def left (f : LoopFrame) : Nat :=
  if f.iteration < f.bound then (f.bound.toInt - f.iteration.toInt).toNat else 2 ^ 64

theorem left_next_lt {f : LoopFrame} (hf : f.forever = false) (hd : f.next.done = false) :
    f.next.left < f.left := by
  have hlt : f.next.iteration < f.next.bound := lt_of_not_done hf hd
  have hmin := f.next.iteration.le_toInt
  have hmax := f.bound.toInt_lt
  have hlow := f.iteration.le_toInt
  rw [left, left, if_pos hlt]
  rw [Int64.lt_iff_toInt_lt] at hlt
  have hbound : f.next.bound = f.bound := rfl
  rw [hbound] at hlt ⊢
  split
  · next hrunning =>
    rw [Int64.lt_iff_toInt_lt] at hrunning
    have hnext : f.next.iteration.toInt = f.iteration.toInt + 1 := by
      simp only [LoopFrame.next, Int64.toInt_add, Int64.toInt_one]
      exact Int.bmod_eq_of_le (by omega) (by omega)
    omega
  · omega

end LoopFrame

namespace Execution

variable {α β : Type} {x : Execution α} {f : α → Execution β} {m : Memory}

/-- The run comes to an end, if nobody cancels it. -/
def HaltsAt (x : Execution α) (m : Memory) : Prop := ∃ r m', x.Ends m r m'

theorem HaltsAt.bind (hx : HaltsAt x m)
    (hf : ∀ a m₁, x.Ends m (.ok a) m₁ → HaltsAt (f a) m₁) : HaltsAt (x >>= f) m := by
  obtain ⟨result, m₁, used, hends⟩ := hx
  cases result with
  | error e => exact ⟨.error e, m₁, used, hends.bind_error⟩
  | ok a =>
    obtain ⟨r, m', used', hends'⟩ := hf a m₁ ⟨used, hends⟩
    exact ⟨r, m', used + used', hends.bind hends'⟩

/-- A run that makes no polls comes to its end. -/
theorem Steady.haltsAt (hx : Steady x) (hpolls : (x.after (m.world 1)).polls = 1) : HaltsAt x m := by
  cases h : x (m.world 1) with
  | ok a w =>
    obtain ⟨store, written, polls⟩ := w
    rw [after_ok h] at hpolls
    cases hpolls
    have hreply : x (m.world 1) = reply (.ok a) (Memory.world ⟨store, written⟩ (0 + 1)) := h
    obtain ⟨used, -, hends⟩ := (hx m 1).endsIn hreply
    exact ⟨_, _, used, hends⟩
  | error e w =>
    obtain ⟨store, written, polls⟩ := w
    rw [after_error h] at hpolls
    cases hpolls
    have hreply : x (m.world 1) = reply (.error e) (Memory.world ⟨store, written⟩ (0 + 1)) := h
    obtain ⟨used, -, hends⟩ := (hx m 1).endsIn hreply
    exact ⟨_, _, used, hends⟩

variable {r : Realm} {P : α → Prop} {Q : β → Prop}

theorem Keeps.ends (hx : Keeps r P x) (hm : r.Upholds m.store) {a : α} {m' : Memory}
    (h : x.Ends m (.ok a) m') : r.Upholds m'.store ∧ P a := by
  obtain ⟨used, h⟩ := h
  have h : x (m.world used) = .ok a (m'.world 0) := h 0
  obtain ⟨hafter, hok, -⟩ := hx (m.world used) hm
  rw [after_ok h] at hafter
  exact ⟨hafter, hok a _ h⟩

/-- Started in order, the run keeps to its terms and comes to an end. -/
def Halts (r : Realm) (P : α → Prop) (x : Execution α) : Prop :=
  Keeps r P x ∧ ∀ m : Memory, r.Upholds m.store → HaltsAt x m

theorem Halts.bind (hx : Halts r P x) (hf : ∀ a, P a → Halts r Q (f a)) : Halts r Q (x >>= f) := by
  refine ⟨hx.1.bind fun a ha => (hf a ha).1, fun m hm => (hx.2 m hm).bind fun a m₁ hends => ?_⟩
  obtain ⟨hm₁, ha⟩ := hx.1.ends hm hends
  exact (hf a ha).2 m₁ hm₁

theorem Keeps.halts (hx : Keeps r P x) (hsteady : Steady x)
    (hpolls : ∀ m : Memory, (x.after (m.world 1)).polls = 1) : Halts r P x :=
  ⟨hx, fun m _ => hsteady.haltsAt (hpolls m)⟩

theorem halts_loopFrom {body : Execution Value} (hsteady : Steady body)
    (hbody : Halts r r.Admits body) {frame : LoopFrame} (hframe : frame.forever = false)
    {last : Value} (hlast : r.Admits last) : Halts r r.Admits (loopFrom body frame last) := by
  refine ⟨keeps_loopFrom hbody.1 frame hlast, fun m hm => ?_⟩
  -- every round leaves the frame with fewer rounds
  induction hleft : frame.left using Nat.strongRecOn generalizing frame last m with
  | ind n ih =>
    cases hd : frame.done with
    | true =>
      rw [loopFrom_of_done hd]
      exact ⟨_, _, ends_pure_iff.mpr ⟨rfl, rfl⟩⟩
    | false =>
      rw [loopFrom_of_not_done hsteady hd]
      refine HaltsAt.bind ⟨_, _, 1, endsIn_poll m⟩ fun _ m₁ hpoll => ?_
      obtain ⟨-, rfl⟩ := ends_poll_iff.mp hpoll
      refine (hbody.2 m₁ hm).bind fun v m₂ hends => ?_
      obtain ⟨hm₂, hv⟩ := hbody.1.ends hm hends
      cases hnext : frame.next.done with
      | true =>
        rw [loopFrom_of_done hnext]
        exact ⟨_, _, ends_pure_iff.mpr ⟨rfl, rfl⟩⟩
      | false =>
        have hlt : frame.next.left < n := by
          rw [← hleft]
          exact LoopFrame.left_next_lt hframe hnext
        have hcounted : frame.next.forever = false := hframe
        exact ih frame.next.left hlt hcounted hv m₂ hm₂ rfl

theorem polls_lookup (scope : ScopeId) (s : Symbol) (w : World) :
    ((lookup scope s).after w).polls = w.polls := by
  simp only [after, lookup]
  cases w.store.get? scope s.name <;> rfl

theorem polls_callNative (host : Host) (scope : ScopeId) (span : Span) (n : Native)
    (args : List Value) (w : World) : ((callNative host scope span n args).after w).polls = w.polls := by
  simp only [after, callNative]
  cases (host n w.store scope args w.written).result <;> rfl

theorem polls_ensure (scope : ScopeId) (w : World) :
    ((LoopStack.ensure scope).after w).polls = w.polls := by
  simp only [after, LoopStack.ensure]
  cases w.store.loops? scope <;> rfl

theorem polls_pop? (ref : Nat) (w : World) : ((LoopStack.pop? ref).after w).polls = w.polls := by
  simp only [after, LoopStack.pop?]
  cases w.store.stack ref <;> rfl

end Execution

/-- Where no loop is endless, every run comes to an end. -/
theorem Host.Keeps.halts {r : Realm} {host : Host} (hhost : host.Keeps r) (hfinite : ¬ r.terms.endless) :
    r.Judges host fun _ => Execution.Halts r := by
  have hkeeps := hhost.judges
  constructor
  case pure => exact fun h => ⟨hkeeps.pure h, fun m _ => ⟨_, _, ends_pure_iff.mpr ⟨rfl, rfl⟩⟩⟩
  case bind => exact fun hx hf => hx.bind hf
  case fail => exact fun h => ⟨hkeeps.fail h, fun m _ => ⟨_, _, ends_fail_iff.mpr ⟨rfl, rfl⟩⟩⟩
  case poll => exact ⟨hkeeps.poll, fun m _ => ⟨_, _, 1, endsIn_poll m⟩⟩
  case lookup =>
    exact fun hscope s hs => (hkeeps.lookup hscope hs).halts (steady_lookup _ s) fun m =>
      polls_lookup _ s (m.world 1)
  case assign =>
    exact fun hv scope name => (hkeeps.assign hv scope name).halts (steady_assign _ _ _) fun _ => rfl
  case makeClosure =>
    exact fun hscope hbody => (hkeeps.makeClosure hscope hbody).halts (steady_makeClosure _ _)
      fun _ => rfl
  case callNative =>
    exact fun hscope hargs span hspan n => (hkeeps.callNative hscope hargs hspan n).halts
      (steady_callNative _ _ _ _ _) fun m => polls_callNative _ _ span n _ (m.world 1)
  case openScope =>
    exact fun hc hargs => (hkeeps.openScope hc hargs).halts (steady_openScope _ _) fun _ => rfl
  case loop =>
    intro body frame last hsteady hbody hframe hlast
    refine halts_loopFrom hsteady hbody ?_ hlast
    exact Bool.eq_false_iff.mpr fun hforever => hfinite (hframe hforever)
  case ensure =>
    exact fun hscope => (hkeeps.ensure hscope).halts (ensure_steady _) fun m =>
      polls_ensure _ (m.world 1)
  case push =>
    exact fun href hframe => (hkeeps.push href hframe).halts (push_steady _ _) fun _ => rfl
  case pop? =>
    exact fun href => (hkeeps.pop? href).halts (pop?_steady _) fun m => polls_pop? _ (m.world 1)
  case guarded =>
    intro scope Q x hscope hx
    refine ⟨hkeeps.guarded hscope hx.1, fun m hm => ?_⟩
    obtain ⟨res, m', used, hends⟩ := hx.2 m hm
    exact ⟨_, _, used, endsIn_guarded hends⟩

end Stepwise
