import Stepwise.Proofs.Equivalence
import Stepwise.Proofs.Itinerary
import Stepwise.Proofs.Rollback
import Stepwise.Proofs.Staleness

/-! A session keeps its location and the loop stack of its scope in agreement. Whatever is done with
it, the location is a place in its program, and the frames on the stack are those of the loops around
that place. -/

namespace Stepwise

open Execution

namespace Store

variable {scope : ScopeId} {s t : Store} {ref : Nat}

def withoutFrames (s : Store) (scope : ScopeId) : Store :=
  match s.loops? scope with
  | some ref => s.setStack ref []
  | none => s

theorem scopes_withoutFrames (s : Store) (scope : ScopeId) :
    (s.withoutFrames scope).scopes = s.scopes := by
  rw [withoutFrames]
  split <;> rfl

theorem loops?_withoutFrames (s : Store) (scope : ScopeId) :
    (s.withoutFrames scope).loops? scope = s.loops? scope :=
  loops?_congr (by rw [scopes_withoutFrames])

theorem Ready.congr (hs : s.Ready scope) (hscope : t.scopes[scope]? = s.scopes[scope]?)
    (hcount : s.loopStacks.size ≤ t.loopStacks.size) : t.Ready scope where
  scope_lt := by
    have h := Array.getElem?_eq_getElem hs.scope_lt
    rw [← hscope] at h
    exact (Array.getElem?_eq_some_iff.mp h).1
  loops_lt ref href := by
    rw [loops?_congr hscope] at href
    exact Nat.lt_of_lt_of_le (hs.loops_lt ref href) hcount

theorem Ready.withoutFrames (hs : s.Ready scope) : (s.withoutFrames scope).Ready scope := by
  refine hs.congr (by rw [scopes_withoutFrames]) ?_
  rw [Store.withoutFrames]
  split <;> simp [setStack]

theorem Ready.withFrames (hs : s.Ready scope) (frames : LoopStack) :
    (s.withFrames scope frames).Ready scope := by
  refine hs.congr (by rw [scopes_withFrames]) ?_
  rw [Store.withFrames]
  split <;> simp [setStack]

theorem Ready.frames_withoutFrames (hs : s.Ready scope) : (s.withoutFrames scope).frames scope = [] := by
  cases h : s.loops? scope with
  | none => simp only [Store.frames, loops?_withoutFrames, h]
  | some ref =>
    simp only [Store.frames, loops?_withoutFrames, h]
    simp only [Store.withoutFrames, h]
    exact stack_setStack_self (hs.loops_lt ref h) []

theorem Ready.withFrames_withoutFrames (hs : s.Ready scope) :
    (s.withoutFrames scope).withFrames scope (s.frames scope) = s := by
  cases h : s.loops? scope with
  | none => simp only [Store.frames, Store.withoutFrames, h, withFrames_nil]
  | some ref =>
    rw [withFrames_eq ((loops?_withoutFrames s scope).trans h)]
    simp only [Store.frames, Store.withoutFrames, h, setStack_setStack,
      stack_setStack_self (hs.loops_lt ref h), List.append_nil, setStack_stack]

theorem carries_withoutFrames (s : Store) (scope : ScopeId) :
    (s.withoutFrames scope).Carries scope (s.frames scope) := by
  intro hne
  rw [loops?_withoutFrames]
  cases h : s.loops? scope with
  | none => simp [Store.frames, h] at hne
  | some ref => rfl

theorem Ready.frames_withFrames (hs : s.Ready scope) {frames : LoopStack}
    (hc : s.Carries scope frames) : (s.withFrames scope frames).frames scope = frames ++ s.frames scope := by
  by_cases hne : frames = []
  · simp [hne]
  · obtain ⟨ref, href⟩ := Option.isSome_iff_exists.mp (hc hne)
    exact Store.frames_withFrames hs href frames

theorem Preserved.frames (h : s.Preserved t) (hscope : scope < s.scopes.size) :
    t.frames scope = s.frames scope := by
  simp only [Store.frames, loops?_congr (h.1 scope hscope), h.2]

theorem count_restore (c : LoopCheckpoint) (scope : ScopeId) (s : Store) :
    (c.restore scope s).loopStacks.size = s.loopStacks.size := by
  rw [LoopCheckpoint.restore]
  split <;> simp [delete, set, setStack]

theorem Ready.restore (hs : s.Ready scope) (h : s.Descends scope t) :
    ((LoopCheckpoint.take s scope).restore scope t).Ready scope :=
  hs.congr (h.restore_own hs.scope_lt) (by rw [count_restore]; exact h.count)

end Store

theorem poll_error_store {w w' : World} {f : Failure} (h : poll w = .error f w') :
    w'.store = w.store := by
  obtain ⟨store, written, polls⟩ := w
  cases polls with
  | zero =>
    cases h
    rfl
  | succ polls => cases h

theorem guarded_eq_ok {scope : ScopeId} {x : Execution Stepped} {w w' : World} {s : Stepped}
    (h : Setting.guarded scope x w = .ok s w') : x w = .ok s w' := by
  rw [Setting.guarded] at h
  cases hx : x w with
  | ok s₀ w₀ => simpa only [hx] using h
  | error f w₀ =>
    simp only [hx] at h
    cases h

/-- A place in a program where a session can be: the loop stack of the scope has its frames. -/
structure Spot.Matches (c : Spot) (p : Program) (scope : ScopeId) (s : Store) : Prop where
  ready : s.Ready scope
  fits : c.Fits p.block
  frames : s.frames scope = c.frames

section

variable {setting : Setting} {scope : ScopeId} {p : Program} {c : Spot} {loc : Location}
  {w w' : World}

theorem Spot.Matches.rests (h : c.Matches p scope w.store) :
    c.Rests scope p.block { w with store := w.store.withoutFrames scope } :=
  ⟨h.fits, h.frames ▸ w.store.carries_withoutFrames scope⟩

/-- Below the polls and the guard, a step in the program is a move of the machine. -/
theorem stepBody_eq (hp : p.Proper) (h : c.Matches p scope w.store) (hloc : c.At loc) :
    setting.stepBody scope loc p.body w =
      (setting.advance scope p c >>= settle scope loc Spot.path Spot.frames)
        { w with store := w.store.withoutFrames scope } := by
  have hsteps : p.block.StepsAsPlaced setting.host setting.invoke scope :=
    block_stepsAsPlaced (invokeAt_spares setting setting.depth) p.block hp.not_mem_names
  have hstep := hsteps c { w with store := w.store.withoutFrames scope } loc h.ready.withoutFrames
    h.rests hloc.index hloc.inner
  rwa [World.withFrames, ← h.frames, h.ready.withFrames_withoutFrames] at hstep

theorem advance_empty {mv : Moved Spot} (hnil : p.body = [])
    (h : setting.advance scope p c w = .ok mv w') : mv.next = none := by
  rw [Setting.advance, Program.block, hnil, advanceBlock] at h
  cases hindex : c.index with
  | zero =>
    rw [hindex] at h
    cases h
    rfl
  | succ index =>
    rw [hindex] at h
    cases h
    rfl

/-- A step that goes well leaves the program, or it leads to another place in it. -/
theorem step_ok_matches {s : Stepped} (hp : p.Proper) (h : c.Matches p scope w.store)
    (hloc : c.At loc) (hstep : setting.step scope (.program p) loc w = .ok s w') :
    (s.next = .finished ∧ w'.store.Ready scope ∧ w'.store.frames scope = []) ∨
      ∃ c' : Spot, s.next = 0 :: c'.path ∧ c'.Matches p scope w'.store ∧ p.body ≠ [] := by
  rw [step_program hloc.not_done] at hstep
  obtain ⟨_, w₁, hpoll, hstep⟩ := bind_eq_ok hstep
  obtain ⟨s₀, hguarded, rfl⟩ := map_eq_ok hstep
  have h : c.Matches p scope w₁.store := poll_ok_store hpoll ▸ h
  have hbody := guarded_eq_ok hguarded
  rw [stepBody_eq hp h hloc] at hbody
  obtain ⟨⟨v, next⟩, w₂, hmv, hsettle⟩ := bind_eq_ok hbody
  have hinv := invokeAt_spares setting setting.depth
  have hready := h.ready.withoutFrames
  have hholds := (advanceBlock_holds hinv c p.block hp.not_mem_names).ok hready.scope_lt hmv
  have hframes := hholds.frames.trans h.ready.frames_withoutFrames
  cases next with
  | none =>
    cases hsettle
    refine .inl ⟨?_, hholds.ready hready, hframes⟩
    rw [Location.past, hloc.head]
    rfl
  | some c' =>
    cases hsettle
    obtain ⟨hfits, hcarries⟩ :=
      advanceBlock_rests hinv p.block hp.not_mem_names hready.scope_lt h.rests hmv c' rfl
    refine .inr ⟨c', ?_, ⟨(hholds.ready hready).withFrames _, hfits, ?_⟩, fun hnil => ?_⟩
    · rw [hloc.head]
      rfl
    · refine ((hholds.ready hready).frames_withFrames hcarries).trans ?_
      rw [hframes, List.append_nil]
    · cases advance_empty hnil hmv

/-- A step that fails leaves the place as it was, and no place of the program is stale. -/
theorem step_error_matches {f : Failure} (hp : p.Proper) (h : c.Matches p scope w.store)
    (hloc : c.At loc) (hstep : setting.step scope (.program p) loc w = .error f w') :
    c.Matches p scope w'.store ∧ (f.isStale = true → setting.host.RepliesStale) := by
  have hpreserved := step_error h.ready.scope_lt hstep
  have hframes := (hpreserved.frames h.ready.scope_lt).trans h.frames
  rw [step_program hloc.not_done] at hstep
  obtain hpoll | ⟨_, w₁, hpoll, hstep⟩ := bind_eq_error hstep
  · refine ⟨poll_error_store hpoll ▸ h, fun hstale => ?_⟩
    exact blames_poll _ _ _ hpoll hstale
  · have h : c.Matches p scope w₁.store := poll_ok_store hpoll ▸ h
    rw [map_eq_pure_bind] at hstep
    obtain hstep | ⟨_, _, -, hstep⟩ := bind_eq_error hstep
    · obtain ⟨w₀, hbody, hrestore⟩ := guarded_eq_error hstep
      have hinv := invokeAt_spares setting setting.depth
      have hdescends := stepBlock_fails hinv scope loc p.block w₁ w₀ f h.ready.scope_lt hbody
      refine ⟨⟨hrestore ▸ h.ready.restore hdescends, h.fits, hframes⟩, fun hstale => ?_⟩
      rw [stepBody_eq hp h hloc] at hbody
      obtain hmv | ⟨⟨v, next⟩, w₂, -, hsettle⟩ := bind_eq_error hbody
      · exact advanceBlock_blames (invokeAt_blames setting setting.depth) c p.block _ _ _ hmv hstale
      · cases next <;> cases hsettle
    · cases hstep

end

end Stepwise
