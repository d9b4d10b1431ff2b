import Stepwise.Proofs.Fitting
import Stepwise.Proofs.Progress

/-! Frames that are left alone. Where a program does not assign the loop stack of its scope, what lies on
the stack from before stays below the frames of its own loops, and no step comes down to it. -/

namespace Stepwise

open Execution

variable {host : Host} {invoke : Invoke} {scope : ScopeId}

/-- A stack with a frame put on it holds that frame on top, if it is there at all. -/
theorem Store.frames_push {s : Store} {ref : Nat} (href : s.loops? scope = some ref) (f : LoopFrame) :
    (s.setStack ref (f :: s.stack ref)).frames scope = f :: s.frames scope ∨
      (s.setStack ref (f :: s.stack ref)).frames scope = [] := by
  have hloops : (s.setStack ref (f :: s.stack ref)).loops? scope = some ref := href
  rw [Store.frames_of_loops hloops, Store.frames_of_loops href]
  by_cases hlt : ref < s.loopStacks.size
  · exact .inl (Store.stack_setStack_self hlt _)
  · exact .inr (Store.stack_eq_nil_of_size_le (by simpa [Store.setStack] using hlt))

theorem tame_push {s : Store} {ref : Nat} (href : s.loops? scope = some ref) {f : LoopFrame}
    {depth : Nat} (hf : f.forever = false) (hframes : Tame (s.frames scope) depth) :
    Tame ((s.setStack ref (f :: s.stack ref)).frames scope) (depth + 1) := by
  obtain hpush | hpush := Store.frames_push href f
  · rw [hpush]
    exact tame_cons_iff.mpr ⟨hf, hframes⟩
  · rw [hpush, Tame, List.take_nil]
    exact fun _ hf => absurd hf List.not_mem_nil

/-- The scope keeps the loop stack it has, and the place after a step is among loops with a count,
unless it is past `loc`. -/
structure Shelters (scope : ScopeId) (s t : Store) (loc next : Location) (depth : Location → Nat) :
    Prop where
  size : s.scopes.size ≤ t.scopes.size
  bound : ∀ ref, s.loops? scope = some ref → t.loops? scope = some ref
  tame : next = loc.past ∨ Tame (t.frames scope) (depth next)

theorem Shelters.after {s t u : Store} {loc next : Location} {depth : Location → Nat}
    (h : Shelters scope t u loc next depth) (hsize : s.scopes.size ≤ t.scopes.size)
    (hbound : ∀ ref, s.loops? scope = some ref → t.loops? scope = some ref) :
    Shelters scope s u loc next depth :=
  ⟨Nat.le_trans hsize h.size, fun ref href => h.bound ref (hbound ref href), h.tame⟩

theorem resumeLoop_shelters {body : Block} {ref : Nat} {frame : LoopFrame} {loc path : Location}
    {q r : Stepped} {w w' : World} (href : w.store.loops? scope = some ref)
    (hframe : frame.forever = false) (hpath : path.head = 1)
    (hshape : q.next = path.past ∨ q.next.head = path.head)
    (htame : q.next = path.past ∨ Tame (w.store.frames scope) (body.nesting q.next))
    (h : resumeLoop ref frame loc q w = .ok r w') (span : Span) (count : Expr) :
    Shelters scope w.store w'.store loc r.next
      fun next => (Stmt.times span count body).nesting next.below := by
  have hdepth (next : Location) (hnext : next.head = 1) :
      (Stmt.times span count body).nesting next = body.nesting next + 1 := by
    rw [Stmt.nesting, if_neg (by simp [Location.head_ne_nil (hnext ▸ one_ne_zero)])]
  obtain ⟨hle, hnext, rfl⟩ | ⟨hpast, rfl⟩ | ⟨-, hnext, rfl⟩ := resumeLoop_cases h
  · have hstays : q.next ≠ path.past := by
      intro hpast
      rw [hpast, Location.past, Location.head, hpath] at hle
      omega
    refine ⟨Nat.le_refl _, fun _ href' => href', .inr ?_⟩
    have hhead : q.next.head = 1 := (hshape.resolve_left hstays).trans hpath
    rw [hnext]
    change Tame _ ((Stmt.times span count body).nesting q.next)
    rw [hdepth _ hhead]
    exact tame_push href hframe (htame.resolve_left hstays)
  · exact ⟨Nat.le_refl _, fun _ href' => href', .inl hpast⟩
  · refine ⟨Nat.le_refl _, fun _ href' => href', .inr ?_⟩
    rw [hnext]
    change Tame _ ((Stmt.times span count body).nesting [1, 0])
    rw [hdepth _ rfl, Block.nesting_start]
    exact tame_push href hframe (tame_zero _)

theorem Location.leave_shelters {s t : Store} {loc path : Location} {child : Int} {q : Stepped}
    {depth depth' : Location → Nat} (hpath : path.head = child)
    (hshape : q.next = path.past ∨ q.next.head = path.head)
    (hdepth : ∀ next, next.head = child → depth' next = depth next)
    (h : Shelters scope s t path q.next depth) :
    Shelters scope s t loc (loc.leave child q).next fun next => depth' next.below := by
  refine ⟨h.size, h.bound, ?_⟩
  rw [Location.leave]
  by_cases hpast : q.next = path.past
  · have hlt : q.next.head > child := by
      rw [hpast, Location.past, Location.head, hpath]
      omega
    rw [if_pos hlt]
    exact .inl rfl
  · have hhead : q.next.head = child := (hshape.resolve_left hpast).trans hpath
    rw [if_neg (by omega)]
    refine .inr ?_
    change Tame _ (depth' q.next)
    rw [hdepth _ hhead]
    exact h.tame.resolve_left hpast

theorem stepBlock_shape (hinv : invoke.Spares) {b : Block} {loc : Location} {w w' : World} {r : Stepped}
    (htame : Tame (w.store.frames scope) (b.nesting loc))
    (h : stepBlock host invoke scope loc b w = .ok r w') :
    r.next = loc.past ∨ r.next.head = loc.head :=
  (stepBlock_advances hinv b 0 [] (.inl rfl) htame h).imp_right And.left

mutual

/-- Where the tree does not assign the loop stack, frames from before stay below those of its own
loops. -/
theorem stepStmt_shelters (hinv : invoke.Spares) {terms : Terms} (hfinite : ¬ terms.endless) (s : Stmt)
    (hs : s.Meets terms) (hassigned : loopBinding ∉ s.assigned) {loc : Location} {w w' : World}
    {r : Stepped} (hscope : scope < w.store.scopes.size)
    (htame : Tame (w.store.frames scope) (s.nesting loc.below))
    (h : stepStmt host invoke scope loc s w = .ok r w') :
    Shelters scope w.store w'.store loc r.next fun next => s.nesting next.below := by
  cases s with
  | missing | set | call =>
    obtain ⟨hpast, v, hv⟩ := atomic_cases rfl h
    have hholds := ((holds_executes hinv scope).evalStmt _ fun _ hmem =>
      ne_of_mem_of_not_mem hmem hassigned).ok hscope hv
    exact ⟨hholds.size, hholds.bound, .inl hpast⟩
  | branch span condition thenBlock elseBlock =>
    simp only [Stmt.assigned, List.mem_append, not_or] at hassigned
    obtain ⟨path, w₁, henter, hcases⟩ := stepBranch_cases h
    have hholds := (enterBranch_spares hinv condition loc.below).holds.ok hscope henter
    have hscope₁ : scope < w₁.store.scopes.size := Nat.lt_of_lt_of_le hscope hholds.size
    have htame₁ := enterBranch_tame henter htame
    obtain ⟨hchild, q, hq, rfl⟩ | ⟨-, hpast, rfl⟩ | ⟨hchild, q, hq, rfl⟩ := hcases
    · rw [Stmt.nesting_then hchild] at htame₁
      refine Shelters.after ?_ hholds.size hholds.bound
      refine Location.leave_shelters hchild (stepBlock_shape hinv htame₁ hq) (fun _ => Stmt.nesting_then) ?_
      exact stepBlock_shelters hinv hfinite thenBlock hs.2.2.1 hassigned.1 hscope₁ htame₁ hq
    · exact ⟨hholds.size, hholds.bound, .inl hpast⟩
    · rw [Stmt.nesting_else hchild] at htame₁
      refine Shelters.after ?_ hholds.size hholds.bound
      refine Location.leave_shelters hchild (stepBlock_shape hinv htame₁ hq) (fun _ => Stmt.nesting_else) ?_
      exact stepBlock_shelters hinv hfinite elseBlock hs.2.2.2 hassigned.2 hscope₁ htame₁ hq
  | times span count body =>
    obtain ⟨-, frame, w₁, hstart, hcases⟩ |
      ⟨hchild, ref, frame, frames, q, w₁, href, hstack, hq, hresume⟩ := stepTimes_cases h
    · have hholds := (startLoop_holds span count body).ok hscope hstart
      have hscope₁ : scope < w₁.store.scopes.size := Nat.lt_of_lt_of_le hscope hholds.size
      obtain ⟨-, hpast, rfl⟩ | ⟨ref, w₂, q, w₃, hdone, hensure, hq, hresume⟩ := hcases
      · exact ⟨hholds.size, hholds.bound, .inl hpast⟩
      have hframe : frame.forever = false := by
        have hcounted := (startLoop_fits hstart hdone).2
        cases count with
        | forever => exact absurd hs.2.1 hfinite
        | number => exact hcounted.1
        | symbol => exact hcounted
        | _ => exact hcounted.elim
      obtain ⟨ref', w₂', hensure', hmark, href⟩ := markLoops_ok hscope₁
      cases hensure.symm.trans hensure'
      have hmarked := (holds_markLoops scope).ok hscope₁ hmark
      have hbody : Tame (w₂.store.frames scope) (body.nesting [1, 0]) := by
        rw [Block.nesting_start]
        exact tame_zero _
      have hround := stepBlock_shelters hinv hfinite body hs.2.2 hassigned
        (Nat.lt_of_lt_of_le hscope₁ hmarked.size) hbody hq
      have hresumed := resumeLoop_shelters (hround.bound ref href) hframe rfl
        (stepBlock_shape hinv hbody hq) hround.tame hresume span count
      have hentered := hresumed.after hround.size hround.bound
      exact (hentered.after hmarked.size hmarked.bound).after hholds.size hholds.bound
    · have href₁ : (w.store.setStack ref frames).loops? scope = some ref := href
      obtain ⟨hframe, hbody⟩ := tame_taken hchild href hstack htame
      let taken : World := { w with store := w.store.setStack ref frames }
      have hround := stepBlock_shelters hinv hfinite body hs.2.2 hassigned (w := taken) hscope hbody hq
      have hresumed := resumeLoop_shelters (hround.bound ref href₁) hframe hchild
        (stepBlock_shape (w := taken) hinv hbody hq) hround.tame hresume span count
      exact hresumed.after hround.size hround.bound
termination_by structural s

theorem stepBlock_shelters (hinv : invoke.Spares) {terms : Terms} (hfinite : ¬ terms.endless) (b : Block)
    (hb : b.Meets terms) (hassigned : loopBinding ∉ b.assigned) {loc : Location} {w w' : World}
    {r : Stepped} (hscope : scope < w.store.scopes.size)
    (htame : Tame (w.store.frames scope) (b.nesting loc))
    (h : stepBlock host invoke scope loc b w = .ok r w') :
    Shelters scope w.store w'.store loc r.next b.nesting := by
  cases b with
  | missing =>
    cases h
    exact ⟨Nat.le_refl _, fun _ href => href, .inl rfl⟩
  | of span body =>
    rw [stepBlock] at h
    split at h
    · cases h
    · next hindex =>
      have hfrom : loc.below.head = (0 : Nat) + (loc.below.head.toNat : Nat) := by omega
      obtain ⟨hsize, hbound, hnext⟩ :=
        stepAt_shelters hinv hfinite body hb hassigned 0 hscope htame hfrom h
      refine ⟨hsize, hbound, hnext.imp_right ?_⟩
      rintro ⟨skip, hskip, hdeep⟩
      have htoNat : r.next.below.head.toNat = skip := by omega
      change Tame _ (Stmt.nestingAt _ r.next.below.head.toNat body)
      rwa [htoNat]
termination_by structural b

theorem stepAt_shelters (hinv : invoke.Spares) {terms : Terms} (hfinite : ¬ terms.endless)
    (body : List Stmt) (hbody : Stmt.AllMeet terms body)
    (hassigned : loopBinding ∉ Stmt.assignedIn body) (before : Nat) {loc : Location}
    {count skip : Nat} {w w' : World} {r : Stepped} (hscope : scope < w.store.scopes.size)
    (htame : Tame (w.store.frames scope) (Stmt.nestingAt loc.below.below skip body))
    (hfrom : loc.below.head = (before : Nat) + (skip : Nat))
    (h : stepAt host invoke scope loc count skip body w = .ok r w') :
    w.store.scopes.size ≤ w'.store.scopes.size ∧
      (∀ ref, w.store.loops? scope = some ref → w'.store.loops? scope = some ref) ∧
      (r.next = loc.past ∨ ∃ skip' : Nat, r.next.below.head = (before : Nat) + (skip' : Nat) ∧
        Tame (w'.store.frames scope) (Stmt.nestingAt r.next.below.below skip' body)) := by
  cases body with
  | nil => cases skip <;> cases h <;> exact ⟨Nat.le_refl _, fun _ href => href, .inl rfl⟩
  | cons s rest =>
    simp only [Stmt.assignedIn, List.mem_append, not_or] at hassigned
    cases skip with
    | succ skip =>
      rw [stepAt] at h
      obtain ⟨hsize, hbound, hnext⟩ := stepAt_shelters hinv hfinite rest hbody.2 hassigned.2
        (before + 1) hscope htame (by omega) h
      refine ⟨hsize, hbound, hnext.imp_right ?_⟩
      rintro ⟨skip', hskip, hdeep⟩
      exact ⟨skip' + 1, by omega, hdeep⟩
    | zero =>
      rw [stepAt] at h
      obtain ⟨q, w₁, hq, hp⟩ := bind_eq_ok h
      have hshape := stepStmt_advances hinv s 0 [] (.inl rfl) htame hq
      obtain ⟨hsize, hbound, hnext⟩ :=
        stepStmt_shelters hinv hfinite s hbody.1.2 hassigned.1 hscope htame hq
      split at hp
      · cases hp
        exact ⟨hsize, hbound, .inl rfl⟩
      · cases hp
        refine ⟨hsize, hbound, .inr ?_⟩
        by_cases hpast : q.next = loc.below.past
        · refine ⟨1, ?_, ?_⟩
          · rw [hpast, Location.past]
            change loc.below.head + 1 = _
            omega
          · rw [hpast, Location.past]
            change Tame _ (Stmt.nestingAt [] 0 rest)
            rw [Stmt.nestingAt_nil]
            exact tame_zero _
        · refine ⟨0, ?_, hnext.resolve_left hpast⟩
          have hhead := (hshape.resolve_left hpast).1
          change q.next.head = _
          omega
termination_by structural body

end

end Stepwise
