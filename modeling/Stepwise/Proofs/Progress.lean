import Mathlib
import Stepwise.Proofs.Locality
import Stepwise.Proofs.Termination

/-! Stepping gets on. What is still to be done from a location is told by a list of numbers: on the way
down the statements that are left of each list and, at each loop, the rounds that the frames at its
depth have left on all the loop stacks there are. A step makes the list smaller, one way or another:
a loop may find itself on another stack after an assignment, but no stack gets a new frame at its depth
before the loop is left. -/

namespace Stepwise

open Execution

namespace Store

/-- The rounds that frames at a depth have left, over all loop stacks. -/
def due (s : Store) (level : Nat) : Nat :=
  ∑ ref ∈ Finset.range s.loopStacks.size, ((s.stack ref)[level]?).elim 0 LoopFrame.left

/-- The store at rest, with frames put back that have been taken off a stack. -/
def under (s : Store) (ref : Nat) (top : LoopStack) : Store := s.setStack ref (top ++ s.stack ref)

structure SameBut (ref : Nat) (s t : Store) : Prop where
  size : t.loopStacks.size = s.loopStacks.size
  stack : ∀ other, other ≠ ref → t.stack other = s.stack other

variable {s t u : Store} {ref : Nat}

theorem SameBut.refl (ref : Nat) (s : Store) : s.SameBut ref s := ⟨rfl, fun _ _ => rfl⟩

theorem SameBut.trans (h : SameBut ref s t) (h' : SameBut ref t u) : SameBut ref s u :=
  ⟨h'.size.trans h.size, fun other hne => (h'.stack other hne).trans (h.stack other hne)⟩

theorem stack_congr (h : t.loopStacks = s.loopStacks) (ref : Nat) : t.stack ref = s.stack ref := by
  rw [stack, h, stack]

theorem SameBut.of_loopStacks (h : t.loopStacks = s.loopStacks) (ref : Nat) : SameBut ref s t :=
  ⟨by rw [h], fun other _ => stack_congr h other⟩

theorem sameBut_setStack (s : Store) (ref : Nat) (frames : LoopStack) :
    s.SameBut ref (s.setStack ref frames) :=
  ⟨by simp [setStack], fun _ hne => stack_setStack_of_ne (Ne.symm hne) s frames⟩

theorem under_nil (s : Store) (ref : Nat) : s.under ref [] = s := setStack_stack s ref

theorem under_pop (h : ref < s.loopStacks.size) {f : LoopFrame} {frames : LoopStack}
    (hs : s.stack ref = f :: frames) (top : LoopStack) :
    (s.setStack ref frames).under ref (top ++ [f]) = s.under ref top := by
  rw [under, under, setStack_setStack, stack_setStack_self h, hs, List.append_assoc]
  rfl

theorem under_push (h : ref < s.loopStacks.size) (f : LoopFrame) (top : LoopStack) :
    (s.setStack ref (f :: s.stack ref)).under ref top = s.under ref (top ++ [f]) := by
  rw [under, under, setStack_setStack, stack_setStack_self h, List.append_assoc]
  rfl

theorem stack_under (h : ref < s.loopStacks.size) (top : LoopStack) :
    (s.under ref top).stack ref = top ++ s.stack ref :=
  stack_setStack_self h _

theorem getElem?_under {f : LoopFrame} (h : ref < s.loopStacks.size) (top : LoopStack) :
    ((s.under ref (top ++ [f])).stack ref)[top.length]? = some f := by
  rw [stack_under h, List.append_assoc]
  simp

theorem SameBut.under (h : s.SameBut ref t) (top top' : LoopStack) :
    (s.under ref top).SameBut ref (t.under ref top') := by
  refine ⟨?_, fun other hne => ?_⟩
  · simpa [Store.under, setStack] using h.size
  · rw [Store.under, Store.under, stack_setStack_of_ne (Ne.symm hne),
      stack_setStack_of_ne (Ne.symm hne), h.stack other hne]

theorem SameBut.due_eq (h : s.SameBut ref t) {level : Nat}
    (hlevel : (t.stack ref)[level]? = (s.stack ref)[level]?) : t.due level = s.due level := by
  rw [due, due, h.size]
  refine Finset.sum_congr rfl fun other _ => ?_
  by_cases hother : other = ref
  · rw [hother, hlevel]
  · rw [h.stack other hother]

theorem SameBut.due_lt (h : s.SameBut ref t) (href : ref < s.loopStacks.size) {level : Nat}
    {f g : LoopFrame} (hf : (s.stack ref)[level]? = some f) (hg : (t.stack ref)[level]? = some g)
    (hlt : g.left < f.left) : t.due level < s.due level := by
  rw [due, due, h.size]
  refine Finset.sum_lt_sum (fun other _ => ?_) ⟨ref, Finset.mem_range.mpr href, ?_⟩
  · by_cases hother : other = ref
    · rw [hother, hf, hg]
      exact Nat.le_of_lt hlt
    · rw [h.stack other hother]
  · rw [hf, hg]
    exact hlt

end Store

mutual

/-- What is left to do in a statement from a path on, in the order in which it counts. -/
def Stmt.togo (due : Nat → Nat) (level : Nat) (path : Location) : Stmt → List Nat
  | .branch _ _ thenBlock elseBlock =>
    if path.head = 0 then [1]
    else if path.head = 1 then 0 :: thenBlock.togo due level path
    else 0 :: elseBlock.togo due level path
  | .times _ _ body =>
    if path.isEmpty then [1] else 0 :: due level :: body.togo due (level + 1) path
  | .missing | .set _ _ _ | .call _ _ _ => []

def Block.togo (due : Nat → Nat) (level : Nat) (loc : Location) : Block → List Nat
  | .missing => []
  | .of _ body => Stmt.togoAt due level loc.below.below loc.below.head.toNat body

def Stmt.togoAt (due : Nat → Nat) (level : Nat) (path : Location) :
    (skip : Nat) → List Stmt → List Nat
  | _, [] => []
  | skip + 1, _ :: rest => Stmt.togoAt due level path skip rest
  | 0, s :: rest => rest.length :: s.togo due level path

end

mutual

/-- How many loops a path in a statement leads into. -/
def Stmt.nesting (path : Location) : Stmt → Nat
  | .branch _ _ thenBlock elseBlock =>
    if path.head = 0 then 0
    else if path.head = 1 then thenBlock.nesting path
    else elseBlock.nesting path
  | .times _ _ body => if path.isEmpty then 0 else body.nesting path + 1
  | .missing | .set _ _ _ | .call _ _ _ => 0

def Block.nesting (loc : Location) : Block → Nat
  | .missing => 0
  | .of _ body => Stmt.nestingAt loc.below.below loc.below.head.toNat body

def Stmt.nestingAt (path : Location) : (skip : Nat) → List Stmt → Nat
  | _, [] => 0
  | skip + 1, _ :: rest => Stmt.nestingAt path skip rest
  | 0, s :: _ => s.nesting path

end

theorem Stmt.nesting_nil (s : Stmt) : s.nesting [] = 0 := by
  cases s <;> rfl

theorem Stmt.nestingAt_nil (skip : Nat) (body : List Stmt) : Stmt.nestingAt [] skip body = 0 := by
  induction body generalizing skip with
  | nil => cases skip <;> rfl
  | cons s rest ih =>
    cases skip with
    | zero => exact s.nesting_nil
    | succ skip => exact ih skip

theorem Block.nesting_start (b : Block) (child index : Int) : b.nesting [child, index] = 0 := by
  cases b with
  | missing => rfl
  | of span body => exact Stmt.nestingAt_nil _ body

section Cases

variable {host : Host} {invoke : Invoke} {scope : ScopeId} {loc : Location} {w w' : World}
  {r : Stepped}

theorem enterBranch_cases {condition : Expr} {path : Location}
    (h : enterBranch host invoke scope condition loc w = .ok path w') :
    (loc.head = 0 ∧ (path = [1, 0] ∨ path = [2, 0]) ∧
      ∃ v, evalExpr host invoke scope condition w = .ok v w') ∨
    loc.head ≠ 0 ∧ path = loc ∧ w' = w := by
  rw [enterBranch] at h
  split at h
  · next hhead =>
    obtain ⟨v, w₁, hv, hp⟩ := bind_eq_ok h
    cases hp
    refine .inl ⟨hhead, ?_, v, hv⟩
    split
    · exact .inl rfl
    · exact .inr rfl
  · next hhead =>
    cases h
    exact .inr ⟨hhead, rfl, rfl⟩

theorem stepBranch_cases {span : Span} {condition : Expr} {thenBlock elseBlock : Block}
    (h : stepStmt host invoke scope loc (.branch span condition thenBlock elseBlock) w = .ok r w') :
    ∃ path w₁, enterBranch host invoke scope condition loc.below w = .ok path w₁ ∧
      ((path.head = 1 ∧ ∃ s, stepBlock host invoke scope path thenBlock w₁ = .ok s w' ∧
        r = loc.leave 1 s) ∨
      (path.head = 2 ∧ r.next = loc.past ∧ w' = w₁) ∨
      path.head = 2 ∧ ∃ s, stepBlock host invoke scope path elseBlock w₁ = .ok s w' ∧
        r = loc.leave 2 s) := by
  rw [stepStmt] at h
  split at h
  · cases h
  obtain ⟨path, w₁, henter, h⟩ := bind_eq_ok h
  refine ⟨path, w₁, henter, ?_⟩
  split at h
  · next hhead =>
    obtain ⟨s, w₂, hs, hp⟩ := bind_eq_ok h
    cases hp
    exact .inl ⟨hhead, s, hs, rfl⟩
  split at h
  · next hhead =>
    split at h
    · cases h
      exact .inr (.inl ⟨hhead, rfl, rfl⟩)
    · obtain ⟨s, w₂, hs, hp⟩ := bind_eq_ok h
      cases hp
      exact .inr (.inr ⟨hhead, s, hs, rfl⟩)
  · cases h

theorem takeFrame_cases {span : Span} {ref : Nat} {frame : LoopFrame}
    (h : takeFrame scope span loc none w = .ok (ref, frame) w') :
    ∃ frames, w.store.loops? scope = some ref ∧ w.store.stack ref = frame :: frames ∧
      w' = { w with store := w.store.setStack ref frames } := by
  rw [takeFrame] at h
  obtain ⟨ref', w₁, hensure, h⟩ := bind_eq_ok h
  obtain ⟨top, w₂, hpop, h⟩ := bind_eq_ok h
  cases top with
  | none => cases h
  | some f =>
    cases h
    cases hstack : w₁.store.stack ref with
    | nil =>
      simp only [LoopStack.pop?, hstack] at hpop
      cases hpop
    | cons g frames =>
      simp only [LoopStack.pop?, hstack] at hpop
      cases hpop
      cases hloops : w.store.loops? scope with
      | some ref' =>
        rw [LoopStack.ensure_of_loops hloops] at hensure
        cases hensure
        exact ⟨frames, rfl, hstack, rfl⟩
      | none =>
        -- a stack that has just been made is empty
        rw [LoopStack.ensure_of_none hloops] at hensure
        cases hensure
        have hnil : w.store.stack w.store.nextStack = [] :=
          Store.stack_eq_nil_of_size_le (Nat.le_refl _)
        rw [Store.stack_set, Store.stack_addStack_nil, hnil] at hstack
        cases hstack

theorem resumeLoop_cases {ref : Nat} {frame : LoopFrame} {s : Stepped}
    (h : resumeLoop ref frame loc s w = .ok r w') :
    (s.next.head ≤ 1 ∧ r.next = loc.head :: s.next ∧
      w' = { w with store := w.store.setStack ref (frame :: w.store.stack ref) }) ∨
    r.next = loc.past ∧ w' = w ∨
    frame.next.done = false ∧ r.next = [loc.head, 1, 0] ∧
      w' = { w with store := w.store.setStack ref (frame.next :: w.store.stack ref) } := by
  rw [resumeLoop] at h
  split at h
  · next hhead =>
    cases h
    exact .inl ⟨hhead, rfl, rfl⟩
  split at h
  · cases h
    exact .inr (.inl ⟨rfl, rfl⟩)
  · next hdone =>
    cases h
    exact .inr (.inr ⟨Bool.eq_false_iff.mpr hdone, rfl, rfl⟩)

theorem stepTimes_cases {span : Span} {count : Expr} {body : Block}
    (h : stepStmt host invoke scope loc (.times span count body) w = .ok r w') :
    (loc.below = [] ∧ ∃ frame w₁, startLoop host invoke scope span count body w = .ok frame w₁ ∧
      (frame.done = true ∧ r.next = loc.past ∧ w' = w₁ ∨
      ∃ ref w₂ s w₃, frame.done = false ∧ LoopStack.ensure scope w₁ = .ok ref w₂ ∧
        stepBlock host invoke scope [1, 0] body w₂ = .ok s w₃ ∧
        resumeLoop ref frame loc s w₃ = .ok r w')) ∨
    loc.below.head = 1 ∧ ∃ ref frame frames s w₁, w.store.loops? scope = some ref ∧
      w.store.stack ref = frame :: frames ∧
      stepBlock host invoke scope loc.below body { w with store := w.store.setStack ref frames } =
        .ok s w₁ ∧ resumeLoop ref frame loc s w₁ = .ok r w' := by
  rw [stepStmt] at h
  split at h
  · cases h
  split at h
  · next hempty =>
    obtain ⟨frame, w₁, hstart, h⟩ := bind_eq_ok h
    refine .inl ⟨List.isEmpty_iff.mp hempty, frame, w₁, hstart, ?_⟩
    split at h
    · next hdone =>
      cases h
      exact .inl ⟨hdone, rfl, rfl⟩
    · next hdone =>
      obtain ⟨⟨ref, frame'⟩, w₂, htake, h⟩ := bind_eq_ok h
      obtain ⟨ref', w₂', hensure, hpure⟩ := bind_eq_ok htake
      cases hpure
      obtain ⟨s, w₃, hs, h⟩ := bind_eq_ok h
      exact .inr ⟨ref, w₂, s, w₃, Bool.eq_false_iff.mpr hdone, hensure, hs, h⟩
  split at h
  · cases h
  · next hhead =>
    obtain ⟨⟨ref, frame⟩, w₁, htake, h⟩ := bind_eq_ok h
    obtain ⟨frames, hloops, hstack, rfl⟩ := takeFrame_cases htake
    obtain ⟨s, w₂, hs, h⟩ := bind_eq_ok h
    exact .inr ⟨not_not.mp hhead, ref, frame, frames, s, w₂, hloops, hstack, hs, h⟩

end Cases

theorem Store.lt_of_loops? {s : Store} {scope : ScopeId} {ref : Nat} (h : s.loops? scope = some ref) :
    scope < s.scopes.size := by
  rw [Store.loops?_eq_some_iff] at h
  by_contra hge
  rw [Store.lookup?, Store.bindings, Array.getElem?_eq_none (Nat.le_of_not_lt hge)] at h
  cases h

theorem Store.Grows.loops?_eq {writable : ScopeId → Prop} {s t : Store} {scope : ScopeId}
    (h : s.Grows writable t) (hscope : ¬ writable scope) {ref : Nat}
    (href : s.loops? scope = some ref) : t.loops? scope = some ref :=
  (Store.loops?_congr (h.scope scope (Store.lt_of_loops? href) hscope)).trans href

section

variable {host : Host} {invoke : Invoke} {scope : ScopeId}

theorem Execution.Spares.ok {α : Type} {writable : ScopeId → Prop} {x : Execution α} (hx : Spares writable x)
    {w w' : World} {a : α} (h : x w = .ok a w') : w.store.Grows writable w'.store := by
  have hgrows := hx w
  rwa [after_ok h] at hgrows

theorem enterBranch_spares (hinv : invoke.Spares) (condition : Expr) (path : Location) :
    Spares (fun _ => False) (enterBranch host invoke scope condition path) := by
  rw [enterBranch]
  split
  · exact (evalExpr_spares hinv scope condition).bind fun v => spares_pure _
  · exact spares_pure _

theorem atomic_cases {s : Stmt} (hs : s.isAtomic) {loc : Location} {w w' : World} {r : Stepped}
    (h : stepStmt host invoke scope loc s w = .ok r w') :
    r.next = loc.past ∧ ∃ v, evalStmt host invoke scope s w = .ok v w' := by
  rw [stepStmt_atomic hs] at h
  obtain ⟨v, w₁, hv, hp⟩ := bind_eq_ok h
  cases hp
  exact ⟨rfl, v, hv⟩

theorem evalStmt_loopStacks (hinv : invoke.Spares) {s : Stmt} {w w' : World} {v : Value}
    (h : evalStmt host invoke scope s w = .ok v w') : w'.store.loopStacks = w.store.loopStacks :=
  (((spares_executes hinv scope).evalStmt s fun _ _ => trivial).ok h).loops

theorem resumeLoop_sameBut {ref : Nat} {frame : LoopFrame} {loc : Location} {s r : Stepped}
    {w w' : World} (h : resumeLoop ref frame loc s w = .ok r w') :
    w.store.SameBut ref w'.store := by
  obtain ⟨-, -, rfl⟩ | ⟨-, rfl⟩ | ⟨-, -, rfl⟩ := resumeLoop_cases h
  · exact w.store.sameBut_setStack ref _
  · exact .refl ref w'.store
  · exact w.store.sameBut_setStack ref _

mutual

theorem stepStmt_sameBut (hinv : invoke.Spares) (s : Stmt) {loc : Location} {w w' : World}
    {r : Stepped} {ref : Nat} (href : w.store.loops? scope = some ref)
    (h : stepStmt host invoke scope loc s w = .ok r w') : w.store.SameBut ref w'.store := by
  cases s with
  | missing | set | call =>
    obtain ⟨-, v, hv⟩ := atomic_cases rfl h
    exact .of_loopStacks (evalStmt_loopStacks hinv hv) ref
  | branch span condition thenBlock elseBlock =>
    obtain ⟨path, w₁, henter, hcases⟩ := stepBranch_cases h
    have hgrows := (enterBranch_spares hinv condition loc.below).ok henter
    have hsame : w.store.SameBut ref w₁.store := .of_loopStacks hgrows.loops ref
    have href₁ := hgrows.loops?_eq not_false href
    obtain ⟨-, q, hq, -⟩ | ⟨-, -, rfl⟩ | ⟨-, q, hq, -⟩ := hcases
    · exact hsame.trans (stepBlock_sameBut hinv thenBlock href₁ hq)
    · exact hsame
    · exact hsame.trans (stepBlock_sameBut hinv elseBlock href₁ hq)
  | times span count body =>
    obtain ⟨-, frame, w₁, hstart, hcases⟩ | ⟨-, ref', frame, frames, q, w₁, href', hstack, hq, hresume⟩ :=
      stepTimes_cases h
    · have hgrows := (startLoop_spares scope span count body).ok hstart
      have hsame : w.store.SameBut ref w₁.store := .of_loopStacks hgrows.loops ref
      have href₁ := hgrows.loops?_eq not_false href
      obtain ⟨-, -, rfl⟩ | ⟨ref', w₂, q, w₃, -, hensure, hq, hresume⟩ := hcases
      · exact hsame
      · rw [LoopStack.ensure_of_loops href₁] at hensure
        cases hensure
        exact hsame.trans ((stepBlock_sameBut hinv body href₁ hq).trans (resumeLoop_sameBut hresume))
    · obtain rfl : ref = ref' := Option.some.inj (href.symm.trans href')
      have href₁ : (w.store.setStack ref frames).loops? scope = some ref := href
      have hbody := stepBlock_sameBut hinv body (w := { w with store := _ }) href₁ hq
      exact (w.store.sameBut_setStack ref frames).trans (hbody.trans (resumeLoop_sameBut hresume))
termination_by structural s

theorem stepBlock_sameBut (hinv : invoke.Spares) (b : Block) {loc : Location} {w w' : World}
    {r : Stepped} {ref : Nat} (href : w.store.loops? scope = some ref)
    (h : stepBlock host invoke scope loc b w = .ok r w') : w.store.SameBut ref w'.store := by
  cases b with
  | missing =>
    cases h
    exact .refl ref _
  | of span body =>
    rw [stepBlock] at h
    split at h
    · cases h
    · exact stepAt_sameBut hinv body href h
termination_by structural b

theorem stepAt_sameBut (hinv : invoke.Spares) (body : List Stmt) {loc : Location} {count skip : Nat}
    {w w' : World} {r : Stepped} {ref : Nat} (href : w.store.loops? scope = some ref)
    (h : stepAt host invoke scope loc count skip body w = .ok r w') :
    w.store.SameBut ref w'.store := by
  cases body with
  | nil =>
    cases skip <;> cases h <;> exact .refl ref _
  | cons s rest =>
    cases skip with
    | succ skip =>
      rw [stepAt] at h
      exact stepAt_sameBut hinv rest href h
    | zero =>
      rw [stepAt] at h
      obtain ⟨q, w₁, hq, hp⟩ := bind_eq_ok h
      have hsame := stepStmt_sameBut hinv s href hq
      split at hp <;> cases hp <;> exact hsame
termination_by structural body

end

/-- Of two lists of what is left to do, the first is behind the second at the first place where they
differ. -/
abbrev Behind : List Nat → List Nat → Prop := List.Lex (· < ·)

/-- The outermost frames, as many as a place is nested in, are those of loops with a count. -/
def Tame (frames : LoopStack) (depth : Nat) : Prop := ∀ f ∈ frames.take depth, f.forever = false

theorem tame_zero (frames : LoopStack) : Tame frames 0 := by
  rw [Tame, List.take_zero]
  exact fun _ hf => absurd hf List.not_mem_nil

theorem tame_cons_iff {f : LoopFrame} {frames : LoopStack} {depth : Nat} :
    Tame (f :: frames) (depth + 1) ↔ f.forever = false ∧ Tame frames depth := by
  simp [Tame]

theorem Store.frames_of_loops {s : Store} {ref : Nat} (h : s.loops? scope = some ref) :
    s.frames scope = s.stack ref := by
  rw [Store.frames, h]

theorem Store.lt_of_stack {s : Store} {ref : Nat} {f : LoopFrame} {frames : LoopStack}
    (h : s.stack ref = f :: frames) : ref < s.loopStacks.size := by
  by_contra hge
  rw [Store.stack_eq_nil_of_size_le (Nat.le_of_not_lt hge)] at h
  cases h

/-- After a step from a location: past it, or still there with less to do. -/
def Location.Advances (loc next : Location) (before after : Location → List Nat) : Prop :=
  next = loc.past ∨ next.head = loc.head ∧ Behind (after next.below) (before loc.below)

theorem Location.head_ne_nil {l : Location} (h : l.head ≠ 0) : l.isEmpty = false := by
  cases l with
  | nil => exact absurd rfl h
  | cons => rfl

section Parts

variable {span : Span} {condition count : Expr} {thenBlock elseBlock body : Block} {path : Location}
  {due : Nat → Nat} {level : Nat}

theorem Stmt.togo_then (h : path.head = 1) :
    (Stmt.branch span condition thenBlock elseBlock).togo due level path =
      0 :: thenBlock.togo due level path := by
  rw [Stmt.togo, if_neg (by rw [h]; decide), if_pos h]

theorem Stmt.togo_else (h : path.head = 2) :
    (Stmt.branch span condition thenBlock elseBlock).togo due level path =
      0 :: elseBlock.togo due level path := by
  rw [Stmt.togo, if_neg (by rw [h]; decide), if_neg (by rw [h]; decide)]

theorem Stmt.nesting_then (h : path.head = 1) :
    (Stmt.branch span condition thenBlock elseBlock).nesting path = thenBlock.nesting path := by
  rw [Stmt.nesting, if_neg (by rw [h]; decide), if_pos h]

theorem Stmt.nesting_else (h : path.head = 2) :
    (Stmt.branch span condition thenBlock elseBlock).nesting path = elseBlock.nesting path := by
  rw [Stmt.nesting, if_neg (by rw [h]; decide), if_neg (by rw [h]; decide)]

theorem Stmt.togo_round (h : path.head = 1) : (Stmt.times span count body).togo due level path =
      0 :: due level :: body.togo due (level + 1) path := by
  rw [Stmt.togo, if_neg (by simp [Location.head_ne_nil (h ▸ one_ne_zero)])]

theorem Stmt.nesting_round (h : path.head = 1) :
    (Stmt.times span count body).nesting path = body.nesting path + 1 := by
  rw [Stmt.nesting, if_neg (by simp [Location.head_ne_nil (h ▸ one_ne_zero)])]

/-- A branch that is entered does not lead into a loop yet. -/
theorem enterBranch_tame {loc : Location} {w w' : World}
    (h : enterBranch host invoke scope condition loc w = .ok path w')
    (htame : Tame (w.store.frames scope)
      ((Stmt.branch span condition thenBlock elseBlock).nesting loc)) :
    Tame (w'.store.frames scope) ((Stmt.branch span condition thenBlock elseBlock).nesting path) := by
  obtain ⟨-, rfl | rfl, -⟩ | ⟨-, rfl, rfl⟩ := enterBranch_cases h
  · rw [Stmt.nesting_then rfl, Block.nesting_start]
    exact tame_zero _
  · rw [Stmt.nesting_else rfl, Block.nesting_start]
    exact tame_zero _
  · exact htame

theorem tame_taken {s : Store} {ref : Nat} {frame : LoopFrame} {frames : LoopStack}
    (h : path.head = 1) (href : s.loops? scope = some ref) (hstack : s.stack ref = frame :: frames)
    (htame : Tame (s.frames scope) ((Stmt.times span count body).nesting path)) :
    frame.forever = false ∧ Tame ((s.setStack ref frames).frames scope) (body.nesting path) := by
  rw [Stmt.nesting_round h, Store.frames_of_loops href, hstack, tame_cons_iff] at htame
  have href₁ : (s.setStack ref frames).loops? scope = some ref := href
  rw [Store.frames_of_loops href₁, Store.stack_setStack_self (Store.lt_of_stack hstack)]
  exact htame

end Parts

theorem Location.leave_advances {loc path : Location} {child : Int} {q : Stepped}
    {before after : Location → List Nat} (hpath : path.head = child)
    (h : q.next = path.past ∨ q.next.head = path.head ∧ Behind (after q.next) (before loc.below)) :
    loc.Advances (loc.leave child q).next before after := by
  rw [Location.leave]
  obtain hpast | ⟨hhead, hbehind⟩ := h
  · have hlt : q.next.head > child := by
      rw [hpast, Location.past, Location.head, hpath]
      omega
    rw [if_pos hlt]
    exact .inl rfl
  · rw [if_neg (by omega)]
    exact .inr ⟨rfl, hbehind⟩

/-- A step in the block from a place among loops with a count gets past it, or it leaves less to do there.
The frames in `top` have been taken off on the way. -/
def Block.GetsOn (host : Host) (invoke : Invoke) (scope : ScopeId) (b : Block) : Prop :=
  ∀ (ref : Nat) (top : LoopStack) {loc : Location} {w w' : World} {r : Stepped},
    (top = [] ∨ w.store.loops? scope = some ref) → Tame (w.store.frames scope) (b.nesting loc) →
    stepBlock host invoke scope loc b w = .ok r w' →
    r.next = loc.past ∨ r.next.head = loc.head ∧
      Behind (b.togo (w'.store.under ref top).due top.length r.next)
        (b.togo (w.store.under ref top).due top.length loc)

section Parts

variable {ref : Nat} {top : LoopStack} {loc : Location} {w w₁ w' : World} {q r : Stepped}

/-- The condition comes before all that is left to do in a block of the branch; from a place in the block
the branch gets on as the block does. -/
theorem intoBlock_advances {s : Stmt} {b : Block} {child : Int} {path : Location}
    (hb : b.GetsOn host invoke scope)
    (htogo : ∀ {due : Nat → Nat} {level : Nat} {path : Location}, path.head = child →
      s.togo due level path = 0 :: b.togo due level path)
    (hcur : top = [] ∨ w₁.store.loops? scope = some ref)
    (htame : Tame (w₁.store.frames scope) (b.nesting path)) (hchild : path.head = child)
    (hbefore : s.togo (w.store.under ref top).due top.length loc.below = [1] ∨
      path = loc.below ∧ w₁ = w)
    (hq : stepBlock host invoke scope path b w₁ = .ok q w') :
    loc.Advances (loc.leave child q).next
      (fun path => s.togo (w.store.under ref top).due top.length path)
      (fun path => s.togo (w'.store.under ref top).due top.length path) := by
  refine Location.leave_advances hchild ((hb ref top hcur htame hq).imp_right fun hnext => ?_)
  obtain ⟨hhead, hbehind⟩ := hnext
  refine ⟨hhead, ?_⟩
  rw [htogo (hhead.trans hchild)]
  obtain hentry | ⟨rfl, rfl⟩ := hbefore
  · rw [hentry]
    exact .rel Nat.zero_lt_one
  · rw [htogo hchild]
    exact .cons hbehind

theorem branch_advances (hinv : invoke.Spares) {span : Span} {condition : Expr} {thenBlock elseBlock : Block}
    (hthen : thenBlock.GetsOn host invoke scope) (helse : elseBlock.GetsOn host invoke scope)
    (hcur : top = [] ∨ w.store.loops? scope = some ref)
    (htame : Tame (w.store.frames scope)
      ((Stmt.branch span condition thenBlock elseBlock).nesting loc.below))
    (h : stepStmt host invoke scope loc (.branch span condition thenBlock elseBlock) w = .ok r w') :
    loc.Advances r.next
      (fun path => (Stmt.branch span condition thenBlock elseBlock).togo
        (w.store.under ref top).due top.length path)
      (fun path => (Stmt.branch span condition thenBlock elseBlock).togo
        (w'.store.under ref top).due top.length path) := by
  obtain ⟨path, w₁, henter, hcases⟩ := stepBranch_cases h
  have hcur₁ : top = [] ∨ w₁.store.loops? scope = some ref := hcur.imp_right fun href =>
    ((enterBranch_spares hinv condition loc.below).ok henter).loops?_eq not_false href
  have htame₁ := enterBranch_tame henter htame
  have hbefore : (Stmt.branch span condition thenBlock elseBlock).togo
      (w.store.under ref top).due top.length loc.below = [1] ∨ path = loc.below ∧ w₁ = w := by
    refine (enterBranch_cases henter).imp (fun hentry => ?_) And.right
    rw [Stmt.togo, if_pos hentry.1]
  obtain ⟨hchild, q, hq, rfl⟩ | ⟨-, hpast, -⟩ | ⟨hchild, q, hq, rfl⟩ := hcases
  · rw [Stmt.nesting_then hchild] at htame₁
    exact intoBlock_advances hthen Stmt.togo_then hcur₁ htame₁ hchild hbefore hq
  · exact .inl hpast
  · rw [Stmt.nesting_else hchild] at htame₁
    exact intoBlock_advances helse Stmt.togo_else hcur₁ htame₁ hchild hbefore hq

section Loop

variable {span : Span} {count : Expr} {body : Block} {ref' : Nat} {frame : LoopFrame}
  {frames : LoopStack}

/-- A loop that a step enters has its rounds before it. -/
theorem firstRound_advances (hbody : body.GetsOn host invoke scope) (hentry : loc.below = [])
    {w₂ : World} (hq : stepBlock host invoke scope [1, 0] body w₁ = .ok q w₂)
    (hresume : resumeLoop ref' frame loc q w₂ = .ok r w') :
    loc.Advances r.next
      (fun path => (Stmt.times span count body).togo (w.store.under ref top).due top.length path)
      (fun path => (Stmt.times span count body).togo (w'.store.under ref top).due top.length path) := by
  have hbefore : (Stmt.times span count body).togo (w.store.under ref top).due top.length
      loc.below = [1] := by
    rw [Stmt.togo, hentry]
    rfl
  have hbehind (path : Location) (hpath : path.head = 1) :
      Behind ((Stmt.times span count body).togo (w'.store.under ref top).due top.length path) [1] := by
    rw [Stmt.togo_round hpath]
    exact .rel Nat.zero_lt_one
  have htame : Tame (w₁.store.frames scope) (body.nesting [1, 0]) := by
    rw [Block.nesting_start]
    exact tame_zero _
  have hshape := hbody ref [] (.inl rfl) htame hq
  rw [Location.Advances, hbefore]
  obtain ⟨hle, hnext, -⟩ | ⟨hpast, -⟩ | ⟨-, hnext, -⟩ := resumeLoop_cases hresume
  · obtain hpast | ⟨hhead, -⟩ := hshape
    · rw [hpast] at hle
      cases hle
    · rw [hnext]
      exact .inr ⟨rfl, hbehind q.next hhead⟩
  · exact .inl hpast
  · rw [hnext]
    exact .inr ⟨rfl, hbehind [1, 0] rfl⟩

/-- Within a loop the frame at its depth is the one on top; it is put back, or the next one is. -/
theorem round_advances (hinv : invoke.Spares) (hbody : body.GetsOn host invoke scope)
    (htame : Tame (w.store.frames scope) ((Stmt.times span count body).nesting loc.below))
    (hchild : loc.below.head = 1) (href : w.store.loops? scope = some ref)
    (hstack : w.store.stack ref = frame :: frames)
    (hq : stepBlock host invoke scope loc.below body
      { w with store := w.store.setStack ref frames } = .ok q w₁)
    (hresume : resumeLoop ref frame loc q w₁ = .ok r w') :
    loc.Advances r.next
      (fun path => (Stmt.times span count body).togo (w.store.under ref top).due top.length path)
      (fun path => (Stmt.times span count body).togo (w'.store.under ref top).due top.length path) := by
  have hlt : ref < w.store.loopStacks.size := Store.lt_of_stack hstack
  have href₁ : (w.store.setStack ref frames).loops? scope = some ref := href
  obtain ⟨hframe, htame₁⟩ := tame_taken hchild href hstack htame
  let taken : World := { w with store := w.store.setStack ref frames }
  have hround := hbody ref (top ++ [frame]) (w := taken) (.inr href₁) htame₁ hq
  have hsame : w.store.SameBut ref w₁.store := (w.store.sameBut_setStack ref frames).trans
    (stepBlock_sameBut hinv body (w := taken) href₁ hq)
  have hlt₁ : ref < w₁.store.loopStacks.size := hsame.size.symm ▸ hlt
  have hlevel : ((w.store.under ref top).stack ref)[top.length]? = some frame := by
    rw [← Store.under_pop hlt hstack]
    exact Store.getElem?_under (by simpa [Store.setStack] using hlt) top
  rw [Location.Advances, Stmt.togo_round hchild]
  obtain ⟨hle, hnext, rfl⟩ | ⟨hpast, -⟩ | ⟨hgoes, hnext, rfl⟩ := resumeLoop_cases hresume
  · obtain hpast | ⟨hhead, hbehind⟩ := hround
    · rw [hpast, Location.past, Location.head, hchild] at hle
      omega
    · rw [hnext]
      refine .inr ⟨rfl, ?_⟩
      have hdue : (w₁.store.under ref (top ++ [frame])).due top.length =
          (w.store.under ref top).due top.length :=
        (hsame.under top (top ++ [frame])).due_eq
          ((Store.getElem?_under hlt₁ top).trans hlevel.symm)
      have hbelow : Location.below (loc.head :: q.next) = q.next := rfl
      rw [Store.under_push hlt₁, hbelow, Stmt.togo_round (hhead.trans hchild), hdue]
      rw [List.length_append, Store.under_pop hlt hstack] at hbehind
      exact .cons (.cons hbehind)
  · exact .inl hpast
  · rw [hnext]
    refine .inr ⟨rfl, ?_⟩
    have hdue : (w₁.store.under ref (top ++ [frame.next])).due top.length <
        (w.store.under ref top).due top.length :=
      (hsame.under top (top ++ [frame.next])).due_lt (by simpa [Store.under, Store.setStack] using hlt)
        hlevel (Store.getElem?_under hlt₁ top) (LoopFrame.left_next_lt hframe hgoes)
    have hbelow : Location.below [loc.head, 1, 0] = [1, 0] := rfl
    rw [Store.under_push hlt₁, hbelow, Stmt.togo_round rfl]
    exact .cons (.rel hdue)

end Loop

end Parts

mutual

/-- A step from a place among loops with a count gets past the statement, or it leaves less to do
there. The frames in `top` have been taken off on the way. -/
theorem stepStmt_advances (hinv : invoke.Spares) (s : Stmt) (ref : Nat) (top : LoopStack)
    {loc : Location} {w w' : World} {r : Stepped}
    (hcur : top = [] ∨ w.store.loops? scope = some ref)
    (htame : Tame (w.store.frames scope) (s.nesting loc.below))
    (h : stepStmt host invoke scope loc s w = .ok r w') :
    loc.Advances r.next (fun path => s.togo (w.store.under ref top).due top.length path)
      (fun path => s.togo (w'.store.under ref top).due top.length path) := by
  cases s with
  | missing | set | call => exact .inl (atomic_cases rfl h).1
  | branch span condition thenBlock elseBlock =>
    exact branch_advances hinv (stepBlock_advances hinv thenBlock) (stepBlock_advances hinv elseBlock)
      hcur htame h
  | times span count body =>
    have hbody : body.GetsOn host invoke scope := stepBlock_advances hinv body
    obtain ⟨hentry, frame, w₁, -, hcases⟩ |
      ⟨hchild, ref', frame, frames, q, w₁, href', hstack, hq, hresume⟩ := stepTimes_cases h
    · obtain ⟨-, hpast, -⟩ | ⟨ref', w₂, q, w₃, -, -, hq, hresume⟩ := hcases
      · exact .inl hpast
      · exact firstRound_advances hbody hentry hq hresume
    · -- nothing has been taken off, or it was taken off the same stack
      have hunder (s : Store) : s.under ref top = s.under ref' top := by
        obtain rfl | href := hcur
        · rw [Store.under_nil, Store.under_nil]
        · rw [Option.some.inj (href.symm.trans href')]
      rw [hunder w.store, hunder w'.store]
      exact round_advances hinv hbody htame hchild href' hstack hq hresume
termination_by structural s

theorem stepBlock_advances (hinv : invoke.Spares) (b : Block) : b.GetsOn host invoke scope := by
  intro ref top loc w w' r hcur htame h
  cases b with
  | missing =>
    cases h
    exact .inl rfl
  | of span body =>
    rw [stepBlock] at h
    split at h
    · cases h
    · next hindex =>
      have hfrom : loc.below.head = (0 : Nat) + (loc.below.head.toNat : Nat) := by omega
      obtain hpast | ⟨hhead, skip, hskip, hbehind⟩ :=
        stepAt_advances hinv body ref top 0 hcur htame hfrom (by omega) h
      · exact .inl hpast
      · have htoNat : r.next.below.head.toNat = skip := by omega
        refine .inr ⟨hhead, ?_⟩
        rw [Block.togo, Block.togo, htoNat]
        exact hbehind
termination_by structural b

/-- The statements before those in `body` are `before` many. -/
theorem stepAt_advances (hinv : invoke.Spares) (body : List Stmt) (ref : Nat) (top : LoopStack)
    (before : Nat) {loc : Location} {count skip : Nat} {w w' : World} {r : Stepped}
    (hcur : top = [] ∨ w.store.loops? scope = some ref)
    (htame : Tame (w.store.frames scope) (Stmt.nestingAt loc.below.below skip body))
    (hfrom : loc.below.head = (before : Nat) + (skip : Nat)) (hcount : count = before + body.length)
    (h : stepAt host invoke scope loc count skip body w = .ok r w') :
    r.next = loc.past ∨ r.next.head = loc.head ∧ ∃ skip' : Nat,
      r.next.below.head = (before : Nat) + (skip' : Nat) ∧
      Behind (Stmt.togoAt (w'.store.under ref top).due top.length r.next.below.below skip' body)
        (Stmt.togoAt (w.store.under ref top).due top.length loc.below.below skip body) := by
  cases body with
  | nil => cases skip <;> cases h <;> exact .inl rfl
  | cons s rest =>
    rw [List.length_cons] at hcount
    cases skip with
    | succ skip =>
      rw [stepAt] at h
      obtain hpast | ⟨hhead, skip', hskip, hbehind⟩ := stepAt_advances hinv rest ref top
        (before + 1) hcur htame (by omega) (by omega) h
      · exact .inl hpast
      · exact .inr ⟨hhead, skip' + 1, by omega, hbehind⟩
    | zero =>
      rw [stepAt] at h
      obtain ⟨q, w₁, hq, hp⟩ := bind_eq_ok h
      have hstmt := stepStmt_advances hinv s ref top hcur htame hq
      split at hp
      · cases hp
        exact .inl rfl
      · next hinside =>
        cases hp
        obtain hpast | ⟨hhead, hbehind⟩ := hstmt
        · -- the next statement of the list
          rw [hpast, Location.past, Location.head] at hinside
          cases rest with
          | nil =>
            rw [List.length_nil] at hcount
            omega
          | cons s' rest =>
            refine .inr ⟨rfl, 1, ?_, ?_⟩
            · rw [hpast, Location.past]
              change loc.below.head + 1 = _
              omega
            · exact .rel (by simp)
        · refine .inr ⟨rfl, 0, ?_, .cons hbehind⟩
          change q.next.head = _
          omega
termination_by structural body

end

end

mutual

theorem Stmt.length_togo_le (due : Nat → Nat) (level : Nat) (path : Location) (s : Stmt) :
    (s.togo due level path).length ≤ 2 * sizeOf s := by
  cases s with
  | missing | set | call => exact Nat.zero_le _
  | branch span condition thenBlock elseBlock =>
    have hthen := thenBlock.length_togo_le due level path
    have helse := elseBlock.length_togo_le due level path
    rw [Stmt.togo, Stmt.branch.sizeOf_spec]
    split
    · simp only [List.length_singleton]
      omega
    split
    · simp only [List.length_cons]
      omega
    · simp only [List.length_cons]
      omega
  | times span count body =>
    have hbody := body.length_togo_le due (level + 1) path
    rw [Stmt.togo, Stmt.times.sizeOf_spec]
    split
    · simp only [List.length_singleton]
      omega
    · simp only [List.length_cons]
      omega
termination_by structural s

theorem Block.length_togo_le (due : Nat → Nat) (level : Nat) (loc : Location) (b : Block) :
    (b.togo due level loc).length ≤ 2 * sizeOf b := by
  cases b with
  | missing => exact Nat.zero_le _
  | of span body =>
    have hbody := Stmt.length_togoAt_le due level loc.below.below loc.below.head.toNat body
    rw [Block.togo, Block.of.sizeOf_spec]
    omega
termination_by structural b

theorem Stmt.length_togoAt_le (due : Nat → Nat) (level : Nat) (path : Location) (skip : Nat)
    (body : List Stmt) : (Stmt.togoAt due level path skip body).length ≤ 2 * sizeOf body := by
  cases body with
  | nil => cases skip <;> exact Nat.zero_le _
  | cons s rest =>
    rw [List.cons.sizeOf_spec]
    cases skip with
    | zero =>
      have hstmt := s.length_togo_le due level path
      rw [Stmt.togoAt, List.length_cons]
      omega
    | succ skip =>
      have hrest := Stmt.length_togoAt_le due level path skip rest
      rw [Stmt.togoAt]
      omega
termination_by structural body

end

/-- There is no endless descent through lists of bounded length. -/
theorem acc_behind (n : Nat) :
    ∀ l : List Nat, l.length ≤ n → Acc (fun a b => a.length ≤ n ∧ Behind a b) l := by
  induction n with
  | zero =>
    intro l hl
    obtain rfl := List.length_eq_zero_iff.mp (Nat.le_zero.mp hl)
    exact ⟨_, fun a ha => absurd ha.2 List.not_lex_nil⟩
  | succ n ih =>
    have hnil : Acc (fun a b => a.length ≤ n + 1 ∧ Behind a b) [] :=
      ⟨_, fun a ha => absurd ha.2 List.not_lex_nil⟩
    have hcons (x : Nat) : ∀ l : List Nat, l.length ≤ n →
        Acc (fun a b => a.length ≤ n + 1 ∧ Behind a b) (x :: l) := by
      induction x using Nat.strongRecOn with
      | ind x ihx =>
        intro l hl
        induction ih l hl with
        | intro l _ ihl =>
          refine ⟨_, fun a ha => ?_⟩
          obtain ⟨hlen, hbehind⟩ := ha
          cases hbehind with
          | nil => exact hnil
          | rel hlt => exact ihx _ hlt _ (Nat.le_of_succ_le_succ hlen)
          | cons hrest =>
            have hlen := Nat.le_of_succ_le_succ hlen
            exact ihl _ ⟨hlen, hrest⟩ hlen
    intro l hl
    cases l with
    | nil => exact hnil
    | cons x l => exact hcons x l (Nat.le_of_succ_le_succ hl)

end Stepwise
