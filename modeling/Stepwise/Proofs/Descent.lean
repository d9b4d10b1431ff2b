import Stepwise.Proofs.Fitting

/-! A step from a location is a step from the position that the location stands for. The frames on the
loop stack are those of the position, so what a step takes off on its way down is what the position
knows of the loops around it, and what it puts back belongs to the next position. -/

namespace Stepwise

open Execution

variable {host : Host} {invoke : Invoke} {scope : ScopeId} {w : World} {loc : Location}

/-- A step has been made: the frames of the next place go on the loop stack, and its path is where the
next step starts. -/
def settle {κ : Type} (scope : ScopeId) (loc : Location) (path : κ → Location)
    (frames : κ → LoopStack) (mv : Moved κ) : Execution Stepped := fun w =>
  match mv.next with
  | none => .ok ⟨mv.value, loc.past⟩ w
  | some c => .ok ⟨mv.value, loc.head :: path c⟩ (w.withFrames scope (frames c))

theorem settle_none {κ : Type} {path : κ → Location} {frames : κ → LoopStack} (v : Value) :
    settle scope loc path frames ⟨v, none⟩ w = .ok ⟨v, loc.past⟩ w := rfl

theorem settle_some {κ : Type} {path : κ → Location} {frames : κ → LoopStack} (v : Value) (c : κ) :
    settle scope loc path frames ⟨v, some c⟩ w =
      .ok ⟨v, loc.head :: path c⟩ (w.withFrames scope (frames c)) := rfl

/-- The number of a branch among the children of its statement. -/
def branchChild (truthy : Bool) : Int := if truthy then 1 else 2

theorem settle_branch {inside : Location} {truthy : Bool} (hhead : inside.head = branchChild truthy)
    (mv : Moved Spot) :
    (do
      let s ← settle scope inside Spot.path Spot.frames mv
      return loc.leave (branchChild truthy) s : Execution Stepped) w =
      settle scope loc Position.path Position.frames
        (mv.within (Spot.inBranch truthy) leaveBranch) w := by
  obtain ⟨v, next⟩ := mv
  cases next with
  | none =>
    rw [bind_ok (settle_none v), Location.leave, Location.past, hhead]
    rw [if_pos (by simp only [Location.head]; omega)]
    rfl
  | some c =>
    rw [bind_ok (settle_some v c), Location.leave, hhead]
    rw [if_neg (by simp only [Location.head]; omega)]
    cases truthy <;> rfl

theorem settle_round {inside : Location} {ref : Nat} (hw : w.store.Ready scope)
    (hloops : w.store.loops? scope = some ref) (hhead : inside.head = 1) (frame : LoopFrame)
    (mv : Moved Spot) :
    (settle scope inside Spot.path Spot.frames mv >>= resumeLoop ref frame loc) w =
      settle scope loc Position.path Position.frames
        (mv.within (Spot.inLoop frame) (leaveRound frame)) w := by
  obtain ⟨v, next⟩ := mv
  cases next with
  | none =>
    rw [bind_ok (settle_none v), resumeLoop, Location.past, hhead, if_neg (by simp [Location.head]),
      Moved.within, leaveRound]
    split
    · rfl
    · have hpush := LoopStack.push_withFrames hw hloops frame.next []
      rw [World.withFrames_nil] at hpush
      rw [bind_ok hpush]
      rfl
  | some c =>
    rw [bind_ok (settle_some v c), resumeLoop, hhead, if_pos (by simp [Location.head])]
    rw [bind_ok (LoopStack.push_withFrames hw hloops frame c.frames)]
    rfl

theorem settle_stmt {count index : Nat} (hhead : loc.below.head = index) (hlt : index < count)
    (mv : Moved Position) :
    (do
      let r ← settle scope loc.below Position.path Position.frames mv
      if r.next.head ≥ count then return ⟨r.value, loc.past⟩
      else return ⟨r.value, loc.head :: r.next⟩ : Execution Stepped) w =
      settle scope loc Spot.path Spot.frames
        (mv.within (Spot.mk index) (leaveStmt count index)) w := by
  obtain ⟨v, next⟩ := mv
  cases next with
  | none =>
    rw [bind_ok (settle_none v), Location.past, hhead, Moved.within, leaveStmt]
    by_cases h : count ≤ index + 1
    · rw [if_pos (by simp only [Location.head]; omega), if_pos h]
      rfl
    · rw [if_neg (by simp only [Location.head]; omega), if_neg h, settle_some]
      simp [Spot.frames, Position.frames, Spot.path, Position.path, pure, EStateM.pure]
  | some p =>
    rw [bind_ok (settle_some v p), hhead]
    rw [if_neg (by simp only [Location.head]; omega)]
    rfl

theorem bind_eq_bind {α β γ : Type} {x : Execution α} {y : Execution β} {g : β → Execution α}
    {f : α → Execution γ} {h : β → Execution γ} {w₀ : World} (hx : x w₀ = (y >>= g) w)
    (hf : ∀ b w', y w = .ok b w' → (g b >>= f) w' = h b w') : (x >>= f) w₀ = (y >>= h) w := by
  cases hy : y w with
  | error e w' =>
    rw [bind_error hy] at hx ⊢
    rw [bind_error hx]
  | ok b w' =>
    rw [bind_ok hy] at hx ⊢
    rw [← hf b w' hy]
    simp only [bind, EStateM.bind, hx]

/-- A step in the block from a location is one from the place that the location stands for. -/
def Block.StepsAsPlaced (host : Host) (invoke : Invoke) (scope : ScopeId) (b : Block) : Prop :=
  ∀ (c : Spot) (w : World) (loc : Location), w.store.Ready scope → c.Rests scope b w →
    loc.below.head = c.index → loc.below.below = c.inner.path →
      stepBlock host invoke scope loc b (w.withFrames scope c.frames) =
        (advanceBlock (markLoops scope) host invoke scope c b >>=
          settle scope loc Spot.path Spot.frames) w

def Stmt.StepsAsPlaced (host : Host) (invoke : Invoke) (scope : ScopeId) (s : Stmt) : Prop :=
  ∀ (p : Position) (w : World) (loc : Location), w.store.Ready scope → p.Rests scope s w →
    loc.below = p.path →
      stepStmt host invoke scope loc s (w.withFrames scope p.frames) =
        (advanceStmt (markLoops scope) host invoke scope p s >>=
          settle scope loc Position.path Position.frames) w

theorem Block.StepsAsPlaced.start {b : Block} (h : b.StepsAsPlaced host invoke scope)
    (hw : w.store.Ready scope) (hb : b.isMissing = false) (child : Int) :
    stepBlock host invoke scope [child, 0] b w =
      (advanceBlock (markLoops scope) host invoke scope .start b >>=
        settle scope [child, 0] Spot.path Spot.frames) w := by
  have hstart := h .start w [child, 0] hw (Spot.rests_start hb) rfl rfl
  rwa [Spot.frames, Spot.start, Position.frames, World.withFrames_nil] at hstart

theorem stepBranch_eq {block : Block} {c : Spot} {inside : Location} {w₀ : World} (truthy : Bool)
    (hhead : inside.head = branchChild truthy)
    (hblock : stepBlock host invoke scope inside block w₀ =
      (advanceBlock (markLoops scope) host invoke scope c block >>=
        settle scope inside Spot.path Spot.frames) w) :
    (do return loc.leave (branchChild truthy) (← stepBlock host invoke scope inside block)) w₀ =
      (Moved.within (Spot.inBranch truthy) leaveBranch <$>
          advanceBlock (markLoops scope) host invoke scope c block >>=
        settle scope loc Position.path Position.frames) w := by
  rw [bind_map_left]
  exact bind_eq_bind hblock fun mv w' _ => settle_branch hhead mv

theorem enterBranch_entry (condition : Expr) :
    enterBranch host invoke scope condition [] = (do
      let v ← evalExpr host invoke scope condition
      return if v.isTruthy then [1, 0] else [2, 0]) := rfl

theorem enterBranch_inside {condition : Expr} {path : Location} (h : path.head ≠ 0) :
    enterBranch host invoke scope condition path = pure path := by
  rw [enterBranch, if_neg h]

theorem branch_stepsAsPlaced {thenBlock elseBlock : Block} (hinv : invoke.Spares) (span : Span)
    (condition : Expr) (hthen : thenBlock.StepsAsPlaced host invoke scope)
    (helse : elseBlock.StepsAsPlaced host invoke scope) :
    (Stmt.branch span condition thenBlock elseBlock).StepsAsPlaced host invoke scope := by
  intro p w loc hw hp hloc
  cases p with
  | inLoop => exact hp.1.elim
  | inBranch truthy index inner =>
    obtain ⟨⟨hcomplete, hfits⟩, hcarries⟩ := hp
    have hmove : advanceStmt (markLoops scope) host invoke scope (.inBranch truthy index inner)
        (.branch span condition thenBlock elseBlock) = _ :=
      advanceStmt_inBranch hcomplete truthy ⟨index, inner⟩
    rw [stepStmt, if_neg (by simp [hcomplete]), hmove, advanceBranch]
    cases truthy with
    | true =>
      have hloc : loc.below = (1 : Int) :: (index : Int) :: inner.path := hloc
      rw [hloc, enterBranch_inside (by simp [Location.head]), pure_bind]
      exact stepBranch_eq true rfl (hthen ⟨index, inner⟩ w _ hw ⟨hfits, hcarries⟩ rfl rfl)
    | false =>
      have hloc : loc.below = (2 : Int) :: (index : Int) :: inner.path := hloc
      have hfits : Spot.Fits ⟨index, inner⟩ elseBlock := hfits
      rw [hloc, enterBranch_inside (by simp [Location.head]), pure_bind, hfits.not_missing]
      exact stepBranch_eq false rfl (helse ⟨index, inner⟩ w _ hw ⟨hfits, hcarries⟩ rfl rfl)
  | entry =>
    have hloc : loc.below = [] := hloc
    rw [Position.frames, World.withFrames_nil]
    cases hcomplete : condition.isMissing || thenBlock.isMissing with
    | true =>
      rw [advanceStmt_branch_incomplete hcomplete, stepStmt, if_pos hcomplete]
      rfl
    | false =>
      rw [advanceStmt_branch_entry hcomplete, stepStmt, if_neg (by simp [hcomplete]), hloc,
        enterBranch_entry, bind_assoc, bind_assoc]
      cases hv : evalExpr host invoke scope condition w with
      | error e w₁ => rw [bind_error hv, bind_error hv]
      | ok v w₁ =>
        have hw₁ := ((evalExpr_holds hinv condition).ok hw.scope_lt hv).ready hw
        rw [bind_ok hv, bind_ok hv, pure_bind, advanceBranch]
        cases v.isTruthy with
        | true =>
          rw [Bool.or_eq_false_iff] at hcomplete
          exact stepBranch_eq true rfl (hthen.start hw₁ hcomplete.2 1)
        | false =>
          cases hpresent : elseBlock.isMissing with
          | true => rfl
          | false => exact stepBranch_eq false rfl (helse.start hw₁ hpresent 2)

theorem stepRound_eq {body : Block} {frame : LoopFrame} {c : Spot} {inside : Location} {ref : Nat}
    {w₀ : World} (hinv : invoke.Spares) (hnames : loopBinding ∉ body.names)
    (hw : w.store.Ready scope) (hloops : w.store.loops? scope = some ref) (hhead : inside.head = 1)
    (hblock : stepBlock host invoke scope inside body w₀ =
      (advanceBlock (markLoops scope) host invoke scope c body >>=
        settle scope inside Spot.path Spot.frames) w) :
    (stepBlock host invoke scope inside body >>= resumeLoop ref frame loc) w₀ =
      (advanceRound (markLoops scope) host invoke scope body frame c >>=
        settle scope loc Position.path Position.frames) w := by
  rw [advanceRound, bind_map_left]
  refine bind_eq_bind hblock fun mv w' hmv => ?_
  have hholds := (advanceBlock_holds hinv c body hnames).ok hw.scope_lt hmv
  exact settle_round (hholds.ready hw) (hholds.bound ref hloops) hhead frame mv

theorem takeFrame_withFrames {ref : Nat} (hw : w.store.Ready scope)
    (hloops : w.store.loops? scope = some ref) (span : Span) (frame : LoopFrame)
    (frames : LoopStack) :
    takeFrame scope span loc none (w.withFrames scope (frame :: frames)) =
      .ok (ref, frame) (w.withFrames scope frames) := by
  have hloops' : (w.withFrames scope (frame :: frames)).store.loops? scope = some ref :=
    (w.store.loops?_withFrames scope (frame :: frames)).trans hloops
  rw [takeFrame, bind_ok (LoopStack.ensure_of_loops hloops')]
  exact bind_ok (LoopStack.pop?_withFrames hw hloops frame frames)

theorem times_stepsAsPlaced {body : Block} (hinv : invoke.Spares) (span : Span) (count : Expr)
    (hnames : loopBinding ∉ body.names) (hbody : body.StepsAsPlaced host invoke scope) :
    (Stmt.times span count body).StepsAsPlaced host invoke scope := by
  intro p w loc hw hp hloc
  cases p with
  | inBranch => exact hp.1.elim
  | inLoop frame index inner =>
    obtain ⟨⟨-, -, hfits⟩, hcarries⟩ := hp
    have hfits : Spot.Fits ⟨index, inner⟩ body := hfits
    have hpresent := hfits.not_missing
    have hloc : loc.below = (1 : Int) :: (index : Int) :: inner.path := hloc
    obtain ⟨ref, hloops⟩ := Option.isSome_iff_exists.mp (hcarries (by simp [Position.frames]))
    have hmove : advanceStmt (markLoops scope) host invoke scope (.inLoop frame index inner)
        (.times span count body) = _ := advanceStmt_inLoop hpresent frame ⟨index, inner⟩
    have hrests : Spot.Rests scope body w ⟨index, inner⟩ := ⟨hfits, fun _ => by rw [hloops]; rfl⟩
    rw [stepStmt, if_neg (by simp [hpresent]), if_neg (by simp [hloc]),
      if_neg (by simp [hloc, Location.head]), hmove, Position.frames,
      bind_ok (takeFrame_withFrames hw hloops span frame inner.frames), hloc]
    exact stepRound_eq hinv hnames hw hloops rfl (hbody ⟨index, inner⟩ w _ hw hrests rfl rfl)
  | entry =>
    have hloc : loc.below = [] := hloc
    rw [Position.frames, World.withFrames_nil]
    cases hpresent : body.isMissing with
    | true =>
      rw [advanceStmt, stepStmt, if_pos hpresent, if_pos hpresent]
      rfl
    | false =>
      rw [advanceStmt_times_entry hpresent, stepStmt, if_neg (by simp [hpresent]),
        if_pos (by rw [hloc]; rfl), bind_assoc]
      cases hstart : startLoop host invoke scope span count body w with
      | error e w₁ => rw [bind_error hstart, bind_error hstart]
      | ok frame w₁ =>
        have hw₁ := ((startLoop_holds span count body).ok hw.scope_lt hstart).ready hw
        rw [bind_ok hstart, bind_ok hstart]
        split
        · rfl
        obtain ⟨ref, w₂, hens, hmark, hloops⟩ := markLoops_ok hw₁.scope_lt
        have hw₂ := ((holds_markLoops scope).ok hw₁.scope_lt hmark).ready hw₁
        have htake : takeFrame scope span loc (some frame) w₁ = .ok (ref, frame) w₂ := by
          rw [takeFrame, bind_ok hens]
          rfl
        rw [bind_ok htake, bind_assoc, bind_ok hmark]
        exact stepRound_eq hinv hnames hw₂ hloops rfl (hbody.start hw₂ hpresent 1)

mutual

theorem stmt_stepsAsPlaced (hinv : invoke.Spares) (s : Stmt) (hs : loopBinding ∉ s.names) :
    s.StepsAsPlaced host invoke scope := by
  cases s with
  | missing | set | call =>
    intro p w loc hw hp hloc
    cases p with
    | entry =>
      rw [stepStmt_atomic rfl, advanceStmt_atomic rfl, bind_map_left, Position.frames,
        World.withFrames_nil]
      rfl
    | inBranch | inLoop => exact hp.1.elim
  | branch sp condition thenBlock elseBlock =>
    simp only [Stmt.names, List.mem_append, not_or] at hs
    exact branch_stepsAsPlaced hinv sp condition (block_stepsAsPlaced hinv thenBlock hs.2.1)
      (block_stepsAsPlaced hinv elseBlock hs.2.2)
  | times sp count body =>
    simp only [Stmt.names, List.mem_append, not_or] at hs
    exact times_stepsAsPlaced hinv sp count hs.2 (block_stepsAsPlaced hinv body hs.2)

theorem block_stepsAsPlaced (hinv : invoke.Spares) (b : Block) (hb : loopBinding ∉ b.names) :
    b.StepsAsPlaced host invoke scope := by
  intro c w loc hw hc hhead hbelow
  cases b with
  | missing => cases hc.1.not_missing
  | of sp body =>
    rw [stepBlock, if_neg (by omega), hhead, Int.toNat_natCast]
    obtain ⟨⟨s, hs, hfits⟩ | ⟨-, hnil, -, hentry⟩, hcarries⟩ := hc
    · have hlt : c.index < body.length := (List.getElem?_eq_some_iff.mp hs).1
      exact stepAt_eq hinv body hb hw ⟨s, hs, hfits, hcarries⟩ hhead hbelow hlt
    · have hnil : body = [] := hnil
      subst hnil
      have hframes : c.frames = [] := by rw [Spot.frames, hentry, Position.frames]
      rw [hframes, World.withFrames_nil]
      cases c.index <;> rfl

theorem stepAt_eq (hinv : invoke.Spares) (body : List Stmt)
    (hbody : loopBinding ∉ Stmt.namesOf body) {c : Spot} {w : World} {loc : Location}
    {count skip : Nat} (hw : w.store.Ready scope)
    (hc : ∃ s, body[skip]? = some s ∧ c.inner.Rests scope s w)
    (hhead : loc.below.head = c.index) (hbelow : loc.below.below = c.inner.path)
    (hlt : c.index < count) :
    stepAt host invoke scope loc count skip body (w.withFrames scope c.frames) =
      (advanceAt (markLoops scope) host invoke scope c count skip body >>=
        settle scope loc Spot.path Spot.frames) w := by
  cases body with
  | nil =>
    obtain ⟨s, hs, -⟩ := hc
    simp at hs
  | cons stmt rest =>
    simp only [Stmt.namesOf, List.mem_append, not_or] at hbody
    cases skip with
    | zero =>
      obtain ⟨s, hs, hrests⟩ := hc
      cases hs
      rw [stepAt, advanceAt, bind_map_left]
      have hstmt := stmt_stepsAsPlaced hinv stmt hbody.1 c.inner w loc.below hw hrests hbelow
      exact bind_eq_bind hstmt fun mv w' _ => settle_stmt hhead hlt mv
    | succ skip =>
      rw [stepAt, advanceAt]
      exact stepAt_eq hinv rest hbody.2 hw hc hhead hbelow hlt

end

end Stepwise
