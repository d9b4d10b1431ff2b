import Stepwise.Proofs.Frames

/-! Positions that fit a tree. Stepping goes from one fitting position to another: every index on the
way is that of a statement, or 0 in an empty block, and every frame is that of a loop which has rounds
left. -/

namespace Stepwise

open Execution

namespace LoopFrame

/-- A round of the loop is under way. -/
def Running (f : LoopFrame) : Prop := f.forever = true ∨ 0 ≤ f.iteration ∧ f.iteration < f.bound

/-- The frame is one that the count of the loop gives. -/
def CountedBy (f : LoopFrame) : Expr → Prop
  | .forever _ => f.forever = true
  | .number _ n => f.forever = false ∧ f.bound = n
  | .symbol _ => f.forever = false
  | _ => False

theorem CountedBy.next {f : LoopFrame} {count : Expr} (h : f.CountedBy count) :
    f.next.CountedBy count := by
  cases count <;> exact h

theorem lt_of_not_done {f : LoopFrame} (hf : f.forever = false) (hd : f.done = false) :
    f.iteration < f.bound := by
  have hle : decide (f.bound ≤ f.iteration) = false := by simpa [done, hf] using hd
  exact Int64.not_le.mp (of_decide_eq_false hle)

theorem running_of_counted {n : Int64} (h : (counted n).done = false) : (counted n).Running :=
  .inr ⟨Int64.le_refl 0, lt_of_not_done rfl h⟩

/-- An iteration below its bound can be counted up without wrapping around. -/
theorem Running.next {f : LoopFrame} (h : f.Running) (hd : f.next.done = false) : f.next.Running := by
  cases hf : f.forever with
  | true => exact .inl hf
  | false =>
    obtain hf' | ⟨hpos, hlt⟩ := h
    · rw [hf] at hf'
      cases hf'
    · refine .inr ⟨?_, lt_of_not_done hf hd⟩
      have hmax := f.bound.toInt_lt
      rw [Int64.le_iff_toInt_le] at hpos ⊢
      rw [Int64.lt_iff_toInt_lt] at hlt
      simp only [LoopFrame.next, Int64.toInt_add]
      rw [Int.bmod_eq_of_le]
      all_goals simp only [Int64.toInt_zero, Int64.toInt_one] at *
      all_goals omega

end LoopFrame

/-- A place at an index of a block: in the statement there, or in front of a block that is empty. -/
def Block.Admits (b : Block) (index : Nat) (inside : Stmt → Prop) (front : Prop) : Prop :=
  (∃ s, b.body[index]? = some s ∧ inside s) ∨ b.isMissing = false ∧ b.body = [] ∧ index = 0 ∧ front

def Position.Fits : Position → Stmt → Prop
  | .entry, _ => True
  | .inBranch truthy index inner, .branch _ condition thenBlock elseBlock =>
    (condition.isMissing || thenBlock.isMissing) = false ∧
      (if truthy then thenBlock else elseBlock).Admits index inner.Fits (inner = .entry)
  | .inLoop frame index inner, .times _ count body =>
    frame.Running ∧ frame.CountedBy count ∧ body.Admits index inner.Fits (inner = .entry)
  | _, _ => False

def Spot.Fits (c : Spot) (b : Block) : Prop := b.Admits c.index c.inner.Fits (c.inner = .entry)

theorem Spot.fits_start {b : Block} (h : b.isMissing = false) : Spot.start.Fits b := by
  cases hb : b.body with
  | nil => exact .inr ⟨h, hb, rfl, rfl⟩
  | cons s rest => exact .inl ⟨s, by rw [hb]; rfl, trivial⟩

theorem Spot.Fits.not_missing {c : Spot} {b : Block} (h : c.Fits b) : b.isMissing = false := by
  obtain ⟨s, hs, -⟩ | ⟨h, -⟩ := h
  · cases b with
    | missing => simp [Block.body] at hs
    | of => rfl
  · exact h

theorem startLoop_fits {host : Host} {invoke : Invoke} {scope : ScopeId} {span : Span} {count : Expr}
    {body : Block} {w w' : World} {frame : LoopFrame}
    (h : startLoop host invoke scope span count body w = .ok frame w') (hd : frame.done = false) :
    frame.Running ∧ frame.CountedBy count := by
  rw [startLoop.eq_def] at h
  split at h
  · cases h
  cases count with
  | forever sp =>
    cases h
    exact ⟨.inl rfl, rfl⟩
  | number sp n =>
    cases h
    exact ⟨LoopFrame.running_of_counted hd, rfl, rfl⟩
  | symbol s =>
    obtain ⟨v, w₁, -, h⟩ := bind_eq_ok h
    cases v with
    | integer n =>
      cases h
      exact ⟨LoopFrame.running_of_counted hd, rfl⟩
    | _ => cases h
  | _ => cases h

section

variable {host : Host} {invoke : Invoke} {scope : ScopeId}

/-- There is a loop stack for the frames, if there are any. -/
def Store.Carries (scope : ScopeId) (s : Store) (frames : LoopStack) : Prop :=
  frames ≠ [] → (s.loops? scope).isSome

def Moved.Leads {κ : Type} (mv : Moved κ) (P : κ → Prop) : Prop := ∀ c, mv.next = some c → P c

theorem Moved.Leads.within {κ κ' : Type} {mv : Moved κ} {P : κ → Prop} {Q : κ' → Prop}
    {into : κ → κ'} {leave : Value → Moved κ'} (h : mv.Leads P) (hinto : ∀ c, P c → Q (into c))
    (hleave : (leave mv.value).Leads Q) : (mv.within into leave).Leads Q := by
  rw [Moved.within]
  cases hnext : mv.next with
  | none => exact hleave
  | some c =>
    rintro c' ⟨⟩
    exact hinto c (h c hnext)

theorem Moved.leads_none {κ : Type} {v : Value} {P : κ → Prop} : Moved.Leads ⟨v, none⟩ P := by
  rintro c ⟨⟩

def Position.Rests (scope : ScopeId) (s : Stmt) (w : World) (p : Position) : Prop :=
  p.Fits s ∧ w.store.Carries scope p.frames

def Spot.Rests (scope : ScopeId) (b : Block) (w : World) (c : Spot) : Prop :=
  c.Fits b ∧ w.store.Carries scope c.frames

theorem Spot.rests_start {b : Block} {w : World} (h : b.isMissing = false) :
    Spot.start.Rests scope b w :=
  ⟨fits_start h, fun hne => absurd rfl hne⟩

/-- A step in the block that the condition chooses. -/
theorem advanceBranch_rests {sp : Span} {condition : Expr} {thenBlock elseBlock : Block} {truthy : Bool}
    {c : Spot} {w w' : World} {mv : Moved Position}
    (hcomplete : (condition.isMissing || thenBlock.isMissing) = false)
    (hblock : (if truthy then thenBlock else elseBlock).isMissing = false → ∀ mv,
      advanceBlock (markLoops scope) host invoke scope c (if truthy then thenBlock else elseBlock) w =
        .ok mv w' → mv.Leads (Spot.Rests scope (if truthy then thenBlock else elseBlock) w'))
    (h : advanceBranch (markLoops scope) host invoke scope thenBlock elseBlock truthy c w = .ok mv w') :
    mv.Leads (Position.Rests scope (.branch sp condition thenBlock elseBlock) w') := by
  rw [advanceBranch] at h
  cases truthy with
  | true =>
    rw [if_pos rfl] at h
    obtain ⟨mv', hmv, rfl⟩ := map_eq_ok h
    exact (hblock (Bool.or_eq_false_iff.mp hcomplete).2 mv' hmv).within
      (fun c' hc' => ⟨⟨hcomplete, hc'.1⟩, hc'.2⟩) Moved.leads_none
  | false =>
    rw [if_neg (by simp)] at h
    split at h
    · cases h
      exact Moved.leads_none
    · next hpresent =>
      obtain ⟨mv', hmv, rfl⟩ := map_eq_ok h
      exact (hblock (by simpa using hpresent) mv' hmv).within
        (fun c' hc' => ⟨⟨hcomplete, hc'.1⟩, hc'.2⟩) Moved.leads_none

theorem advanceRound_rests {body : Block} {frame : LoopFrame} {span : Span} {count : Expr} {c : Spot}
    {w w' : World} {mv : Moved Position} (hinv : invoke.Spares) (hnames : loopBinding ∉ body.names)
    (hscope : scope < w.store.scopes.size) (hloops : (w.store.loops? scope).isSome)
    (hrun : frame.Running) (hcount : frame.CountedBy count) (hbody : body.isMissing = false)
    (hblock : ∀ mv w', advanceBlock (markLoops scope) host invoke scope c body w = .ok mv w' →
      mv.Leads (Spot.Rests scope body w'))
    (h : advanceRound (markLoops scope) host invoke scope body frame c w = .ok mv w') :
    mv.Leads (Position.Rests scope (.times span count body) w') := by
  obtain ⟨mv', hmv, rfl⟩ := map_eq_ok h
  have hholds := (advanceBlock_holds hinv c body hnames).ok hscope hmv
  obtain ⟨ref, href⟩ := Option.isSome_iff_exists.mp hloops
  have hsome : (w'.store.loops? scope).isSome := by rw [hholds.bound ref href]; rfl
  refine (hblock mv' w' hmv).within (fun c' hc' => ⟨⟨hrun, hcount, hc'.1⟩, fun _ => hsome⟩) ?_
  rw [leaveRound]
  split
  · exact Moved.leads_none
  · next hd =>
    rintro q ⟨⟩
    refine ⟨⟨hrun.next (by simpa using hd), hcount.next, Spot.fits_start hbody⟩, fun _ => hsome⟩

/-- From rest the block comes to rest again. -/
def Block.Settles (host : Host) (invoke : Invoke) (scope : ScopeId) (b : Block) : Prop :=
  ∀ {c : Spot} {w w' : World} {mv : Moved Spot}, scope < w.store.scopes.size → c.Rests scope b w →
    advanceBlock (markLoops scope) host invoke scope c b w = .ok mv w' → mv.Leads (Spot.Rests scope b w')

theorem branch_rests (hinv : invoke.Spares) {p : Position} {span : Span} {condition : Expr}
    {thenBlock elseBlock : Block} (hthen : thenBlock.Settles host invoke scope)
    (helse : elseBlock.Settles host invoke scope) {w w' : World} {mv : Moved Position}
    (hscope : scope < w.store.scopes.size) (hp : p.Rests scope (.branch span condition thenBlock elseBlock) w)
    (h : advanceStmt (markLoops scope) host invoke scope p (.branch span condition thenBlock elseBlock) w =
      .ok mv w') :
    mv.Leads (Position.Rests scope (.branch span condition thenBlock elseBlock) w') := by
  cases hcomplete : condition.isMissing || thenBlock.isMissing with
  | true =>
    rw [advanceStmt_branch_incomplete hcomplete] at h
    cases h
  | false =>
    have hblock (truthy : Bool) {c : Spot} {w : World} (hscope : scope < w.store.scopes.size)
        (hc : (if truthy then thenBlock else elseBlock).isMissing = false →
          c.Rests scope (if truthy then thenBlock else elseBlock) w)
        (hpresent : (if truthy then thenBlock else elseBlock).isMissing = false) (mv : Moved Spot)
        (hmv : advanceBlock (markLoops scope) host invoke scope c
          (if truthy then thenBlock else elseBlock) w = .ok mv w') :
        mv.Leads (Spot.Rests scope (if truthy then thenBlock else elseBlock) w') := by
      cases truthy with
      | true => exact hthen hscope (hc hpresent) hmv
      | false => exact helse hscope (hc hpresent) hmv
    cases p with
    | entry =>
      rw [advanceStmt_branch_entry hcomplete] at h
      obtain ⟨v, w₁, hv, h⟩ := bind_eq_ok h
      have hholds := (evalExpr_holds hinv condition).ok hscope hv
      have hscope₁ := Nat.lt_of_lt_of_le hscope hholds.size
      exact advanceBranch_rests hcomplete (hblock v.isTruthy hscope₁ Spot.rests_start) h
    | inBranch truthy index inner =>
      have h := advanceStmt_inBranch hcomplete truthy ⟨index, inner⟩ ▸ h
      have hrests : Spot.Rests scope (if truthy then thenBlock else elseBlock) w ⟨index, inner⟩ :=
        ⟨hp.1.2, hp.2⟩
      exact advanceBranch_rests hcomplete (hblock truthy hscope fun _ => hrests) h
    | inLoop => exact hp.1.elim

theorem times_rests (hinv : invoke.Spares) {p : Position} {span : Span} {count : Expr} {body : Block}
    (hnames : loopBinding ∉ body.names) (hbody : body.Settles host invoke scope) {w w' : World}
    {mv : Moved Position} (hscope : scope < w.store.scopes.size) (hp : p.Rests scope (.times span count body) w)
    (h : advanceStmt (markLoops scope) host invoke scope p (.times span count body) w = .ok mv w') :
    mv.Leads (Position.Rests scope (.times span count body) w') := by
  cases hb : body.isMissing with
  | true =>
    rw [advanceStmt, if_pos hb] at h
    cases h
  | false =>
    cases p with
    | entry =>
      rw [advanceStmt_times_entry hb] at h
      obtain ⟨frame, w₁, hstart, h⟩ := bind_eq_ok h
      split at h
      · cases h
        exact Moved.leads_none
      next hd =>
      have hholds := (startLoop_holds span count body).ok hscope hstart
      have hscope₁ := Nat.lt_of_lt_of_le hscope hholds.size
      -- the scope has a stack before the first round, so there is one wherever the round rests
      obtain ⟨ref, w₂, -, hmark, href⟩ := markLoops_ok hscope₁
      have hholds₂ := (holds_markLoops scope).ok hscope₁ hmark
      have hscope₂ := Nat.lt_of_lt_of_le hscope₁ hholds₂.size
      rw [bind_ok hmark] at h
      obtain ⟨hrun, hcount⟩ := startLoop_fits hstart (by simpa using hd)
      exact advanceRound_rests hinv hnames hscope₂ (by rw [href]; rfl) hrun hcount hb
        (fun mv w' h => hbody hscope₂ (Spot.rests_start hb) h) h
    | inLoop frame index inner =>
      have h := advanceStmt_inLoop hb frame ⟨index, inner⟩ ▸ h
      obtain ⟨⟨hrun, hcount, hfits⟩, hcarries⟩ := hp
      have hloops := hcarries (by simp [Position.frames])
      have hrests : Spot.Rests scope body w ⟨index, inner⟩ := ⟨hfits, fun _ => hloops⟩
      exact advanceRound_rests hinv hnames hscope hloops hrun hcount hb
        (fun mv w' h => hbody hscope hrests h) h
    | inBranch => exact hp.1.elim

mutual

theorem advanceStmt_rests (hinv : invoke.Spares) {p : Position} (s : Stmt)
    (hs : loopBinding ∉ s.names) {w w' : World} {mv : Moved Position}
    (hscope : scope < w.store.scopes.size) (hp : p.Rests scope s w)
    (h : advanceStmt (markLoops scope) host invoke scope p s w = .ok mv w') :
    mv.Leads (Position.Rests scope s w') := by
  cases s with
  | missing | set | call =>
    rw [advanceStmt_atomic rfl] at h
    obtain ⟨v, -, rfl⟩ := map_eq_ok h
    exact Moved.leads_none
  | branch span condition thenBlock elseBlock =>
    simp only [Stmt.names, List.mem_append, not_or] at hs
    exact branch_rests hinv (advanceBlock_rests hinv thenBlock hs.2.1)
      (advanceBlock_rests hinv elseBlock hs.2.2) hscope hp h
  | times span count body =>
    simp only [Stmt.names, List.mem_append, not_or] at hs
    exact times_rests hinv hs.2 (advanceBlock_rests hinv body hs.2) hscope hp h

theorem advanceBlock_rests (hinv : invoke.Spares) {c : Spot} (b : Block)
    (hb : loopBinding ∉ b.names) {w w' : World} {mv : Moved Spot}
    (hscope : scope < w.store.scopes.size) (hc : c.Rests scope b w)
    (h : advanceBlock (markLoops scope) host invoke scope c b w = .ok mv w') :
    mv.Leads (Spot.Rests scope b w') := by
  cases b with
  | missing =>
    cases h
    exact Moved.leads_none
  | of sp body =>
    have hat (s : Stmt) (hs : body[c.index]? = some s) : c.inner.Rests scope s w := by
      obtain ⟨⟨s', hs', hfits⟩ | ⟨-, hnil, -⟩, hcarries⟩ := hc
      · have hsame : some s' = some s := hs'.symm.trans hs
        cases hsame
        exact ⟨hfits, hcarries⟩
      · have hnil : body = [] := hnil
        simp [hnil] at hs
    intro c' hc'
    obtain ⟨hi, s, hs, hrest⟩ | ⟨rfl, hlt⟩ := advanceAt_rests hinv body hb hscope hat h c' hc'
    · exact ⟨.inl ⟨s, hi ▸ hs, hrest.1⟩, hrest.2⟩
    · refine ⟨.inl ⟨body[c.index + 1], ?_, trivial⟩, fun hne => absurd rfl hne⟩
      exact List.getElem?_eq_getElem hlt

theorem advanceAt_rests (hinv : invoke.Spares) {c : Spot} {count skip : Nat} (body : List Stmt)
    (hbody : loopBinding ∉ Stmt.namesOf body) {w w' : World} {mv : Moved Spot}
    (hscope : scope < w.store.scopes.size)
    (hc : ∀ s, body[skip]? = some s → c.inner.Rests scope s w)
    (h : advanceAt (markLoops scope) host invoke scope c count skip body w = .ok mv w') :
    mv.Leads fun c' =>
      (c'.index = c.index ∧ ∃ s, body[skip]? = some s ∧ c'.inner.Rests scope s w') ∨
      c' = ⟨c.index + 1, .entry⟩ ∧ c.index + 1 < count := by
  cases body with
  | nil =>
    cases skip <;> cases h <;> exact Moved.leads_none
  | cons stmt rest =>
    simp only [Stmt.namesOf, List.mem_append, not_or] at hbody
    cases skip with
    | zero =>
      rw [advanceAt] at h
      obtain ⟨mv', hmv, rfl⟩ := map_eq_ok h
      have hmv' := advanceStmt_rests hinv stmt hbody.1 hscope (hc stmt rfl) hmv
      refine hmv'.within (fun q hq => .inl ⟨rfl, stmt, rfl, hq⟩) ?_
      rw [leaveStmt]
      split
      · exact Moved.leads_none
      · next hlt =>
        rintro c' ⟨⟩
        exact .inr ⟨rfl, Nat.lt_of_not_le hlt⟩
    | succ skip =>
      rw [advanceAt] at h
      exact advanceAt_rests hinv rest hbody.2 hscope hc h

end

end

end Stepwise
