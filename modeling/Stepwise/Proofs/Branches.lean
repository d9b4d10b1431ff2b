import Stepwise.Proofs.Tour
import Stepwise.Proofs.Turns
import Stepwise.Proofs.Vagueness

/-! The two branches of a condition in a check. Each is visited in a scope of its own, and what it assigns
stands for something unknown in the scope around it from then on, where the other branch and the bodies that
wait can find it. So a branch may hide a failure of what comes after it, and it never causes one. -/

namespace Stepwise

open Checking Finding

/-- The bodies that have been put off since another state. -/
def CheckState.since (d c : CheckState) : List Waiting := d.waiting.toList.drop c.waiting.size

/-- The body of a function passes when it gets its turn, and so do the bodies in it. -/
inductive Accepts (g : Ground) : CheckState → Waiting → Prop
  | intro {c d : CheckState} {w : Waiting} (hbody : checkWaiting g w c = .ok () d)
      (hinside : ∀ u ∈ d.since c, Accepts g d u) : Accepts g c w

theorem exists_of_forall₂ {α β : Type} {R : α → β → Prop} {xs : List α} {ys : List β}
    (h : List.Forall₂ R xs ys) {y : β} (hy : y ∈ ys) : ∃ x ∈ xs, R x y := by
  induction h with
  | nil => cases hy
  | cons hxy _ ih =>
    obtain rfl | hy := List.mem_cons.mp hy
    · exact ⟨_, List.mem_cons_self, hxy⟩
    · obtain ⟨x, hx, hR⟩ := ih hy
      exact ⟨x, List.mem_cons_of_mem _ hx, hR⟩

namespace CheckState

variable {N : Name → Prop} {c c' d d' : CheckState} {S S' i : ScratchId} {w w' u : Waiting} {g : Ground}
  {turn : Nat}

theorem since_eq {new : List Waiting} (h : d.waiting.toList = c.waiting.toList ++ new) : d.since c = new := by
  rw [since, h]
  exact List.drop_left' Array.length_toList

theorem queue_eq (c : CheckState) (turn : Nat) :
    c.queue turn = (c.waiting.toList.drop turn).map Waiting.literal :=
  List.map_drop.symm

theorem drop_waiting (hw : c.waiting[turn]? = some w) :
    c.waiting.toList.drop turn = w :: c.waiting.toList.drop (turn + 1) := by
  have hget : c.waiting.toList[turn]? = some w := by simpa using hw
  obtain ⟨hlt, hget⟩ := List.getElem?_eq_some_iff.mp hget
  rw [List.drop_eq_getElem_cons hlt, hget]

/-- Bodies of one function that wait in two checks. The second will know less around it, as far as names
count, when it gets its turn. -/
structure Blurs (N : Name → Prop) (c : CheckState) (w : Waiting) (c' : CheckState) (w' : Waiting) : Prop where
  literal : w'.literal = w.literal
  rooted : c.Rooted w.scope
  rooted' : c'.Rooted w'.scope
  seen : ∀ x, N x → Dims ((c.find (c.chain w.scope) x).map forgotten)
    ((c'.find (c'.chain w'.scope) x).map forgotten)

theorem Paired.blurs (h : Paired N c S c' S' w w') (hc : c.Vaguer N S c' S') (hS : c.Rooted S)
    (hS' : c'.Rooted S') : Blurs N c w c' w' := by
  obtain ⟨inner, inner', h⟩ := h
  refine ⟨h.literal, rooted_of_chain hS h.chain h.inside, rooted_of_chain hS' h.chain' h.inside',
    fun x hx => ?_⟩
  rw [h.chain, h.chain', find_append, find_append]
  exact ((h.seen x hx).or (hc.seen x hx)).map_forgotten

/-- Where the check of a body that waits starts. -/
def opened (c : CheckState) (w : Waiting) : CheckState :=
  c.forget.extend (c.forget.chain w.scope) (.ofList (w.literal.paramNames.map fun name => (name, .unknown)))

theorem checkWaiting_eq (g : Ground) (w : Waiting) (c : CheckState) : checkWaiting g w c = (do
    let _ ← checkBlock g c.forget.scopes.size w.literal.body) (c.opened w) :=
  rfl

section Turn

variable (hw : c.Rooted w.scope) (h : checkWaiting g w c = .ok () d)

include hw h

theorem checkWaiting_visits : (c.opened w).Visited c.forget.scopes.size (.block w.literal.body) d := by
  rw [checkWaiting_eq] at h
  obtain ⟨f, d, hbody, h⟩ := bind_eq_ok h
  cases h
  exact checkBlock_visits w.literal.body (hw.forget.extend _) hbody

theorem waiting_of_turn : d.waiting.toList = c.waiting.toList ++ d.since c ∧
    ∀ u ∈ d.since c, u.literal.names ⊆ w.literal.body.names ∧ d.Rooted u.scope := by
  obtain ⟨new, hnew, hall⟩ := (checkWaiting_visits hw h).waiting
  have hlist : d.waiting.toList = c.waiting.toList ++ new.toList := by
    rw [hnew, Array.toList_append]
    rfl
  rw [since_eq hlist]
  refine ⟨hlist, fun u hu => ?_⟩
  obtain ⟨hwritten, hrooted, -⟩ := hall u (Array.mem_toList_iff.mp hu)
  exact ⟨w.literal.body.functions_names (hwritten []), hrooted⟩

theorem rooted_of_turn (hi : c.Rooted i) : d.Rooted i :=
  (checkWaiting_visits hw h).rooted (hi.forget.extended _ _)

/-- Of the scopes that were there before the turn only the functions in them are known after it. -/
theorem find_of_turn (hi : c.Rooted i) (x : Name) :
    d.find (d.chain i) x = (c.find (c.chain i) x).map forgotten := by
  have hv := checkWaiting_visits hw h
  have hopened : (c.opened w).Rooted i := hi.forget.extended _ _
  have hchain : (c.opened w).chain i = c.forget.chain i := chain_extend_of_lt hi.forget.1 _ _
  rw [hv.chain i hopened.1, hchain, ← find_forget, ← chain_forget c i]
  refine find_congr fun j hj => ?_
  have hlt := hi.forget.2 j hj
  rw [hv.bindings_of_ne (hopened.2 j (hchain ▸ hj)) (Nat.ne_of_lt hlt), opened,
    bindings_congr (getElem?_extend_of_lt hlt _ _)]

/-- The bodies that wait will find after the turn what they would have found before it. -/
theorem blurs_turn (hu : c.Rooted u.scope) : Blurs N c u d u ∧ Blurs N d u c u := by
  have hseen (x : Name) : (d.find (d.chain u.scope) x).map forgotten =
      (c.find (c.chain u.scope) x).map forgotten := by
    rw [find_of_turn hw h hu, Option.map_map]
    exact congrArg (Option.map · _) (funext forgotten_forgotten)
  have hd := rooted_of_turn hw h hu
  exact ⟨⟨rfl, hu, hd, fun x _ => hseen x ▸ .refl _⟩, ⟨rfl, hd, hu, fun x _ => hseen x ▸ .refl _⟩⟩

end Turn

variable (hhost : g.host.PureRespects)

include hhost

theorem checkWaiting_forgives (hb : Blurs N c w c' w') (hN : ∀ x ∈ w.literal.body.names, N x)
    (h : checkWaiting g w c = .ok () d) :
    ∃ d', checkWaiting g w' c' = .ok () d' ∧ ∀ u' ∈ d'.since c', ∃ u ∈ d.since c, Blurs N d u d' u' := by
  have hvaguer : (c.opened w).Vaguer N c.forget.scopes.size (c'.opened w') c'.forget.scopes.size := by
    refine vaguer_extend hb.rooted.forget hb.rooted'.forget (fun x _ => ?_) fun x hx => ?_
    · rw [hb.literal]
      exact .refl _
    · rw [find_forget, find_forget, chain_forget, chain_forget]
      exact hb.seen x hx
  have hS : (c.opened w).Rooted c.forget.scopes.size := hb.rooted.forget.extend _
  have hS' : (c'.opened w').Rooted c'.forget.scopes.size := hb.rooted'.forget.extend _
  rw [checkWaiting_eq] at h
  obtain ⟨f, d, hbody, h⟩ := bind_eq_ok h
  cases h
  obtain ⟨f', d', hbody', -, ht⟩ :=
    checkBlock_forgives hhost w.literal.body hN _ _ hS hS' hvaguer f d hbody
  obtain ⟨new, new', hnew, hnew', hall⟩ := ht.waiting
  refine ⟨d', ?_, fun u' hu' => ?_⟩
  · rw [checkWaiting_eq, hb.literal]
    exact bind_ok hbody'
  · have hsince : d.since c = new := since_eq hnew
    have hsince' : d'.since c' = new' := since_eq hnew'
    rw [hsince'] at hu'
    obtain ⟨u, hu, hpaired⟩ := exists_of_forall₂ hall hu'
    exact ⟨u, hsince ▸ hu, hpaired.blurs ht.vaguer (ht.onward.rooted hS) (ht.onward'.rooted hS')⟩

end CheckState

open CheckState

section Turns

variable {g : Ground} {c c' d d' : CheckState} {w w' u : Waiting} {N : Name → Prop} {turn : Nat}

theorem accepts_iff (h : checkWaiting g w c = .ok () d) :
    Accepts g c w ↔ ∀ u ∈ d.since c, Accepts g d u := by
  refine ⟨fun hw => ?_, .intro h⟩
  cases hw with
  | intro hbody hinside =>
    rw [h] at hbody
    cases hbody
    exact hinside

theorem not_accepts {f : Failure} (h : checkWaiting g w c = .error f d) : ¬ Accepts g c w := by
  rintro ⟨hbody, -⟩
  rw [h] at hbody
  cases hbody

theorem drop_waiting_turn (hroot : c.Rooted w.scope) (hw : c.waiting[turn]? = some w)
    (h : checkWaiting g w c = .ok () d) :
    d.waiting.toList.drop (turn + 1) = c.waiting.toList.drop (turn + 1) ++ d.since c := by
  obtain ⟨hlt, -⟩ := Array.getElem?_eq_some_iff.mp hw
  rw [(waiting_of_turn hroot h).1]
  exact List.drop_append_of_le_length (by simpa using hlt)

theorem rooted_turn (hrooted : ∀ w ∈ c.waiting, c.Rooted w.scope) (hw : c.Rooted w.scope)
    (h : checkWaiting g w c = .ok () d) : ∀ u ∈ d.waiting, d.Rooted u.scope := by
  obtain ⟨hwaiting, hnew⟩ := waiting_of_turn hw h
  intro u hu
  rw [← Array.mem_toList_iff, hwaiting] at hu
  obtain hu | hu := List.mem_append.mp hu
  · exact rooted_of_turn hw h (hrooted u (Array.mem_toList_iff.mp hu))
  · exact (hnew u hu).2

variable (hhost : g.host.PureRespects)

include hhost

theorem Accepts.blurs (h : Accepts g c w) (hb : Blurs N c w c' w')
    (hN : ∀ x ∈ w.literal.body.names, N x) : Accepts g c' w' := by
  induction h generalizing c' w' with
  | @intro c d w hbody hinside ih =>
    obtain ⟨d', hbody', hnew⟩ := checkWaiting_forgives hhost hb hN hbody
    refine .intro hbody' fun u' hu' => ?_
    obtain ⟨u, hu, hblurs⟩ := hnew u' hu'
    have hnames := ((waiting_of_turn hb.rooted hbody).2 u hu).1
    exact ih u hu hblurs fun x hx => hN x (hnames (List.mem_append_right _ hx))

/-- A body passes after the turn of another one if it would have passed before that. -/
theorem accepts_turn_iff (hw : c.Rooted w.scope) (h : checkWaiting g w c = .ok () d)
    (hu : c.Rooted u.scope) : Accepts g d u ↔ Accepts g c u := by
  obtain ⟨hlater, hbefore⟩ := blurs_turn hw h hu
  exact ⟨fun hd => hd.blurs hhost hbefore fun _ _ => trivial,
    fun hc => hc.blurs hhost hlater fun _ _ => trivial⟩

/-- The bodies that wait pass in their turns if each of them would pass now. -/
theorem checkAllWaiting_ok_iff (bodies turn : Nat) {c : CheckState}
    (hrooted : ∀ w ∈ c.waiting, c.Rooted w.scope) (hbodies : Literal.sizes (c.queue turn) ≤ bodies) :
    (∃ d, checkAllWaiting g bodies turn c = .ok () d) ↔ ∀ w ∈ c.waiting.toList.drop turn, Accepts g c w := by
  induction bodies generalizing turn c with
  | zero =>
    have hnone : c.waiting.toList.drop turn = [] := by
      have hqueue := Literal.eq_nil_of_sizes (Nat.le_zero.mp hbodies)
      rwa [queue_eq, List.map_eq_nil_iff] at hqueue
    rw [hnone]
    exact ⟨fun _ w hw => absurd hw List.not_mem_nil, fun _ => ⟨c, rfl⟩⟩
  | succ bodies ih =>
    obtain ⟨hnone, hx⟩ | ⟨w, hw, hx⟩ := checkAllWaiting_cases g bodies turn c
    · have hqueue := queue_eq_nil hnone
      rw [queue_eq, List.map_eq_nil_iff] at hqueue
      rw [hqueue]
      exact ⟨fun _ w hw => absurd hw List.not_mem_nil, fun _ => ⟨c, hx⟩⟩
    · have hroot := hrooted w (Array.mem_of_getElem? hw)
      rw [hx, drop_waiting hw, List.forall_mem_cons]
      cases hbody : checkWaiting g w c with
      | error f d =>
        rw [bind_error hbody]
        exact ⟨by rintro ⟨d, ⟨⟩⟩, fun hall => absurd hall.1 (not_accepts hbody)⟩
      | ok a d =>
        have hsizes := sizes_queue_checkWaiting hw hbody
        rw [bind_ok hbody, ih (turn + 1) (rooted_turn hrooted hroot hbody) (by omega),
          drop_waiting_turn hroot hw hbody, List.forall_mem_append, accepts_iff hbody, and_comm]
        refine and_congr_right fun _ => forall₂_congr fun u hu => ?_
        have hwaits := hrooted u (Array.mem_toList_iff.mp (List.mem_of_mem_drop hu))
        exact accepts_turn_iff hhost hroot hbody hwaits

end Turns

/-- The check of a program has nothing to report. -/
def Program.Passes (p : Program) (g : Ground) : Prop := ∃ v c, check g (.program p) .initial = .ok v c

theorem rooted_entered : CheckState.entered.Rooted 0 := by
  refine ⟨Nat.zero_lt_one, fun i hi => ?_⟩
  rw [chain_entered, List.mem_singleton] at hi
  exact hi ▸ Nat.zero_lt_one

section

variable {g : Ground} (hhost : g.host.PureRespects)

include hhost

theorem Program.passes_iff (p : Program) : p.Passes g ↔
    ∃ f c, checkBody g 0 (.known .absent) p.body .entered = .ok f c ∧ ∀ w ∈ c.waiting, Accepts g c w := by
  have hall {f : Finding} {c : CheckState} (h : checkBody g 0 (.known .absent) p.body .entered = .ok f c) :
      (∃ d, checkAllWaiting g (Node.program p).literalCount 0 c = .ok () d) ↔
        ∀ w ∈ c.waiting, Accepts g c w := by
    obtain ⟨new, hnew, hnewly⟩ := (checkBody_visits p.body rooted_entered h).waiting
    have hrooted : ∀ w ∈ c.waiting, c.Rooted w.scope := by
      intro w hw
      rw [hnew, show CheckState.entered.waiting = #[] from rfl, Array.empty_append] at hw
      exact (hnewly w hw).2.1
    have hbodies : Literal.sizes (c.queue 0) ≤ (Node.program p).literalCount := by
      rw [(checkBody_queue p h).2, p.literalCount_eq]
    rw [checkAllWaiting_ok_iff hhost _ 0 hrooted hbodies, List.drop_zero]
    simp only [Array.mem_toList_iff]
  constructor
  · rintro ⟨v, d, hcheck⟩
    obtain ⟨S, c₀, hopen, hcheck⟩ := bind_eq_ok hcheck
    cases hopen
    obtain ⟨f, c, hbody, hcheck⟩ := bind_eq_ok hcheck
    obtain ⟨⟨⟩, c', hwaiting, -⟩ := bind_eq_ok hcheck
    exact ⟨f, c, hbody, (hall hbody).mp ⟨c', hwaiting⟩⟩
  · rintro ⟨f, c, hbody, hwaiting⟩
    obtain ⟨d, hwaiting⟩ := (hall hbody).mpr hwaiting
    cases f <;> exact ⟨_, d, (bind_ok rfl).trans ((bind_ok hbody).trans (bind_ok hwaiting))⟩

/-- The state in which the check comes to the first statement. -/
def begun (s : Stmt) : CheckState := { CheckState.entered with visited := #[s] }

/-- Up to where the branches part, and through one of them. -/
theorem passes_branch_iff (place span : Span) (condition : Expr) (thenBlock elseBlock : Block) :
    (⟨place, [.branch span condition thenBlock elseBlock]⟩ : Program).Passes g ↔
      (condition.isMissing || thenBlock.isMissing) = false ∧ ∃ f c₁ c₂ c₃,
        checkExpr g 0 condition (begun (.branch span condition thenBlock elseBlock)) = .ok f c₁ ∧
        branch 0 (fun inner => checkBlock g inner thenBlock) c₁ = .ok () c₂ ∧
        (if elseBlock.isMissing then c₃ = c₂
          else branch 0 (fun inner => checkBlock g inner elseBlock) c₂ = .ok () c₃) ∧
        ∀ w ∈ c₃.waiting, Accepts g c₃ w := by
  rw [Program.passes_iff hhost]
  constructor
  · rintro ⟨f, c, hbody, hwaiting⟩
    obtain ⟨⟨⟩, c₀, hvisit, hbody⟩ := bind_eq_ok hbody
    cases hvisit
    obtain ⟨u, c₃, hstmt, hrest⟩ := bind_eq_ok hbody
    cases hrest
    rw [checkStmt] at hstmt
    split at hstmt
    · cases hstmt
    next hmissing =>
    obtain ⟨v, c₁, hcondition, hstmt⟩ := bind_eq_ok hstmt
    obtain ⟨⟨⟩, c₂, hthen, hstmt⟩ := bind_eq_ok hstmt
    refine ⟨Bool.eq_false_of_not_eq_true hmissing, v, c₁, c₂, c, hcondition, hthen, ?_, hwaiting⟩
    cases elseBlock with
    | missing =>
      cases hstmt
      rfl
    | of place body =>
      obtain ⟨⟨⟩, c₃, helse, hstmt⟩ := bind_eq_ok hstmt
      cases hstmt
      exact helse
  · rintro ⟨hmissing, f, c₁, c₂, c₃, hcondition, hthen, helse, hwaiting⟩
    have hstmt : checkStmt g 0 (.branch span condition thenBlock elseBlock)
        (begun (.branch span condition thenBlock elseBlock)) = .ok .unknown c₃ := by
      rw [checkStmt, if_neg (ne_true_of_eq_false hmissing)]
      refine (bind_ok hcondition).trans ((bind_ok hthen).trans ?_)
      cases elseBlock with
      | missing =>
        obtain rfl : c₃ = c₂ := helse
        rfl
      | of place body => exact bind_ok helse
    exact ⟨.unknown, c₃, (bind_ok rfl).trans (bind_ok hstmt), hwaiting⟩

/-- What has been put off passes in a check that has come to know less. -/
theorem accepts_later {M N : Name → Prop} {c c' d d' : CheckState} {S S' : ScratchId} {ws ws' : List Waiting}
    (hpaired : List.Forall₂ (Paired M c S c' S') ws ws') (hS : c.Rooted S) (hS' : c'.Rooted S')
    (ho : Onward S c d) (ho' : Onward S' c' d') (hd : d.Vaguer N S d' S') (hM : ∀ x, N x → M x)
    (hnames : ∀ w ∈ ws, ∀ x ∈ w.literal.names, N x) (hws : ∀ w ∈ ws, Accepts g d w) :
    ∀ w' ∈ ws', Accepts g d' w' := by
  intro w' hw'
  obtain ⟨w, hw, hp⟩ := exists_of_forall₂ hpaired hw'
  have hlater := (hp.mono hM).onward hS hS' ho ho'
  have hblurs := hlater.blurs hd (ho.rooted hS) (ho'.rooted hS')
  exact (hws w hw).blurs hhost hblurs fun x hx => hnames w hw x (List.mem_append_right _ hx)

theorem condition_together {condition : Expr} {f : Finding} {c : CheckState} (s s' : Stmt)
    (h : checkExpr g 0 condition (begun s) = .ok f c) :
    ∃ f' c', checkExpr g 0 condition (begun s') = .ok f' c' ∧
      Together (fun _ => True) 0 0 (begun s) c (begun s') c' := by
  have hbegun : (begun s).Vaguer (fun _ => True) 0 (begun s') 0 :=
    ⟨fun _ _ => .refl _, fun _ _ => .refl _⟩
  obtain ⟨f', c', hcheck, -, ht⟩ := checkExpr_forgives hhost condition (fun _ _ => trivial) (begun s)
    (begun s') rooted_entered rooted_entered hbegun f c h
  exact ⟨f', c', hcheck, ht⟩

theorem branch_together {N : Name → Prop} {c c' d : CheckState} {b : Block} (hb : ∀ x ∈ b.names, N x)
    (hc : c.Vaguer N 0 c' 0) (hS : c.Rooted 0) (hS' : c'.Rooted 0)
    (h : branch 0 (fun inner => checkBlock g inner b) c = .ok () d) : ∃ d',
      branch 0 (fun inner => checkBlock g inner b) c' = .ok () d' ∧ Together N 0 0 c d c' d' := by
  obtain ⟨⟨⟩, d', hcheck, -, ht⟩ :=
    forgives_branch (fun I I' => checkBlock_forgives hhost b hb) c c' hS hS' hc () d h
  exact ⟨d', hcheck, ht⟩

variable {condition : Expr} {thenBlock elseBlock : Block} {place span place₁ span₁ place₂ span₂ : Span}

/-- When each branch passes without the other one, they pass together. -/
theorem passes_both (hthen : Program.Passes ⟨place₁, [.branch span₁ condition thenBlock .missing]⟩ g)
    (helse : Program.Passes ⟨place₂, [.branch span₂ condition elseBlock .missing]⟩ g) :
    Program.Passes ⟨place, [.branch span condition thenBlock elseBlock]⟩ g := by
  rw [passes_branch_iff hhost] at hthen helse ⊢
  obtain ⟨hmissing, f₁, a₁, a₂, a₃, hcondition₁, hthen, hlast₁, haccepts₁⟩ := hthen
  obtain rfl : a₃ = a₂ := hlast₁
  obtain ⟨hmissing₂, f₂, b₁, b₂, b₃, hcondition₂, helse, hlast₂, haccepts₂⟩ := helse
  obtain rfl : b₃ = b₂ := hlast₂
  obtain ⟨f, c₁, hcondition, ht₁⟩ :=
    condition_together hhost _ (.branch span condition thenBlock elseBlock) hcondition₁
  obtain ⟨f', c₁', hcondition', ht₁'⟩ :=
    condition_together hhost _ (.branch span condition thenBlock elseBlock) hcondition₂
  obtain rfl : c₁ = c₁' := by
    rw [hcondition] at hcondition'
    cases hcondition'
    rfl
  have hrooted₁ := ht₁.onward'.rooted rooted_entered
  have hrooted₁' := ht₁'.onward.rooted rooted_entered
  obtain ⟨c₂, hthen', ht₂⟩ := branch_together hhost (fun _ _ => trivial) ht₁.vaguer
    (ht₁.onward.rooted rooted_entered) hrooted₁ hthen
  have hrooted₂ := ht₂.onward'.rooted hrooted₁
  obtain ⟨hvisited₂, hunknown₂⟩ := branch_visits hrooted₁ (checkBlock_visits thenBlock) hthen'
  have hvaguer₂ := ht₁'.vaguer.behind hvisited₂ hrooted₁ hunknown₂
  obtain ⟨c₃, helse', ht₃⟩ := branch_together hhost (fun _ _ => trivial) hvaguer₂
    hrooted₁' hrooted₂ helse
  have hrooted₃ := ht₃.onward'.rooted hrooted₂
  obtain ⟨hvisited₃, hunknown₃⟩ := branch_visits hrooted₂ (checkBlock_visits elseBlock) helse'
  refine ⟨hmissing, f, c₁, c₂, c₃, hcondition, hthen', ?_, fun w hw => ?_⟩
  · rwa [if_neg (ne_true_of_eq_false (Bool.or_eq_false_iff.mp hmissing₂).2)]
  have ht₁₂ := ht₁.trans ht₂ rooted_entered rooted_entered
  have hrooted := ht₁₂.onward.rooted rooted_entered
  obtain ⟨new, new', hnew, hnew', hpaired⟩ := ht₁₂.waiting
  obtain ⟨more, more', hmore, hmore', hpaired'⟩ := ht₃.waiting
  rw [← Array.mem_toList_iff, hmore', hnew', List.append_assoc] at hw
  obtain hw | hw := List.mem_append.mp hw
  · cases hw
  obtain hw | hw := List.mem_append.mp hw
  · -- After the check of the other branch a body knows even less of the scope around.
    have hvaguer₃ := ht₁₂.vaguer.behind hvisited₃ hrooted₂ hunknown₃
    refine accepts_later hhost hpaired hrooted hrooted₂ (.refl 0 a₃) ht₃.onward' hvaguer₃ (fun _ => id)
      (fun _ _ _ _ => trivial) (fun w hw => haccepts₁ w ?_) w hw
    rw [← Array.mem_toList_iff, hnew]
    exact List.mem_append_right _ hw
  · refine accepts_later hhost hpaired' (ht₃.onward.rooted hrooted₁') hrooted₃ (.refl 0 b₃) (.refl 0 c₃)
      ht₃.vaguer (fun _ => id) (fun _ _ _ _ => trivial) (fun w hw => haccepts₂ w ?_) w hw
    rw [← Array.mem_toList_iff, hmore]
    exact List.mem_append_right _ hw

/-- The first branch passes alone if it passes with a second one that assigns no name of a function which
waits until then. -/
theorem passes_then (helse : elseBlock.isMissing = false)
    (hapart : ∀ x ∈ elseBlock.assigned, ∀ l ∈ condition.literals ++ thenBlock.literals, x ∉ l.names)
    (hboth : Program.Passes ⟨place, [.branch span condition thenBlock elseBlock]⟩ g) :
    Program.Passes ⟨place₁, [.branch span₁ condition thenBlock .missing]⟩ g := by
  rw [passes_branch_iff hhost] at hboth ⊢
  obtain ⟨hmissing, f, c₁, c₂, c₃, hcondition, hthen, hlast, haccepts⟩ := hboth
  rw [if_neg (ne_true_of_eq_false helse)] at hlast
  obtain ⟨f', a₁, hcondition', ht₁⟩ :=
    condition_together hhost _ (.branch span₁ condition thenBlock .missing) hcondition
  obtain ⟨a₂, hthen', ht₂⟩ := branch_together hhost (fun _ _ => trivial) ht₁.vaguer
    (ht₁.onward.rooted rooted_entered) (ht₁.onward'.rooted rooted_entered) hthen
  have ht₁₂ := ht₁.trans ht₂ rooted_entered rooted_entered
  have hrooted₂ := ht₁₂.onward.rooted rooted_entered
  have hvisited₃ := (branch_visits hrooted₂ (checkBlock_visits elseBlock) hlast).1
  have hliterals : c₂.literals = condition.literals ++ thenBlock.literals := by
    rw [((tours_branch 0 fun inner => checkBlock_tours inner thenBlock).ok hthen).2,
      ((checkExpr_tours 0 condition).ok hcondition).2]
    rfl
  have hvaguer₃ := (ht₁₂.vaguer.mono fun _ _ => trivial).ahead hvisited₃ hrooted₂ fun x hx => hx
  obtain ⟨new, new', hnew, hnew', hpaired⟩ := ht₁₂.waiting
  obtain ⟨more, hmore, -⟩ := hvisited₃.waiting
  refine ⟨hmissing, f', a₁, a₂, a₂, hcondition', hthen', rfl, fun w hw => ?_⟩
  refine accepts_later hhost hpaired hrooted₂ (ht₁₂.onward'.rooted rooted_entered) hvisited₃.onward
    (.refl 0 a₂) hvaguer₃ (fun _ _ => trivial) (fun w hw x hx hassigned => ?_)
    (fun w hw => haccepts w ?_) w ?_
  · refine hapart x hassigned w.literal ?_ hx
    rw [← hliterals, CheckState.literals, hnew]
    exact List.mem_map_of_mem (List.mem_append_right _ hw)
  · rw [hmore, Array.mem_append, ← Array.mem_toList_iff, hnew]
    exact .inl (List.mem_append_right _ hw)
  · rwa [← Array.mem_toList_iff, hnew'] at hw

/-- The second branch passes alone if it passes after a first one that assigns no name of it, and no name of
a function which waits then. -/
theorem passes_else (helse : elseBlock.isMissing = false)
    (hapart : ∀ x ∈ thenBlock.assigned, x ∉ elseBlock.names ∧ ∀ l ∈ condition.literals, x ∉ l.names)
    (hboth : Program.Passes ⟨place, [.branch span condition thenBlock elseBlock]⟩ g) :
    Program.Passes ⟨place₂, [.branch span₂ condition elseBlock .missing]⟩ g := by
  rw [passes_branch_iff hhost] at hboth ⊢
  obtain ⟨hmissing, f, c₁, c₂, c₃, hcondition, hthen, hlast, haccepts⟩ := hboth
  rw [if_neg (ne_true_of_eq_false helse)] at hlast
  obtain ⟨f', b₁, hcondition', ht₁⟩ :=
    condition_together hhost _ (.branch span₂ condition elseBlock .missing) hcondition
  have hrooted₁ := ht₁.onward.rooted rooted_entered
  have hrooted₁' := ht₁.onward'.rooted rooted_entered
  have hvisited₂ := (branch_visits hrooted₁ (checkBlock_visits thenBlock) hthen).1
  have hrooted₂ := hvisited₂.rooted hrooted₁
  have hvaguer₂ := (ht₁.vaguer.mono fun _ _ => trivial).ahead hvisited₂ hrooted₁ fun x hx => hx
  obtain ⟨b₂, helse', ht₃⟩ := branch_together hhost
    (fun x hx hassigned => (hapart x hassigned).1 hx) hvaguer₂ hrooted₂ hrooted₁' hlast
  have hliterals : c₁.literals = condition.literals :=
    ((checkExpr_tours 0 condition).ok hcondition).2
  obtain ⟨new, new', hnew, hnew', hpaired⟩ := ht₁.waiting
  obtain ⟨between, hbetween, -⟩ := hvisited₂.waiting
  obtain ⟨more, more', hmore, hmore', hpaired'⟩ := ht₃.waiting
  refine ⟨?_, f', b₁, b₂, b₂, hcondition', helse', rfl, fun w hw => ?_⟩
  · exact Bool.or_eq_false_iff.mpr ⟨(Bool.or_eq_false_iff.mp hmissing).1, helse⟩
  rw [← Array.mem_toList_iff, hmore', hnew', List.append_assoc] at hw
  obtain hw | hw := List.mem_append.mp hw
  · cases hw
  obtain hw | hw := List.mem_append.mp hw
  · refine accepts_later hhost hpaired hrooted₁ hrooted₁' (hvisited₂.onward.trans ht₃.onward) ht₃.onward'
      ht₃.vaguer (fun _ _ => trivial) (fun w hw x hx hassigned => ?_) (fun w hw => haccepts w ?_) w hw
    · refine (hapart x hassigned).2 w.literal ?_ hx
      rw [← hliterals, CheckState.literals, hnew]
      exact List.mem_map_of_mem (List.mem_append_right _ hw)
    · rw [← Array.mem_toList_iff, hmore, hbetween, Array.toList_append, hnew]
      exact List.mem_append_left _ (List.mem_append_left _ (List.mem_append_right _ hw))
  · obtain ⟨written, hwritten, hnames⟩ :=
      (branch_visits hrooted₂ (checkBlock_visits elseBlock) hlast).1.waiting
    obtain rfl : written.toList = more := by
      rw [hwritten, Array.toList_append] at hmore
      exact List.append_cancel_left hmore
    refine accepts_later hhost hpaired' (ht₃.onward.rooted hrooted₂) (ht₃.onward'.rooted hrooted₁')
      (.refl 0 c₃) (.refl 0 b₂) ht₃.vaguer (fun _ => id) (fun w hw x hx hassigned => ?_)
      (fun w hw => haccepts w ?_) w hw
    · have hfunctions := (hnames w (Array.mem_toList_iff.mp hw)).1 []
      exact (hapart x hassigned).1 (elseBlock.functions_names hfunctions hx)
    · rw [← Array.mem_toList_iff, hmore]
      exact List.mem_append_right _ hw

end

/-- The names that a branch assigns are its own: neither the other branch has them nor a function that waits
while it is visited. -/
structure Apart (condition : Expr) (thenBlock elseBlock : Block) : Prop where
  first : ∀ x ∈ thenBlock.assigned, x ∉ elseBlock.names ∧ ∀ l ∈ condition.literals, x ∉ l.names
  second : ∀ x ∈ elseBlock.assigned, ∀ l ∈ condition.literals ++ thenBlock.literals, x ∉ l.names

/-- A condition passes with two branches when it passes with each of them alone. When the branches are apart,
it passes only then, and no failure of one is hidden by the other. -/
theorem branches_pass_apart {g : Ground} (hhost : g.host.PureRespects) (condition : Expr)
    (thenBlock elseBlock : Block) (helse : elseBlock.isMissing = false)
    (place span place₁ span₁ place₂ span₂ : Span) :
    let both : Program := ⟨place, [.branch span condition thenBlock elseBlock]⟩
    let first : Program := ⟨place₁, [.branch span₁ condition thenBlock .missing]⟩
    let second : Program := ⟨place₂, [.branch span₂ condition elseBlock .missing]⟩
    (first.Passes g → second.Passes g → both.Passes g) ∧
      (Apart condition thenBlock elseBlock → both.Passes g → first.Passes g ∧ second.Passes g) :=
  ⟨passes_both hhost, fun hapart hboth =>
    ⟨passes_then hhost helse hapart.second hboth, passes_else hhost helse hapart.first hboth⟩⟩

theorem passes_of_errorOf? {g : Ground} {p : Program}
    (h : errorOf? (check g (.program p) .initial) = none) : p.Passes g := by
  cases hcheck : check g (.program p) .initial with
  | ok v c => exact ⟨v, c, hcheck⟩
  | error f c =>
    rw [hcheck] at h
    cases h

/-- Each branch has a function of its own, which looks up what the branch assigns. -/
theorem branches_pass_apart_with_functions :
    let symbol (n : UInt8) : Symbol := ⟨.nowhere, [n]⟩
    let setter (n m : UInt8) : Block := .of .nowhere [
      .set .nowhere (some (symbol n)) (.number .nowhere 1),
      .set .nowhere (some (symbol m)) (.function .nowhere none
        (.of .nowhere [.call .nowhere (.symbol ⟨.nowhere, Primitive.print.name⟩) [.symbol (symbol n)]]))]
    let g : Ground := ⟨primitives, Store.empty.addTopLevel, 0⟩
    let condition : Expr := .boolean .nowhere true
    (setter 121 103).isMissing = false ∧ Apart condition (setter 120 102) (setter 121 103) ∧
      Program.Passes ⟨.nowhere, [.branch .nowhere condition (setter 120 102) .missing]⟩ g ∧
      Program.Passes ⟨.nowhere, [.branch .nowhere condition (setter 121 103) .missing]⟩ g := by
  intro symbol setter g condition
  have hboth : Program.Passes
      ⟨.nowhere, [.branch .nowhere condition (setter 120 102) (setter 121 103)]⟩ g := by
    refine passes_of_errorOf? ?_
    dsimp only [g, condition, setter, symbol]
    cbv
  have hapart : Apart condition (setter 120 102) (setter 121 103) := by
    constructor
    · decide
    · decide
  have hhost : g.host.PureRespects := primitivesOn_pureRespects .unfailing
  have hpasses := branches_pass_apart hhost condition (setter 120 102) (setter 121 103) rfl .nowhere
    .nowhere .nowhere .nowhere .nowhere .nowhere
  exact ⟨rfl, hapart, hpasses.2 hapart hboth⟩

/-- The first branch sets what the second one prints. Nobody has set it when the second branch runs. -/
theorem branch_hides_failure :
    let x : Symbol := ⟨.nowhere, [120]⟩
    let g : Ground := ⟨primitives, Store.empty.addTopLevel, 0⟩
    let condition : Expr := .boolean .nowhere true
    let setting : Block := .of .nowhere [.set .nowhere (some x) (.number .nowhere 1)]
    let printing : Block := .of .nowhere
      [.call .nowhere (.symbol ⟨.nowhere, Primitive.print.name⟩) [.symbol x]]
    Program.Passes ⟨.nowhere, [.branch .nowhere condition setting printing]⟩ g ∧
      ¬ Program.Passes ⟨.nowhere, [.branch .nowhere condition printing .missing]⟩ g := by
  intro x g condition setting printing
  constructor
  · refine passes_of_errorOf? ?_
    dsimp only [g, condition, setting, printing, x]
    cbv
  · rintro ⟨v, c, hcheck⟩
    have herror : errorOf? (check g
        (.program ⟨.nowhere, [.branch .nowhere condition printing .missing]⟩) .initial) =
        some (.diagnostic ⟨.unbound x.name, .nowhere⟩) := by
      dsimp only [g, condition, printing, x]
      cbv
    rw [hcheck] at herror
    cases herror

end Stepwise
