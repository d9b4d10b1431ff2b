import Stepwise.Proofs.Tracing
import Stepwise.Proofs.Visits

/-! The check raises no alarm on a program whose statements are all executed. The bodies of functions
are visited after everything else, when the check knows of what was assigned only which names are
functions. In such a body it knows the names of the body itself as anywhere, those around it not at all
or as functions that the run does set, and the others as they were before the run. -/

namespace Stepwise

open Execution Finding

namespace CheckState

variable {c c' : CheckState} {r : Run} {S : ScratchId} {t : Task}

/-- Nothing is known but functions that the run sets. -/
def Faded (c : CheckState) (r : Run) : Prop :=
  ∀ i x f, (c.bindings i).get? x = some f →
    f = .unknown ∨ ∃ l, f = .known (.function l) ∧ r.SetsFunction x l.literal.arity

theorem Justified.forget (h : c.Justified r) : c.forget.Faded r := by
  intro i x f hf
  rw [get?_forget] at hf
  obtain ⟨g, hg, rfl⟩ := Option.map_eq_some_iff.mp hf
  rw [forgotten]
  split
  · next hfun =>
    obtain ⟨l, rfl⟩ : ∃ l, g = .known (.function l) := by
      cases g with
      | unknown => cases hfun
      | known v =>
        cases v with
        | function l => exact ⟨l, rfl⟩
        | _ => cases hfun
    exact .inr ⟨l, rfl, h i x l hg⟩
  · exact .inl rfl

theorem justified_initial : initial.Justified r := by
  intro i x l hl
  rw [bindings, initial, Array.getElem?_empty] at hl
  cases hl

theorem Faded.justified (h : c.Faded r) : c.Justified r := by
  intro i x l hl
  obtain hf | ⟨l', hf, hsets⟩ := h i x _ hl
  · cases hf
  · cases hf
    exact hsets

/-- A body that waits belongs to a function of the program, and all names of the bodies around it are
bound where it waits. -/
def Awaits (c : CheckState) (r : Run) (w : Waiting) : Prop :=
  ∃ around, (w.literal, around) ∈ r.program.functions ∧ c.Rooted w.scope ∧
    ∀ x ∈ around, c.Binds w.scope x

theorem Awaits.forget {w : Waiting} (h : c.Awaits r w) : c.forget.Awaits r w := by
  obtain ⟨around, hwritten, hrooted, hbinds⟩ := h
  exact ⟨around, hwritten, hrooted.forget, fun x hx => (hbinds x hx).forget⟩

theorem Awaits.extend {w : Waiting} (h : c.Awaits r w) (outer : List ScratchId)
    (b : Bindings Finding) : (c.extend outer b).Awaits r w := by
  obtain ⟨around, hwritten, hrooted, hbinds⟩ := h
  exact ⟨around, hwritten, hrooted.extended outer b, fun x hx => (hbinds x hx).extend hrooted outer b⟩

/-- After a visit, those wait that waited before and those written in what has been visited. -/
theorem Visited.awaits (hv : Visited S t c c') (hS : c.Rooted S) {around : List Name}
    (hwritten : t.functions around ⊆ r.program.functions) (haround : ∀ x ∈ around, c'.Binds S x)
    (h : ∀ w ∈ c.waiting, c.Awaits r w) : ∀ w ∈ c'.waiting, c'.Awaits r w := by
  obtain ⟨new, hnew, hws⟩ := hv.waiting
  intro w hw
  rw [hnew] at hw
  obtain hw | hw := Array.mem_append.mp hw
  · obtain ⟨around, hwritten, hrooted, hbinds⟩ := h w hw
    exact ⟨around, hwritten, hv.rooted hrooted, fun x hx => (hbinds x hx).visited hrooted hv⟩
  · obtain ⟨hwritten', hrooted, hsuffix⟩ := hws w hw
    refine ⟨around, hwritten (hwritten' around), hrooted, fun x hx => (haround x hx).inside ?_⟩
    rwa [hv.chain S hS.1]

end CheckState

namespace Run

variable {r : Run} {c c' : CheckState} {S : ScratchId} {m : Moment}

theorem minds_setsFunction (hkeeps : r.KeepsArities) {g : ScopeId} (hg : g ≠ r.scope) :
    r.Minds r.SetsFunction g := by
  rintro fresh m s v n hreach rfl hlookup hget hsets
  exact hkeeps s.name n v hsets ⟨fresh, m, s, hreach, rfl, hg, hlookup, hget⟩

theorem known_of_called {source : Bytes} (hread : Program.read source = .ok r.program)
    (hhost : r.setting.host = primitives) (hns : r.start.store.IsNamespace r.scope)
    (hkeeps : r.KeepsArities) {l : Literal} {around : List Name}
    (hl : (l, around) ∈ r.program.functions) (hfaded : c.Faded r) (hrooted : c.Rooted S)
    (hbinds : ∀ x ∈ around, c.Binds S x) (hm : r.called l m) :
    r.Known r.SetsFunction
      (c.extend (c.chain S) (.ofList (l.paramNames.map fun x => (x, .unknown)))) c.scopes.size m := by
  obtain ⟨closure, rfl, hreach⟩ := hm
  obtain ⟨own, hfits, hentered⟩ := hreach.confines hhost hns
  refine ⟨fun x v hget => ?_, minds_setsFunction hkeeps hentered.new⟩
  rw [CheckState.get?_extend_new hrooted, Bindings.get?_ofList_const]
  by_cases hx : x ∈ closure.literal.paramNames
  · rw [if_pos hx]
    exact ⟨.unknown, rfl, .inl trivial⟩
  rw [if_neg hx, Option.none_or]
  obtain ⟨hlookup, houtside⟩ := hentered.outside x hx
  by_cases hbound : c.Binds S x
  · obtain ⟨i, f, hf, hget'⟩ := hbound.get? r.ground
    refine ⟨f, hget', ?_⟩
    obtain rfl | ⟨l, rfl, hsets⟩ := hfaded i x f hf
    · exact .inl trivial
    · exact .inr ⟨hlookup, l, rfl, hsets⟩
  · -- No body around the function binds the name, so it is still what it was before the run.
    have hown : own closure.scope = around :=
      Program.read_functions_injective hread hentered.written hl
    have hfree : x ∉ own closure.scope := hown ▸ fun hmem => hbound (hbinds x hmem)
    have hstart : r.start.store.get? r.scope x = some v := by
      rw [← hfits.confined.unbound closure.scope hentered.live x hfree, ← houtside]
      exact hget
    refine ⟨.known v, ?_, .inl (covers_self v)⟩
    rw [CheckState.get?_of_not_binds hbound, ground, hstart]
    rfl

/-- The check is through with everything but some bodies that wait. -/
structure Deferred (r : Run) (c : CheckState) : Prop where
  justified : c.Justified r
  waiting : ∀ w ∈ c.waiting, c.Awaits r w

section Bodies

variable {source : Bytes} (hread : Program.read source = .ok r.program) (hends : r.Ends)
  (hhost : r.setting.host = primitives) (hns : r.start.store.IsNamespace r.scope)
  (hlive : ∀ q ∈ r.occasions, ∃ m, q.2 m) (hkeeps : r.KeepsArities)

include hread hends hhost hns hlive hkeeps

theorem checkWaiting_quiet {w : Waiting} (h : r.Deferred c) (hw : w ∈ c.waiting) :
    ∃ c', checkWaiting r.ground w c = .ok () c' ∧ r.Deferred c' := by
  obtain ⟨around, hwritten, hrooted, hbinds⟩ := (h.waiting w hw).forget
  let params : Bindings Finding := .ofList (w.literal.paramNames.map fun x => (x, .unknown))
  let opened := c.forget.extend (c.forget.chain w.scope) params
  have hparams (x : Name) (f : Finding) (hf : params.get? x = some f) : f = .unknown := by
    rw [Bindings.get?_ofList_const] at hf
    split at hf
    · exact (Option.some.inj hf).symm
    · cases hf
  have hwatched : r.Watched r.SetsFunction (.block w.literal.body) (r.called w.literal) opened
      c.forget.scopes.size := by
    refine ⟨hrooted.extend params, h.justified.forget.justified.extend _ hparams, ?_, fun m hm =>
      known_of_called hread hhost hns hkeeps hwritten h.justified.forget hrooted hbinds hm⟩
    rintro m ⟨closure, hliteral, hreach⟩
    exact hliteral ▸ hreach.inside
  have hbody : ∀ q ∈ w.literal.body.occasions r (r.called w.literal), ∃ m, q.2 m := fun q hq =>
    hlive q (Stmt.occasionsOf_nested r.program.body hwritten hq)
  obtain ⟨f, c', hcheck, hpasses⟩ := checkBlock_quiet hends hhost hns w.literal.body hbody hwatched
  refine ⟨c', ?_, hpasses.justified, hpasses.visited.awaits hwatched.rooted
    (Stmt.functionsOf_nested r.program.body hwritten) (fun x hx => ?_) fun w hw =>
      ((h.waiting w hw).forget.extend _ params)⟩
  · rw [checkWaiting]
    exact (bind_ok hcheck).trans rfl
  · have hopened (hx : (params.get? x).isSome ∨ c.forget.Binds w.scope x) :
        c'.Binds c.forget.scopes.size x :=
      (CheckState.binds_extend_new hrooted hx).visited hwatched.rooted hpasses.visited
    obtain hx | hx := List.mem_append.mp hx
    · obtain hx | hx := List.mem_append.mp hx
      · exact hopened (.inl (by simp [params, Bindings.get?_ofList_const, hx]))
      · exact hpasses.visited.binds hwatched.rooted hx
    · exact hopened (.inr (hbinds x hx))

theorem checkAllWaiting_quiet (bodies turn : Nat) (h : r.Deferred c) :
    ∃ c', checkAllWaiting r.ground bodies turn c = .ok () c' := by
  induction bodies generalizing turn c with
  | zero => exact ⟨c, rfl⟩
  | succ bodies ih =>
    have hget : (get : Checking CheckState) c = .ok c c := rfl
    simp only [checkAllWaiting, bind_ok hget]
    cases hw : c.waiting[turn]? with
    | none => exact ⟨c, rfl⟩
    | some w =>
      obtain ⟨c₁, hcheck, h₁⟩ := checkWaiting_quiet hread hends hhost hns hlive hkeeps h
        (Array.mem_of_getElem? hw)
      obtain ⟨c₂, hrest⟩ := ih (turn + 1) h₁
      exact ⟨c₂, (bind_ok hcheck).trans hrest⟩

end Bodies

theorem start_watched :
    r.Watched (fun _ _ => False) (.body r.program.body) (· = r.origin)
      (CheckState.initial.extend [] .empty) 0 := by
  have hchain : (CheckState.initial.extend [] .empty).chain 0 = [0] :=
    CheckState.chain_extend_new .initial [] .empty
  have hbindings : (CheckState.initial.extend [] .empty).bindings 0 = .empty :=
    CheckState.bindings_extend_new .initial [] .empty
  have hfree (x : Name) : ¬ (CheckState.initial.extend [] .empty).Binds 0 x := by
    rintro ⟨i, hi, hsome⟩
    obtain rfl : i = 0 := by simpa [hchain] using hi
    rw [hbindings] at hsome
    cases hsome
  refine ⟨⟨Nat.zero_lt_one, fun i hi => ?_⟩, ?_, ?_, ?_⟩
  · obtain rfl : i = 0 := by simpa [hchain] using hi
    exact Nat.zero_lt_one
  · exact CheckState.Justified.extend CheckState.justified_initial [] (by simp)
  · rintro m rfl
    exact .start
  · rintro m rfl
    refine ⟨fun x v hget => ⟨.known v, ?_, .inl (covers_self v)⟩, ?_⟩
    · rw [CheckState.get?_of_not_binds (hfree x)]
      exact congrArg (Option.map Finding.known) hget
    · intro _ _ _ _ _ _ _ _ _ hfalse
      exact hfalse.elim

end Run

/-- The check accepts a program that a run comes to the end of, if every statement of it is executed
while the loops around it are in their first pass, and if no body of a function finds outside of its own
scope, for a name that the run sets to a function, anything but a function with as many parameters. -/
theorem check_accepts_live_programs {r : Run} {source : Bytes}
    (hread : Program.read source = .ok r.program) (hhost : r.setting.host = primitives)
    (hns : r.start.store.IsNamespace r.scope) (hends : r.Ends)
    (hlive : ∀ s ∈ r.program.stmts, r.Executed true s) (hkeeps : r.KeepsArities) :
    ∃ v c, check r.ground (.program r.program) .initial = .ok v c := by
  have hoccasions := r.occasions_nonempty hhost hns (Program.read_stmts_nodup hread) hlive
  have hwatched := r.start_watched
  obtain ⟨f, c₁, hbody, hpasses⟩ :=
    r.checkBody_quiet hends hhost hns r.program.body (.known .absent) hoccasions hwatched
  have hdeferred : r.Deferred c₁ :=
    ⟨hpasses.justified, hpasses.visited.awaits hwatched.rooted (List.Subset.refl _)
      (fun x hx => hpasses.visited.binds hwatched.rooted hx) fun w hw => (Array.not_mem_empty w hw).elim⟩
  obtain ⟨c₂, hrest⟩ := r.checkAllWaiting_quiet hread hends hhost hns hoccasions hkeeps
    (Node.program r.program).literalCount 0 hdeferred
  rw [check]
  cases f with
  | known v => exact ⟨v, c₂, (bind_ok hbody).trans ((bind_ok hrest).trans rfl)⟩
  | unknown => exact ⟨.absent, c₂, (bind_ok hbody).trans ((bind_ok hrest).trans rfl)⟩

/-- One function that calls another, in a loop. -/
theorem check_accepts_live_programs_in_loop :
    let source := utf8
      "set f function (a) (add a 1) end end set g function () (f 2) end end times 2 (g) end"
    let r := Run.ofSource source 5 50
    r.Ends ∧ ∃ v c, check r.ground (.program r.program) .initial = .ok v c := by
  intro source r
  have hrun : ((Program.read source).toOption.isSome && r.isLive true 24 && r.keepsArities 24) = true := by
    dsimp only [r, source]
    cbv
  obtain ⟨hlive, hkeeps⟩ := Bool.and_eq_true_iff.mp hrun
  obtain ⟨hsome, hlive⟩ := Bool.and_eq_true_iff.mp hlive
  have hread := Run.read_ofSource 5 50 hsome
  have hns : r.start.store.IsNamespace r.scope := Run.ofSource_isNamespace
  obtain ⟨hends, hexecuted⟩ := Run.isLive_sound hread rfl hns hlive
  refine ⟨hends, check_accepts_live_programs hread rfl hns hends (fun s hs => ?_)
    (Run.keepsArities_sound hkeeps)⟩
  obtain ⟨fresh, hfresh, hs⟩ := hexecuted s hs
  exact hfresh rfl ▸ hs

/-- A program that a run comes to the end of, with every statement executed, and that the check does not
accept. -/
structure Run.FalseAlarm (r : Run) : Prop where
  read : ∃ source, Program.read source = .ok r.program
  host : r.setting.host = primitives
  scope : r.start.store.IsNamespace r.scope
  ends : r.Ends
  executed : ∀ s ∈ r.program.stmts, ∃ fresh, r.Executed fresh s
  alarm : ¬ ∃ v c, check r.ground (.program r.program) .initial = .ok v c

theorem Run.falseAlarm_of_isLive {source : Bytes} {r : Run} (hr : r = ofSource source 5 50)
    (h : ((Program.read source).toOption.isSome && r.isLive false 12 &&
      !isOk (check r.ground (.program r.program) .initial)) = true) : r.FalseAlarm := by
  subst hr
  obtain ⟨hlive, halarm⟩ := Bool.and_eq_true_iff.mp h
  obtain ⟨hsome, hlive⟩ := Bool.and_eq_true_iff.mp hlive
  have hread := read_ofSource 5 50 hsome
  obtain ⟨hends, hexecuted⟩ := isLive_sound hread rfl ofSource_isNamespace hlive
  refine ⟨⟨source, hread⟩, rfl, ofSource_isNamespace, hends, fun s hs => ?_, fun hok => ?_⟩
  · obtain ⟨fresh, -, hs⟩ := hexecuted s hs
    exact ⟨fresh, hs⟩
  · rw [isOk_iff.mpr hok] at halarm
    cases halarm

/-- The check takes a name for the function it is set to last, also in a body that was called before; and
it visits the body of a loop once, with the values from before the loop. -/
theorem live_programs_may_alarm :
    (Run.ofSource (utf8 "set g function () (add 1 2) end end (g) set add function () end end")
      5 50).FalseAlarm ∧
    (Run.ofSource (utf8 "set a null end times 2 if a (a) else set a function () end end end end")
      5 50).FalseAlarm := by
  constructor
  · exact Run.falseAlarm_of_isLive rfl (by cbv)
  · exact Run.falseAlarm_of_isLive rfl (by cbv)

end Stepwise
