import Stepwise.Proofs.Equivalence
import Stepwise.Proofs.Faults
import Stepwise.Proofs.Places

/-! Where failures point to. The nodes of a tree that has been read are places in its text, and whatever
fails in a run among scalars and primitives, in a check or in a step points to one of them: a closure
takes its body along wherever it is called, and a primitive leaves it to the call to say where. -/

namespace Stepwise

open Execution

theorem bodySpan_line (first : Token) (stmts : List Stmt) :
    (bodySpan first stmts).line = first.span.line := by
  rw [bodySpan]
  split <;> rfl

theorem peek_line {eof : Token} {ts : List Token} (hts : ∀ t ∈ ts, 0 < t.span.line)
    (heof : 0 < eof.span.line) : 0 < (peek eof ts).span.line := by
  cases ts with
  | nil => exact heof
  | cons t ts => exact hts t List.mem_cons_self

theorem symbols_lines {symbols : List Symbol} (h : ∀ s ∈ symbols, 0 < s.span.line) (depth : Nat) :
    ∀ visit ∈ Visit.symbols (fun _ => true) depth symbols, 0 < visit.node.span.line := by
  intro visit hvisit
  obtain ⟨s, hs, hvisit⟩ := List.mem_flatMap.mp hvisit
  obtain rfl := List.mem_singleton.mp hvisit
  exact h s hs

section Phrases

theorem block_lines {stop : Token} {ts : List Token} {stmts : List Stmt} {depth : Nat}
    (hts : ∀ t ∈ ts, 0 < t.span.line) (hstop : 0 < stop.span.line)
    (hstmts : ∀ visit ∈ Visit.stmts (fun _ => true) (depth + 1) stmts, 0 < visit.node.span.line) :
    ∀ visit ∈ Visit.block (fun _ => true) depth (blockBefore stop ts stmts),
      0 < visit.node.span.line := by
  refine List.forall_mem_cons.mpr ⟨?_, hstmts⟩
  have hline := peek_line hts hstop
  rwa [← bodySpan_line (peek stop ts) stmts] at hline

mutual

/-- The nodes of a phrase start where its tokens do, so their lines count from one as well. -/
theorem ExprPhrase.lines (d : ExprPhrase) (depth : Nat) (h : ∀ t ∈ d.tokens, 0 < t.span.line) :
    ∀ visit ∈ Visit.expr (fun _ => true) depth d.tree, 0 < visit.node.span.line := by
  cases d with
  | atom a =>
    have hspan : 0 < a.token.span.line := h _ List.mem_cons_self
    cases a <;> exact List.forall_mem_singleton.mpr hspan
  | call opener callee args close =>
    simp only [ExprPhrase.tokens, List.forall_mem_cons, List.forall_mem_append] at h
    obtain ⟨hopener, hcallee, hargs, -⟩ := h
    refine List.forall_mem_cons.mpr ⟨hopener, List.forall_mem_append.mpr ⟨?_, ?_⟩⟩
    · exact callee.lines (depth + 1) hcallee
    · exact ExprPhrase.linesOf args (depth + 1) hargs
  | function word opener params close body stop =>
    simp only [ExprPhrase.tokens, List.forall_mem_cons, List.forall_mem_append] at h
    obtain ⟨hword, hopener, hparams, -, hbody, hstop, -⟩ := h
    have hsymbols : ∀ s ∈ params.map TokenOf.symbol, 0 < s.span.line := by
      intro s hs
      obtain ⟨t, ht, rfl⟩ := List.mem_map.mp hs
      exact hparams _ (List.mem_map_of_mem ht)
    refine List.forall_mem_cons.mpr ⟨hword, List.forall_mem_append.mpr ⟨?_, ?_⟩⟩
    · exact List.forall_mem_cons.mpr ⟨hopener, symbols_lines hsymbols _⟩
    · exact block_lines hbody hstop (StmtPhrase.linesOf body _ hbody)
termination_by structural d

theorem ExprPhrase.linesOf (ds : List ExprPhrase) (depth : Nat)
    (h : ∀ t ∈ ExprPhrase.tokensOf ds, 0 < t.span.line) :
    ∀ visit ∈ Visit.exprs (fun _ => true) depth (ExprPhrase.trees ds), 0 < visit.node.span.line := by
  cases ds with
  | nil => exact fun visit hvisit => absurd hvisit List.not_mem_nil
  | cons d ds =>
    obtain ⟨hd, hds⟩ := List.forall_mem_append.mp h
    exact List.forall_mem_append.mpr ⟨d.lines depth hd, ExprPhrase.linesOf ds depth hds⟩
termination_by structural ds

theorem StmtPhrase.lines (d : StmtPhrase) (depth : Nat) (h : ∀ t ∈ d.tokens, 0 < t.span.line) :
    ∀ visit ∈ Visit.stmt (fun _ => true) depth d.tree, 0 < visit.node.span.line := by
  cases d with
  | set word target value stop =>
    simp only [StmtPhrase.tokens, List.forall_mem_cons, List.forall_mem_append] at h
    obtain ⟨hword, htarget, hvalue, -⟩ := h
    refine List.forall_mem_cons.mpr ⟨hword, List.forall_mem_append.mpr ⟨?_, ?_⟩⟩
    · exact symbols_lines (List.forall_mem_singleton.mpr htarget) _
    · exact value.lines _ hvalue
  | branch word condition body stop =>
    simp only [StmtPhrase.tokens, List.forall_mem_cons, List.forall_mem_append] at h
    obtain ⟨hword, hcondition, hbody, hstop, -⟩ := h
    refine List.forall_mem_cons.mpr ⟨hword, List.forall_mem_append.mpr ⟨?_, nofun⟩⟩
    refine List.forall_mem_append.mpr ⟨condition.lines _ hcondition, ?_⟩
    exact block_lines hbody hstop (StmtPhrase.linesOf body _ hbody)
  | branchElse word condition thenBody middle elseBody stop =>
    simp only [StmtPhrase.tokens, List.forall_mem_cons, List.forall_mem_append] at h
    obtain ⟨hword, hcondition, hthen, hmiddle, helse, hstop, -⟩ := h
    refine List.forall_mem_cons.mpr ⟨hword, List.forall_mem_append.mpr ⟨?_, ?_⟩⟩
    · refine List.forall_mem_append.mpr ⟨condition.lines _ hcondition, ?_⟩
      exact block_lines hthen hmiddle (StmtPhrase.linesOf thenBody _ hthen)
    · exact block_lines helse hstop (StmtPhrase.linesOf elseBody _ helse)
  | times word count body stop =>
    simp only [StmtPhrase.tokens, List.forall_mem_cons, List.forall_mem_append] at h
    obtain ⟨hword, hcount, hbody, hstop, -⟩ := h
    refine List.forall_mem_cons.mpr ⟨hword, List.forall_mem_append.mpr ⟨count.lines _ hcount, ?_⟩⟩
    exact block_lines hbody hstop (StmtPhrase.linesOf body _ hbody)
  | forever word body stop =>
    simp only [StmtPhrase.tokens, List.forall_mem_cons, List.forall_mem_append] at h
    obtain ⟨hword, hbody, hstop, -⟩ := h
    refine List.forall_mem_cons.mpr ⟨hword, List.forall_mem_append.mpr ⟨?_, ?_⟩⟩
    · exact List.forall_mem_singleton.mpr hword
    · exact block_lines hbody hstop (StmtPhrase.linesOf body _ hbody)
  | call opener callee args close =>
    simp only [StmtPhrase.tokens, List.forall_mem_cons, List.forall_mem_append] at h
    obtain ⟨hopener, hcallee, hargs, -⟩ := h
    refine List.forall_mem_cons.mpr ⟨hopener, List.forall_mem_append.mpr ⟨?_, ?_⟩⟩
    · exact callee.lines (depth + 1) hcallee
    · exact ExprPhrase.linesOf args (depth + 1) hargs
termination_by structural d

theorem StmtPhrase.linesOf (ds : List StmtPhrase) (depth : Nat)
    (h : ∀ t ∈ StmtPhrase.tokensOf ds, 0 < t.span.line) :
    ∀ visit ∈ Visit.stmts (fun _ => true) depth (StmtPhrase.trees ds), 0 < visit.node.span.line := by
  cases ds with
  | nil => exact fun visit hvisit => absurd hvisit List.not_mem_nil
  | cons d ds =>
    obtain ⟨hd, hds⟩ := List.forall_mem_append.mp h
    exact List.forall_mem_append.mpr ⟨d.lines depth hd, StmtPhrase.linesOf ds depth hds⟩
termination_by structural ds

end

end Phrases

theorem Span.IsIn.line_pos {source : Bytes} {s : Span} (h : s.IsIn source) : 0 < s.line := by
  have hline := h.line
  rw [lineAt] at hline
  omega

theorem Program.read_lines {source : Bytes} {p : Program} (h : Program.read source = .ok p) :
    ∀ visit ∈ (Node.program p).walk fun _ => true, 0 < visit.node.span.line := by
  obtain ⟨ts, body, hts, htokens, -, rfl⟩ := Program.read_derives h
  have hplaces := scan_places hts
  have hlines : ∀ t ∈ StmtPhrase.tokensOf body, 0 < t.span.line := by
    intro t ht
    rw [← htokens] at ht
    exact (hplaces.placed t (List.mem_append_left _ ht)).line_pos
  refine List.forall_mem_cons.mpr ⟨?_, StmtPhrase.linesOf body 1 hlines⟩
  have hline := peek_line hlines hplaces.atEnd.line_pos
  rwa [← bodySpan_line _ (StmtPhrase.trees body)] at hline

/-- A place in the text of a program: that of one of its nodes. -/
structure Span.IsOf (s : Span) (p : Program) : Prop where
  somewhere : s ≠ .nowhere
  node : ∃ visit ∈ (Node.program p).walk fun _ => true, visit.node.span = s

/-- If a diagnostic has come out, it points to a node of the program. -/
def Failure.PointsInto (p : Program) (f : Failure) : Prop :=
  ∀ d, f.diagnostic? = some d → d.span.IsOf p

/-- A failure points to a node of the program, whatever it is. Stale locations are left out here. -/
def Terms.pointing (p : Program) : Terms where
  permits cause span := cause.isStale = true ∨ span.IsOf p
  sites span := span.IsOf p
  endless := True
  stands _ := True
  ofRun _ hspan := .inr hspan
  ofStale := .inl

theorem Program.read_pointing {source : Bytes} {p : Program} (h : Program.read source = .ok p) :
    Stmt.AllMeet (.pointing p) p.body := by
  refine Program.meets_of_read h ⟨trivial, fun _ => trivial, fun _ _ _ => .inr, fun visit hvisit => ?_⟩
  have hline := Program.read_lines h visit hvisit
  refine ⟨fun hnowhere => ?_, visit, hvisit, rfl⟩
  rw [hnowhere] at hline
  exact absurd hline (by decide)

/-- What a primitive refuses has the place of the call. -/
theorem allowsPrimitives_pointing (p : Program) : (Terms.pointing p).AllowsPrimitives := by
  intro n s scope args written f span hspan h d hd
  rw [Failure.placedAt] at hd
  split at hd
  · next d' hd' =>
    have hnowhere : d'.span.isNowhere = true := by
      rw [(primitives_refuses h hd').1]
      rfl
    have hsomewhere : span.isNowhere = false := by
      simpa [Span.isNowhere] using hspan.somewhere
    rw [hnowhere, hsomewhere] at hd
    cases hd
    exact .inr hspan
  · next hnone =>
    rw [hnone] at hd
    cases hd

theorem Failure.Due.pointsInto {p : Program} {f : Failure} (h : f.Due (.pointing p)) :
    f.PointsInto p := by
  intro d hd
  refine (h.permitted d hd).resolve_left fun hcause => ?_
  have hstale := h.current
  rw [Failure.isStale, hd, Option.any_some, hcause] at hstale
  cases hstale

def Stop.PointsInto (p : Program) : Stop → Prop
  | .failure f => f.PointsInto p
  | .noProgram | .outOfSteps => True

theorem Stop.Due.pointsInto {p : Program} {stop : Stop} (h : stop.Due (.pointing p)) :
    stop.PointsInto p := by
  cases stop with
  | failure f => exact Failure.Due.pointsInto h
  | noProgram | outOfSteps => trivial

namespace Setting

variable {setting : Setting} {scope : ScopeId} {p : Program} {r : Realm}

/-- Between two steps: the store is in order, and the location is over or leads to a place in the
program. -/
structure Pausing (r : Realm) (scope : ScopeId) (p : Program) (a : Pause) : Prop where
  store : r.Upholds a.memory.store
  place : a.location.done = true ∨ ∃ c : Spot, c.At a.location ∧ c.Matches p scope a.memory.store

theorem Pausing.step (hhost : setting.host = primitives) (hallows : r.terms.AllowsPrimitives)
    (hmeets : Stmt.AllMeet r.terms p.body) (hp : p.Proper) (hscope : r.home scope) {a b : Pause}
    (h : Pausing r scope p a) (hto : setting.StepTo scope (.program p) a b) : Pausing r scope p b := by
  obtain ⟨hdone, used, hends⟩ := hto
  have hstep : setting.step scope (.program p) a.location (a.memory.world used) =
    .ok ⟨b.value, b.location⟩ (b.memory.world 0) := hends 0
  obtain ⟨hafter, -⟩ := step_permitted (w := a.memory.world used) hhost hallows hmeets hscope h.store
    a.location
  rw [after_ok hstep] at hafter
  obtain ⟨c, hloc, hc⟩ := h.place.resolve_left (by simp [hdone])
  refine ⟨hafter, ?_⟩
  obtain ⟨hnext, -⟩ | ⟨c', hnext, hc', -⟩ := step_ok_matches hp hc hloc hstep
  · refine .inl ?_
    have hnext : b.location = .finished := hnext
    rw [hnext]
    rfl
  · have hnext : b.location = 0 :: c'.path := hnext
    exact .inr ⟨c', hnext ▸ c'.at_path, hc'⟩

theorem Pausing.reaches (hhost : setting.host = primitives) (hallows : r.terms.AllowsPrimitives)
    (hmeets : Stmt.AllMeet r.terms p.body) (hp : p.Proper) (hscope : r.home scope) {a b : Pause}
    (h : Pausing r scope p a) (hreach : setting.Reaches scope (.program p) a b) :
    Pausing r scope p b := by
  induction hreach with
  | refl => exact h
  | tail _ hto ih => exact ih.step hhost hallows hmeets hp hscope hto

theorem Pausing.step_due (hhost : setting.host = primitives) (hallows : r.terms.AllowsPrimitives)
    (hmeets : Stmt.AllMeet r.terms p.body) (hp : p.Proper) (hscope : r.home scope) {a : Pause}
    (h : Pausing r scope p a) {polls : Nat} {f : Failure} {w : World}
    (hstep : setting.step scope (.program p) a.location (a.memory.world polls) = .error f w) :
    f.Due r.terms := by
  obtain ⟨-, hpermitted⟩ := step_permitted (w := a.memory.world polls) hhost hallows hmeets hscope
    h.store a.location
  refine ⟨hpermitted f w hstep, ?_⟩
  obtain hdone | ⟨c, hloc, hc⟩ := h.place
  · rw [Setting.step_eq, if_pos hdone] at hstep
    cases hstep
  · obtain ⟨-, hblames⟩ := step_error_matches hp hc hloc hstep
    exact not_stale (hhost ▸ hblames)

end Setting

/-- Every diagnostic points into the text. A text that cannot be read has a bad form in a range of its
bytes, given with the line and column of its start. The program of a text that can be read is evaluated,
checked and stepped through, on its own or in a session, in a namespace of scalars and primitives, under
any limit and wherever it is canceled: each diagnostic of that has the place of a node of the program. -/
theorem diagnostics_point_into_the_text (source : Bytes) :
    (∀ d, Program.read source = .error d → d.kind = .badForm ∧ d.span.IsIn source) ∧
    ∀ p, Program.read source = .ok p → ∀ setting : Setting, setting.host = primitives →
      ∀ (store : Store) (scope : ScopeId), scope < store.scopes.size → store.HoldsScalars scope →
        (∀ written polls f w,
          setting.evaluate scope (.program p) ⟨store, written, polls⟩ = .error f w → f.PointsInto p) ∧
        (∀ f c, check ⟨setting.host, store, scope⟩ (.program p) .initial = .error f c →
          f.PointsInto p) ∧
        (∀ written b, setting.Reaches scope (.program p) ⟨.absent, .start, ⟨store, written⟩⟩ b →
          ∀ polls f w, setting.step scope (.program p) b.location (b.memory.world polls) = .error f w →
            f.PointsInto p) ∧
        ∀ (o : SessionOptions), o.setting = setting → o.root = scope →
          (∀ entry ∈ o.seeds.entries, entry.2.isScalar = true) →
          ∀ written polls l, (o.start ⟨store, written, polls⟩).ReachesOn source l →
            ∀ polls stop, let l := l.withPolls polls
              (∀ l', Session.step l = .error stop l' → stop.PointsInto p) ∧
              (∀ l', Session.evaluate l = .error stop l' → stop.PointsInto p) ∧
              (∀ l', Session.check l = .error stop l' → stop.PointsInto p) ∧
              ∀ budget, (l.run budget).1.stop = some stop → stop.PointsInto p := by
  refine ⟨fun d h => ⟨read_error_kind h, read_error_place h⟩, ?_⟩
  intro p hread setting hhost store scope hscope hscalars
  let realm := Realm.around (.pointing p) store scope
  have hmeets : Stmt.AllMeet realm.terms p.body := Program.read_pointing hread
  have hallows : realm.terms.AllowsPrimitives := allowsPrimitives_pointing p
  have hupholds : realm.Upholds store := upholds_around hscalars _
  have hhome : realm.home scope := .inl rfl
  refine ⟨fun written polls f w h => ?_, fun f c h => ?_, fun written b hreach polls f w h => ?_, ?_⟩
  · have hevaluate := evaluate_due (w := ⟨store, written, polls⟩) hhost hallows hmeets hhome hupholds
    exact (hevaluate.2 f w h).pointsInto
  · exact (check_due hhost hallows hmeets h).pointsInto
  · have hloops : store.loops? scope = none := by
      cases hloops : store.loops? scope with
      | none => rfl
      | some ref =>
        rw [Store.loops?_eq_some_iff] at hloops
        cases hscalars scope (Store.mem_chain_of_lookup? hloops) _ _ hloops
    obtain ⟨hready, hframes⟩ := Store.ready_of_no_loops hscope hloops
    have hstart : Setting.Pausing realm scope p ⟨.absent, .start, ⟨store, written⟩⟩ :=
      ⟨hupholds, .inr ⟨.start, Spot.at_start, hready, Spot.fits_start rfl, hframes⟩⟩
    have hproper := read_proper hread
    have hpausing := hstart.reaches hhost hallows hmeets hproper hhome hreach
    exact (hpausing.step_due hhost hallows hmeets hproper hhome h).pointsInto
  · rintro o rfl rfl hseeds written polls l hreach polls' stop
    have hserves : Live.Serves o realm source p := ⟨hread, hhost, hmeets, hallows, .inl rfl, hseeds⟩
    have hl := hserves.reaches (w := ⟨store, written, polls⟩) hupholds hreach
    have hsound : (l.withPolls polls').Sound o realm source :=
      ⟨hl.kept.withPolls polls', hl.follows.congr rfl rfl hl.follows.store⟩
    refine ⟨fun l' h => ?_, fun l' h => ?_, fun l' h => ?_, fun budget h => ?_⟩
    · exact (hserves.step_stop hsound h).pointsInto
    · exact (hserves.evaluate_stop hsound h).pointsInto
    · exact (hserves.check_stop hsound h).pointsInto
    · exact (hserves.runFrom_stop budget _ 0 hsound h).pointsInto

/-- The second step calls a closure, and what fails is a primitive that is called in its body. Of the
other text the second line opens a call that is never closed. -/
theorem diagnostics_point_into_the_text_from_closure :
    let unclosed := utf8 "set x 1 end\n  (add x"
    let source := utf8 "set f function (x) (add x true) end end (f 2)"
    let o : SessionOptions := ⟨⟨primitives, 5⟩, 0, .location, .empty, false⟩
    let start := o.start ⟨Store.empty.addTopLevel, #[], 0⟩
    let l := ((start.load source).withPolls 9).perform .step
    (∃ d, Program.read unclosed = .error d ∧ d.span = ⟨14, 15, 2, 3⟩ ∧ d.span.IsIn unclosed) ∧
    ∃ p d l', Program.read source = .ok p ∧
      Session.step (l.withPolls 9) = .error (.failure (.diagnostic d)) l' ∧
      d.span = ⟨19, 31, 1, 20⟩ ∧ d.span.IsOf p := by
  intro unclosed source o start l
  have hfault : (Program.read unclosed).map (fun _ => ()) =
      .error ⟨.unterminatedCall, ⟨14, 15, 2, 3⟩⟩ := by
    dsimp only [unclosed]
    cbv
  have hread : (Program.read source).isOk = true := by
    dsimp only [source]
    cbv
  have hstop : errorOf? (Session.step (l.withPolls 9)) =
      some (.failure (.diagnostic ⟨.operands Primitive.add.name .integer .boolean, ⟨19, 31, 1, 20⟩⟩)) := by
    dsimp only [l, start, o, source]
    cbv
  constructor
  · cases h : Program.read unclosed with
    | ok p =>
      rw [h] at hfault
      cases hfault
    | error d =>
      rw [h] at hfault
      obtain rfl := Except.error.inj hfault
      exact ⟨_, rfl, rfl, ((diagnostics_point_into_the_text unclosed).1 _ h).2⟩
  · obtain ⟨p, hread⟩ : ∃ p, Program.read source = .ok p := by
      cases h : Program.read source with
      | ok p => exact ⟨p, rfl⟩
      | error d =>
        rw [h] at hread
        cases hread
    have hreach : start.ReachesOn source l :=
      .tail (.single ⟨0, .load source, rfl, rfl⟩) ⟨9, .step, trivial, rfl⟩
    obtain ⟨l', hstep⟩ := errorOf?_eq_some hstop
    obtain ⟨-, -, -, hsessions⟩ := (diagnostics_point_into_the_text source).2 p hread ⟨primitives, 5⟩ rfl
      Store.empty.addTopLevel 0 (by decide) holdsScalars_topLevel
    have hpoints := (hsessions o rfl rfl (fun _ h => absurd h List.not_mem_nil) #[] 0 l hreach 9 _).1 l' hstep
    exact ⟨p, _, l', hread, hstep, rfl, hpoints _ rfl⟩

end Stepwise
