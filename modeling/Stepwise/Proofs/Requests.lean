import Stepwise.Proofs.Suspension
import Stepwise.Proofs.Verdicts

/-! What a session is asked for and what it answers. Linked sessions answer alike, and they stay linked:
they write the same, and trace the same lines. -/

namespace Stepwise

open Execution

/-- What somebody who holds a session can ask it for. -/
inductive Request where
  | load (text : Bytes)
  | step
  | run (budget : Int)
  | check
  | evaluate
  | reset

def Request.action : Request → Live.Action
  | .load text => .load text
  | .step => .step
  | .run budget => .run budget
  | .check => .check
  | .evaluate => .evaluate
  | .reset => .reset

/-- What a session tells of a request: the value of a step or an evaluation, what is wrong with the
program if anything is, or how far a run has come. -/
inductive Answer where
  | done
  | value (v : Value)
  | refused (stop : Stop)
  | report (r : RunReport)

/-- Answers with linked values, and else the same. -/
inductive Answer.Linked (k : Link) : Answer → Answer → Prop
  | done : Linked k .done .done
  | value {v v' : Value} : v.Linked k v' → Linked k (.value v) (.value v')
  | refused (stop : Stop) : Linked k (.refused stop) (.refused stop)
  | report (r : RunReport) : Linked k (.report r) (.report r)

theorem Answer.Linked.mono {k k' : Link} (hle : k ≤ k') {a a' : Answer} (h : a.Linked k a') :
    a.Linked k' a' := by
  cases h with
  | done => exact .done
  | value hv => exact .value (hv.mono hle)
  | refused stop => exact .refused stop
  | report r => exact .report r

namespace Running

variable {α : Type}

/-- The answer that comes of something done, with what is told of its value. -/
def answer (x : Running α) (tell : α → Answer) (l : Live) : Answer :=
  match x l with
  | .ok a _ => tell a
  | .error stop _ => .refused stop

end Running

namespace Live

def answer (l : Live) : Request → Answer
  | .load _ | .reset => .done
  | .step => Running.answer Session.step .value l
  | .run budget => .report (l.run budget).1
  -- a check tells whether it has passed, and not what it knows
  | .check => Running.answer Session.check (fun _ => .done) l
  | .evaluate => Running.answer Session.evaluate .value l

/-- The sessions are linked, and since they were `m` and `m'` they have written the same and traced the
same lines. -/
structure Abreast (m m' : Live) (k : Link) (l l' : Live) : Prop where
  linked : l.Linked k l'
  polls : l'.world.polls = l.world.polls
  written : ∃ more : List Bytes,
    l.world.written = m.world.written ++ more ∧ l'.world.written = m'.world.written ++ more
  trace : ∃ more : List Bytes,
    l.session.trace = m.session.trace ++ more ∧ l'.session.trace = m'.session.trace ++ more

namespace Abreast

variable {m m' l l' : Live} {k k' : Link}

theorem refl (h : l.Linked k l') (hpolls : l'.world.polls = l.world.polls) : l.Abreast l' k l l' :=
  ⟨h, hpolls, ⟨[], by simp⟩, ⟨[], by simp⟩⟩

/-- What confuses the host at first confuses it for good. -/
theorem confuses (h : m.Abreast m' k l l') {host : Host}
    (hm : host.Confuses m.world.written m'.world.written) :
    host.Confuses l.world.written l'.world.written := by
  obtain ⟨more, hmore, hmore'⟩ := h.written
  rw [hmore, hmore']
  exact hm.append more

theorem withPolls (h : m.Abreast m' k l l') (polls : Nat) :
    m.Abreast m' k (l.withPolls polls) (l'.withPolls polls) :=
  ⟨⟨h.linked.options, h.linked.loaded, h.linked.scope, h.linked.location, h.linked.result,
    h.linked.store⟩, rfl, h.written, h.trace⟩

theorem world (h : m.Abreast m' k l l') (hle : k ≤ k') {s t : Store} (hst : s.Linked k' t)
    {texts : List Bytes} (polls : Nat) :
    m.Abreast m' k' ⟨l.session, s, l.world.written ++ texts, polls⟩
      ⟨l'.session, t, l'.world.written ++ texts, polls⟩ := by
  obtain ⟨more, hmore, hmore'⟩ := h.written
  refine ⟨⟨h.linked.options, h.linked.loaded, Link.scope_le hle h.linked.scope, h.linked.location,
    h.linked.result.mono hle, hst⟩, rfl, ⟨more ++ texts, ?_, ?_⟩, h.trace⟩
  · simp only [hmore, written_append]
  · simp only [hmore', written_append]

theorem place (h : m.Abreast m' k l l') (loc : Location) {v v' : Value} (hv : v.Linked k v') :
    m.Abreast m' k ⟨{ l.session with location := loc, result := v }, l.world⟩
      ⟨{ l'.session with location := loc, result := v' }, l'.world⟩ :=
  ⟨⟨h.linked.options, h.linked.loaded, h.linked.scope, rfl, hv, h.linked.store⟩, h.polls, h.written,
    h.trace⟩

theorem traceLine (h : m.Abreast m' k l l') (line : Bytes) :
    m.Abreast m' k ⟨l.session.traceLine line, l.world⟩ ⟨l'.session.traceLine line, l'.world⟩ := by
  obtain ⟨more, hmore, hmore'⟩ := h.trace
  have htracing : l'.session.options.tracing = l.session.options.tracing := by rw [h.linked.options]
  rw [Session.traceLine, Session.traceLine, htracing]
  split
  · refine ⟨⟨h.linked.options, h.linked.loaded, h.linked.scope, h.linked.location, h.linked.result,
      h.linked.store⟩, h.polls, h.written, ⟨more ++ [line], ?_, ?_⟩⟩
    · rw [hmore, ← written_append]
      rfl
    · rw [hmore', ← written_append]
      rfl
  · exact h

theorem advance (h : m.Abreast m' k l l') {r r' : Stepped} (hr : r.Linked k r') :
    m.Abreast m' k ⟨l.session.advance l.world.store r, l.world⟩
      ⟨l'.session.advance l'.world.store r', l'.world⟩ := by
  have hplace := h.place r.next hr.value
  rw [Session.advance, Session.advance, h.linked.location, hr.next,
    h.linked.store.text_eq hr.value]
  exact hplace.traceLine _

theorem stay (h : m.Abreast m' k l l') (f : Failure) :
    m.Abreast m' k ⟨l.session.stay f, l.world⟩ ⟨l'.session.stay f, l'.world⟩ := by
  rw [Session.stay, Session.stay, h.linked.location]
  exact h.traceLine _

/-- A scope is cleared of its loops on both sides. -/
theorem clearLoops (h : m.Abreast m' k l l') :
    m.Abreast m' k (l.withStore fun s => s.clearLoops l.session.scope)
      (l'.withStore fun s => s.clearLoops l'.session.scope) := by
  have hstore := h.linked.store.delete h.linked.scope loopBinding
  exact ⟨⟨h.linked.options, h.linked.loaded, h.linked.scope, h.linked.location, h.linked.result, hstore⟩,
    h.polls, h.written, h.trace⟩

theorem load (h : m.Abreast m' k l l') (text : Bytes) : m.Abreast m' k (l.load text) (l'.load text) := by
  have hclear := h.clearLoops
  exact ⟨⟨h.linked.options, rfl, h.linked.scope, rfl, rfl, hclear.linked.store⟩, h.polls, h.written,
    h.trace⟩

end Abreast

end Live

/-- Scalar seeds make linked scopes. -/
theorem Store.Linked.addScope {k : Link} {s t : Store} {o : SessionOptions} (h : s.Linked k t)
    (hroot : k.scope o.root o.root) (hseeds : ∀ entry ∈ o.seeds.entries, entry.2.isScalar) :
    (o.addScope s).Linked (k.withScope s.nextScope t.nextScope) (o.addScope t) := by
  refine h.extend hroot (Bindings.linked_ofList (List.forall₂_same.mpr fun entry hentry => ⟨rfl, ?_⟩))
  obtain ⟨⟨name, v⟩, hmem, rfl⟩ := List.mem_map.mp hentry
  exact (Value.linked_self (hseeds _ (List.mem_mergeSort.mp hmem))).orNull

theorem Session.step_options {l l' : Live} {v : Value} (h : Session.step l = .ok v l') :
    l'.session.options = l.session.options := by
  obtain rfl | ⟨p, s, w, trace, -, -, -, rfl⟩ := Session.step_eq_ok h
  · rfl
  · rfl

/-- The session has ended up in a state `Abreast` of the other one's, with a linked value or for the same
reason; meanwhile links have come to lead to nothing that was in the store `t` before. -/
inductive Running.EndAlike (m m' : Live) (k : Link) (t : Store) :
    EStateM.Result Stop Live Value → EStateM.Result Stop Live Value → Prop
  | ok {k' : Link} {v v' : Value} {l l' : Live} : k.Onward t k' l'.world.store →
      m.Abreast m' k' l l' → v.Linked k' v' → EndAlike m m' k t (.ok v l) (.ok v' l')
  | error {k' : Link} {stop : Stop} {l l' : Live} : k.Onward t k' l'.world.store →
      m.Abreast m' k' l l' → EndAlike m m' k t (.error stop l) (.error stop l')

theorem Running.EndAlike.told {m m' l l' : Live} {k : Link} {t : Store} {x : Running Value}
    (h : Running.EndAlike m m' k t (x l) (x l')) :
    ∃ k', k.Onward t k' (Running.after x l').world.store ∧
      m.Abreast m' k' (Running.after x l) (Running.after x l') ∧
      (Running.answer x .value l).Linked k' (Running.answer x .value l') := by
  rw [Running.after, Running.after, Running.answer, Running.answer]
  generalize x l = r at h
  generalize x l' = r' at h
  cases h with
  | ok honward h' hv => exact ⟨_, honward, h', .value hv⟩
  | error honward h' => exact ⟨_, honward, h', .refused _⟩

namespace Live

variable {m m' l l' : Live} {k : Link}

theorem Abreast.step (hhost : l.session.options.setting.host.Respects)
    (hm : l.session.options.setting.host.Confuses m.world.written m'.world.written)
    (h : m.Abreast m' k l l') :
    Running.EndAlike m m' k l'.world.store (Session.step l) (Session.step l') := by
  have hprogram := h.linked.program_eq
  cases hp : l.session.program with
  | error stop =>
    rw [hp] at hprogram
    rw [Session.step_of_no_program hp, Session.step_of_no_program hprogram]
    exact .error (.refl k _) h
  | ok p =>
    rw [hp] at hprogram
    have hdone := h.linked.done_eq
    cases hd : l.done with
    | true =>
      rw [hd] at hdone
      simp only [Session.step, hp, hprogram, hd, hdone, if_true]
      exact .ok (.refl k _) h h.linked.result
    | false =>
      rw [hd] at hdone
      have hsetting : l'.session.options.setting = l.session.options.setting := by rw [h.linked.options]
      rw [Session.step_of_not_done hp hd, Session.step_of_not_done hprogram hdone, hsetting,
        h.linked.location]
      have hboth := step_unison hhost h.linked.scope (.program p) l.session.location l.world.store
        l'.world.store l.world.written l'.world.written l.world.polls (h.confuses hm) h.linked.store
      have hworld : l'.world = ⟨l'.world.store, l'.world.written, l.world.polls⟩ := by rw [← h.polls]
      rw [hworld]
      change EndAlike k l'.world.store Stepped.Linked _ _
        (l.session.options.setting.step l.session.scope (.program p) l.session.location l.world) _ at hboth
      generalize l.session.options.setting.step l.session.scope _ _ _ = x at hboth ⊢
      generalize l.session.options.setting.step l'.session.scope _ _ _ = y at hboth ⊢
      cases hboth with
      | @ok k' r r' s t texts polls honward hst hr =>
        exact .ok honward ((h.world honward.le hst polls).advance hr) hr.value
      | @error k' f s t texts polls honward hst =>
        exact .error honward ((h.world honward.le hst polls).stay f)

theorem Abreast.evaluate (hhost : l.session.options.setting.host.Respects)
    (hm : l.session.options.setting.host.Confuses m.world.written m'.world.written)
    (h : m.Abreast m' k l l') :
    Running.EndAlike m m' k l'.world.store (Session.evaluate l) (Session.evaluate l') := by
  have hprogram := h.linked.program_eq
  rw [Session.evaluate, Session.evaluate, hprogram]
  cases hp : l.session.program with
  | error stop => exact .error (.refl k _) h
  | ok p =>
    dsimp only
    have hinv := invokeAt_unison l.session.options.setting hhost l.session.options.setting.depth
    have hboth := evalBody_unison hhost hinv h.linked.scope (Value.linked_self (v := .absent) rfl) p.body
      l.world.store l'.world.store l.world.written l'.world.written l.world.polls (h.confuses hm)
      h.linked.store
    have hworld : l'.world = ⟨l'.world.store, l'.world.written, l.world.polls⟩ := by rw [← h.polls]
    have hsetting : l'.session.options.setting = l.session.options.setting := by rw [h.linked.options]
    rw [hworld, hsetting]
    change EndAlike k l'.world.store Value.Linked _ _
      (l.session.options.setting.evaluate l.session.scope (.program p) l.world)
      (l.session.options.setting.evaluate l'.session.scope (.program p) _) at hboth
    generalize l.session.options.setting.evaluate l.session.scope _ _ = x at hboth ⊢
    generalize l.session.options.setting.evaluate l'.session.scope _ _ = y at hboth ⊢
    cases hboth with
    | @ok k' v v' s t texts polls honward hst hv =>
      refine .ok (honward.delete _ _) ?_ hv
      exact (h.world honward.le hst polls).clearLoops.place .finished hv
    | @error k' f s t texts polls honward hst => exact .error honward (h.world honward.le hst polls)

theorem reset_of_scope {o : SessionOptions} (ho : l.session.options = o) (h : o.policy = .scope) :
    l.reset = ⟨{ l.session with location := .start, result := .absent, scope := l.world.store.nextScope },
      { l.world with store := o.addScope l.world.store }⟩ := by
  simp only [reset, ho, h]

theorem reset_of_not_scope {o : SessionOptions} (ho : l.session.options = o) (h : o.policy ≠ .scope) :
    l.reset = ⟨{ l.session with location := .start, result := .absent },
      { l.world with store := l.world.store.clearLoops l.session.scope }⟩ := by
  rw [reset]
  split
  · next hpolicy => exact (h (ho ▸ hpolicy)).elim
  · rfl
  · rfl

theorem Abreast.poll (h : m.Abreast m' k l l') :
    (Session.poll l = .error (.failure .canceled) l ∧ Session.poll l' = .error (.failure .canceled) l') ∨
      ∃ polls, Session.poll l = .ok () (l.withPolls polls) ∧
        Session.poll l' = .ok () (l'.withPolls polls) := by
  have hpolls := h.polls
  obtain ⟨session, store, written, polls⟩ := l
  obtain ⟨session', store', written', polls'⟩ := l'
  obtain rfl : polls' = polls := hpolls
  cases polls' with
  | zero => exact .inl ⟨rfl, rfl⟩
  | succ polls => exact .inr ⟨polls, rfl, rfl⟩

/-- Every round of a run is made on both sides, with the same polls. -/
theorem Abreast.runFrom (hhost : l.session.options.setting.host.Respects)
    (hm : l.session.options.setting.host.Confuses m.world.written m'.world.written) (budget : Int)
    (rounds steps : Nat) (h : m.Abreast m' k l l') :
    ∃ k', k.Onward l'.world.store k' (runFrom budget rounds steps l').2.world.store ∧
      m.Abreast m' k' (runFrom budget rounds steps l).2 (runFrom budget rounds steps l').2 ∧
      (runFrom budget rounds steps l).1 = (runFrom budget rounds steps l').1 := by
  induction rounds generalizing k l l' steps with
  | zero => exact ⟨k, .refl k _, h, rfl⟩
  | succ rounds ih =>
    rw [Live.runFrom, Live.runFrom, h.linked.done_eq]
    split
    · exact ⟨k, .refl k _, h, rfl⟩
    split
    · exact ⟨k, .refl k _, h, rfl⟩
    simp only [Bind.bind, EStateM.bind]
    obtain ⟨hpoll, hpoll'⟩ | ⟨polls, hpoll, hpoll'⟩ := h.poll
    · rw [hpoll, hpoll']
      exact ⟨k, .refl k _, h, rfl⟩
    rw [hpoll, hpoll']
    dsimp only
    have hround := Abreast.step (l := l.withPolls polls) hhost hm (h.withPolls polls)
    generalize hx : Session.step (l.withPolls polls) = x at hround
    generalize Session.step (l'.withPolls polls) = y at hround
    cases hround with
    | error honward h' => exact ⟨_, honward, h', rfl⟩
    | @ok k₁ v v' l₁ l₁' honward h' _ =>
      have hoptions : l₁.session.options = l.session.options :=
        Session.step_options (l := l.withPolls polls) hx
      obtain ⟨k₂, honward₂, h₂, hreport⟩ := ih (hoptions ▸ hhost) (hoptions ▸ hm) (steps + 1) h'
      exact ⟨k₂, honward.trans honward₂, h₂, hreport⟩

theorem Abreast.check (hhost : l.session.options.setting.host.PureRespects)
    (hsilent : l.session.options.setting.host.PureSilent) (h : m.Abreast m' k l l') :
    Running.after Session.check l = l ∧ Running.after Session.check l' = l' ∧
      l'.answer .check = l.answer .check := by
  have hsilent' : l'.session.options.setting.host.PureSilent := h.linked.options ▸ hsilent
  refine ⟨Session.after_check hsilent, Session.after_check hsilent', ?_⟩
  have hprogram := h.linked.program_eq
  rw [answer, answer, Running.answer, Running.answer, Session.check, Session.check, hprogram]
  cases hp : l.session.program with
  | error stop => rfl
  | ok p =>
    have hground := h.linked.store.ground h.linked.scope l.session.options.setting.host
    have hcheck := Checking.check_agree hhost hground p _ _ (CheckState.initial_linked _)
    dsimp only
    rw [h.linked.options]
    obtain ⟨v, v', c, c', hx, hy, -⟩ | ⟨f, c, c', hx, hy⟩ := hcheck
    · rw [hx, hy]
    · rw [hx, hy]

theorem Abreast.reset {o : SessionOptions} (ho : l.session.options = o) (hroot : k.scope o.root o.root)
    (hseeds : ∀ entry ∈ o.seeds.entries, entry.2.isScalar) (h : m.Abreast m' k l l') :
    ∃ k', k.Onward l'.world.store k' l'.reset.world.store ∧ m.Abreast m' k' l.reset l'.reset := by
  have hrewound : m.Abreast m' k ⟨{ l.session with location := .start, result := .absent }, l.world⟩
      ⟨{ l'.session with location := .start, result := .absent }, l'.world⟩ :=
    h.place .start (Value.linked_self rfl)
  have ho' : l'.session.options = o := h.linked.options.trans ho
  by_cases hpolicy : o.policy = .scope
  · rw [reset_of_scope ho hpolicy, reset_of_scope ho' hpolicy]
    have hstore := h.linked.store.addScope hroot hseeds
    refine ⟨_, .extend k _ l.world.store.nextScope o.root _, ?_⟩
    exact ⟨⟨h.linked.options, h.linked.loaded, .inr ⟨rfl, rfl⟩, rfl, rfl, hstore⟩, h.polls, h.written,
      h.trace⟩
  · rw [reset_of_not_scope ho hpolicy, reset_of_not_scope ho' hpolicy]
    exact ⟨k, (Link.Onward.refl k _).delete _ _, hrewound.clearLoops⟩

/-- Whatever is asked of both sessions, they answer alike and stay abreast. -/
theorem Abreast.perform {o : SessionOptions} (ho : l.session.options = o)
    {writer : Writer} (hhost : o.setting.host = primitivesOn writer)
    (hm : (primitivesOn writer).Confuses m.world.written m'.world.written) (hroot : k.scope o.root o.root)
    (hseeds : ∀ entry ∈ o.seeds.entries, entry.2.isScalar) (h : m.Abreast m' k l l') (r : Request) :
    ∃ k', k.Onward l'.world.store k' (l'.perform r.action).world.store ∧
      m.Abreast m' k' (l.perform r.action) (l'.perform r.action) ∧
      (l.answer r).Linked k' (l'.answer r) := by
  have hprimitives : l.session.options.setting.host = primitivesOn writer := ho ▸ hhost
  have hrespects : l.session.options.setting.host.Respects := hprimitives ▸ primitivesOn_respects writer
  have hm : l.session.options.setting.host.Confuses m.world.written m'.world.written := hprimitives ▸ hm
  cases r with
  | load text => exact ⟨k, (Link.Onward.refl k _).delete _ _, h.load text, .done⟩
  | step => exact (h.step hrespects hm).told
  | run budget =>
    obtain ⟨k', honward, h', hreport⟩ := h.runFrom hrespects hm budget (l.world.polls + 1) 0
    have hrun : l'.run budget = Live.runFrom budget (l.world.polls + 1) 0 l' := by rw [run, h.polls]
    simp only [Request.action, Live.perform, answer, hrun]
    rw [run, hreport]
    exact ⟨k', honward, h', .report _⟩
  | check =>
    obtain ⟨hafter, hafter', hanswer⟩ :=
      h.check (hprimitives ▸ primitivesOn_pureRespects writer) (hprimitives ▸ primitivesOn_pureSilent writer)
    simp only [Request.action, Live.perform, hafter, hafter', hanswer]
    refine ⟨k, .refl k _, h, ?_⟩
    rw [answer, Running.answer]
    split
    · exact .done
    · exact .refused _
  | evaluate => exact (h.evaluate hrespects hm).told
  | reset =>
    obtain ⟨k', honward, h'⟩ := h.reset ho hroot hseeds
    exact ⟨k', honward, h', .done⟩

end Live

end Stepwise
