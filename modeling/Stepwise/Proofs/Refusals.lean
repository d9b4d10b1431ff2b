import Stepwise.Proofs.Requests

/-! Sessions whose writer may refuse a print. Whatever a session is asked for, it does what it would do with
a writer that takes everything, or it tells of a print that has been refused. -/

namespace Stepwise

/-- The session with a writer that takes everything. -/
def Session.unfailing (s : Session) : Session :=
  { s with options := { s.options with setting := { s.options.setting with host := primitives } } }

def Live.unfailing (l : Live) : Live := { l with session := l.session.unfailing }

/-- The answer tells of a print that the writer has refused. -/
def Answer.TellsOfRefusal (writer : Writer) (a : Answer) : Prop :=
  ∃ f written, writer.Refuses f written ∧
    (a = .refused (.failure f) ∨ ∃ steps, a = .report ⟨steps, some (.failure f)⟩)

/-- A result is the one that comes of the same without failing writes, unless a print has been refused. -/
inductive Running.Uncut {α : Type} (writer : Writer) :
    EStateM.Result Stop Live α → EStateM.Result Stop Live α → Prop
  | ok (a : α) (l : Live) : Uncut writer (.ok a l) (.ok a l.unfailing)
  | error (stop : Stop) (l : Live) : Uncut writer (.error stop l) (.error stop l.unfailing)
  | refused {f : Failure} {l : Live} (h : writer.Refuses f l.world.written)
      (r : EStateM.Result Stop Live α) : Uncut writer (.error (.failure f) l) r

/-- What is told of such a result, and what is left of the session. -/
theorem Running.Uncut.told {α : Type} {writer : Writer} {x : Running α} {l : Live}
    (h : Running.Uncut writer (x l) (x l.unfailing)) (tell : α → Answer) :
    (x.answer tell l).TellsOfRefusal writer ∨
      x.after l.unfailing = (x.after l).unfailing ∧ x.answer tell l.unfailing = x.answer tell l := by
  rw [Running.answer, Running.answer, Running.after, Running.after]
  generalize x l = r at h
  generalize x l.unfailing = r' at h
  cases h with
  | ok a l => exact .inr ⟨rfl, rfl⟩
  | error stop l => exact .inr ⟨rfl, rfl⟩
  | refused h r => exact .inl ⟨_, _, h, .inl rfl⟩

namespace Session

variable {l : Live} {writer : Writer}

theorem traceLine_unfailing (s : Session) (line : Bytes) :
    s.unfailing.traceLine line = (s.traceLine line).unfailing := by
  rw [traceLine, traceLine]
  change (if s.options.tracing then _ else _) = _
  split <;> rfl

/-- The natives of the session, seen as a writer that may fail, and its depth. -/
theorem setting_eq (hhost : l.session.options.setting.host = primitivesOn writer) :
    l.session.options.setting = ⟨primitivesOn writer, l.session.options.setting.depth⟩ := by
  rw [← hhost]

theorem step_uncut (hhost : l.session.options.setting.host = primitivesOn writer) :
    Running.Uncut writer (step l) (step l.unfailing) := by
  cases hp : l.session.program with
  | error stop =>
    rw [step_of_no_program hp, step_of_no_program (l := l.unfailing) hp]
    exact .error stop l
  | ok p =>
    have hp' : l.unfailing.session.program = .ok p := hp
    cases hd : l.done with
    | true =>
      have hd' : l.unfailing.done = true := hd
      simp only [step, hp, hp', hd, hd', if_true]
      exact .ok _ l
    | false =>
      rw [step_of_not_done hp hd, step_of_not_done hp' hd]
      obtain ⟨f, w, hrefused, hcut⟩ | hsame := step_givesWay_unfailing writer
        l.session.options.setting.depth l.session.scope (.program p) l.session.location l.world
      · rw [setting_eq hhost, hcut]
        exact .refused hrefused _
      have hsame : l.unfailing.session.options.setting.step l.unfailing.session.scope (.program p)
          l.unfailing.session.location l.unfailing.world =
          l.session.options.setting.step l.session.scope (.program p) l.session.location l.world := by
        rw [setting_eq hhost]
        exact hsame
      rw [hsame]
      cases l.session.options.setting.step l.session.scope (.program p) l.session.location l.world with
      | ok s w =>
        have hadvance : l.unfailing.session.advance w.store s = (l.session.advance w.store s).unfailing :=
          traceLine_unfailing { l.session with location := s.next, result := s.value } _
        dsimp only
        rw [hadvance]
        exact .ok s.value ⟨l.session.advance w.store s, w⟩
      | error f w =>
        have hstay : l.unfailing.session.stay f = (l.session.stay f).unfailing := traceLine_unfailing ..
        dsimp only
        rw [hstay]
        exact .error (.failure f) ⟨l.session.stay f, w⟩

theorem evaluate_uncut (hhost : l.session.options.setting.host = primitivesOn writer) :
    Running.Uncut writer (evaluate l) (evaluate l.unfailing) := by
  have hprogram : l.unfailing.session.program = l.session.program := rfl
  rw [evaluate, evaluate, hprogram]
  cases l.session.program with
  | error stop => exact .error stop l
  | ok p =>
    dsimp only
    obtain ⟨f, w, hrefused, hcut⟩ | hsame := evaluate_givesWay_unfailing writer
      l.session.options.setting.depth l.session.scope (.program p) l.world
    · rw [setting_eq hhost, hcut]
      exact .refused hrefused _
    have hsame : l.unfailing.session.options.setting.evaluate l.unfailing.session.scope (.program p)
        l.unfailing.world = l.session.options.setting.evaluate l.session.scope (.program p) l.world := by
      rw [setting_eq hhost]
      exact hsame
    rw [hsame]
    cases l.session.options.setting.evaluate l.session.scope (.program p) l.world with
    | ok v w => exact .ok v _
    | error f w => exact .error (.failure f) ⟨l.session, w⟩

/-- A check prints nothing, so it does not matter where to. -/
theorem check_uncut (hhost : l.session.options.setting.host = primitivesOn writer) :
    Running.Uncut writer (check l) (check l.unfailing) := by
  cases hp : l.session.program with
  | error stop =>
    have hp' : l.unfailing.session.program = .error stop := hp
    simp only [check, hp, hp']
    exact .error stop l
  | ok p =>
    have hp' : l.unfailing.session.program = .ok p := hp
    simp only [check, hp, hp']
    let ground : Ground := ⟨l.session.options.setting.host, l.world.store, l.session.scope⟩
    have hpure (n : Native) (hn : n.isPure = true) : primitives n = ground.host n :=
      (primitivesOn_eq_of_isPure writer .unfailing hn).trans (congrFun hhost n).symm
    have hsame : Stepwise.check ⟨l.unfailing.session.options.setting.host, l.unfailing.world.store,
        l.unfailing.session.scope⟩ (.program p) = Stepwise.check ground (.program p) :=
      check_withHost hpure _
    rw [hsame]
    dsimp only [ground]
    cases Stepwise.check ⟨l.session.options.setting.host, l.world.store, l.session.scope⟩ (.program p)
      .initial with
    | ok v c => exact .ok v ⟨l.session, { l.world with written := l.world.written ++ c.written }⟩
    | error f c =>
      exact .error (.failure f) ⟨l.session, { l.world with written := l.world.written ++ c.written }⟩

end Session

namespace Live

variable {l : Live} {writer : Writer}

theorem reset_unfailing (l : Live) : l.unfailing.reset = l.reset.unfailing := by
  by_cases hpolicy : l.session.options.policy = .scope
  · rw [reset_of_scope rfl hpolicy, reset_of_scope (l := l.unfailing) rfl hpolicy]
    rfl
  · rw [reset_of_not_scope rfl hpolicy, reset_of_not_scope (l := l.unfailing) rfl hpolicy]
    rfl

theorem poll_unfailing (l : Live) :
    (Session.poll l = .error (.failure .canceled) l ∧
      Session.poll l.unfailing = .error (.failure .canceled) l.unfailing) ∨
    ∃ polls, Session.poll l = .ok () (l.withPolls polls) ∧
      Session.poll l.unfailing = .ok () (l.withPolls polls).unfailing := by
  obtain ⟨session, store, written, polls⟩ := l
  cases polls with
  | zero => exact .inl ⟨rfl, rfl⟩
  | succ polls => exact .inr ⟨polls, rfl, rfl⟩

/-- A run makes the same rounds, or ends at a print that is refused. -/
theorem runFrom_uncut (hhost : l.session.options.setting.host = primitivesOn writer) (budget : Int)
    (rounds steps : Nat) : (Answer.report (runFrom budget rounds steps l).1).TellsOfRefusal writer ∨
      runFrom budget rounds steps l.unfailing =
        ((runFrom budget rounds steps l).1, (runFrom budget rounds steps l).2.unfailing) := by
  induction rounds generalizing l steps with
  | zero => exact .inr rfl
  | succ rounds ih =>
    rw [runFrom, runFrom, show l.unfailing.done = l.done from rfl]
    split
    · exact .inr rfl
    split
    · exact .inr rfl
    simp only [Bind.bind, EStateM.bind]
    obtain ⟨hpoll, hpoll'⟩ | ⟨polls, hpoll, hpoll'⟩ := l.poll_unfailing
    · rw [hpoll, hpoll']
      exact .inr rfl
    rw [hpoll, hpoll']
    dsimp only
    have hround := Session.step_uncut (l := l.withPolls polls) hhost
    generalize hx : Session.step (l.withPolls polls) = x at hround
    generalize Session.step (l.withPolls polls).unfailing = y at hround
    cases hround with
    | ok v l' =>
      have hoptions : l'.session.options = l.session.options :=
        Session.step_options (l := l.withPolls polls) hx
      exact ih (hoptions ▸ hhost) (steps + 1)
    | error stop l' => exact .inr rfl
    | refused hrefused r => exact .inl ⟨_, _, hrefused, .inr ⟨_, rfl⟩⟩

/-- Whatever a session is asked for, it does the same with a writer that takes everything, or it tells of
a print that has been refused. -/
theorem perform_uncut (hhost : l.session.options.setting.host = primitivesOn writer) (r : Request) :
    (l.answer r).TellsOfRefusal writer ∨
      l.unfailing.perform r.action = (l.perform r.action).unfailing ∧ l.unfailing.answer r = l.answer r := by
  cases r with
  | load text => exact .inr ⟨rfl, rfl⟩
  | step => exact (Session.step_uncut hhost).told .value
  | run budget =>
    obtain hrefused | hsame := runFrom_uncut hhost budget (l.world.polls + 1) 0
    · exact .inl hrefused
    have hsame : l.unfailing.run budget = ((l.run budget).1, (l.run budget).2.unfailing) := hsame
    refine .inr ⟨?_, ?_⟩
    · rw [Request.action, perform, perform, hsame]
    · rw [answer, answer, hsame]
  | check => exact (Session.check_uncut hhost).told fun _ => .done
  | evaluate => exact (Session.evaluate_uncut hhost).told .value
  | reset => exact .inr ⟨l.reset_unfailing, rfl⟩

theorem Abreast.of_unfailing {m m' l' : Live} {k : Link}
    (hoptions : l'.session.options = l.session.options)
    (h : m.unfailing.Abreast m'.unfailing k l.unfailing l'.unfailing) : m.Abreast m' k l l' :=
  ⟨⟨hoptions, h.linked.loaded, h.linked.scope, h.linked.location, h.linked.result, h.linked.store⟩, h.polls,
    h.written, h.trace⟩

/-- Sessions that are linked answer alike and stay abreast as long as no print of theirs is refused,
whatever their writers have been given. -/
theorem Linked.perform {o : SessionOptions} (ho : l.session.options = o)
    (hhost : o.setting.host = primitivesOn writer) {k : Link} (hroot : k.scope o.root o.root)
    (hseeds : ∀ entry ∈ o.seeds.entries, entry.2.isScalar) {l' : Live} (h : l.Linked k l')
    (hpolls : l'.world.polls = l.world.polls) (r : Request) (hgranted : ¬ (l.answer r).TellsOfRefusal writer)
    (hgranted' : ¬ (l'.answer r).TellsOfRefusal writer)
    (hoptions : (l'.perform r.action).session.options = (l.perform r.action).session.options) :
    ∃ k', k.Onward l'.world.store k' (l'.perform r.action).world.store ∧
      l.Abreast l' k' (l.perform r.action) (l'.perform r.action) ∧
      (l.answer r).Linked k' (l'.answer r) := by
  subst ho
  have hhost' : l'.session.options.setting.host = primitivesOn writer := h.options ▸ hhost
  obtain ⟨hperform, hanswer⟩ := (l.perform_uncut hhost r).resolve_left hgranted
  obtain ⟨hperform', hanswer'⟩ := (l'.perform_uncut hhost' r).resolve_left hgranted'
  have hoptions' : l'.unfailing.session.options = l.unfailing.session.options := by
    simp only [unfailing, Session.unfailing, h.options]
  have hlinked : l.unfailing.Linked k l'.unfailing :=
    ⟨hoptions', h.loaded, h.scope, h.location, h.result, h.store⟩
  have hsame : (primitivesOn .unfailing).Confuses l.unfailing.world.written l'.unfailing.world.written :=
    primitives_confuses _ _
  obtain ⟨k', honward, hafter, hanswers⟩ :=
    Abreast.perform (l := l.unfailing) rfl rfl hsame hroot hseeds (.refl hlinked hpolls) r
  rw [hperform, hperform'] at hafter
  rw [hperform'] at honward
  rw [hanswer, hanswer'] at hanswers
  exact ⟨k', honward, .of_unfailing hoptions hafter, hanswers⟩

end Live

end Stepwise
