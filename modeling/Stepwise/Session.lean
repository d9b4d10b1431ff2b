import Stepwise.Check
import Stepwise.Stepping
import Stepwise.Tree.Read

/-! A session: one program under way, with the scope it runs in and the location the next step
starts from. -/

namespace Stepwise

/-- What a reset discards: the location and the loops under way, or the whole scope with them. Any
other policy acts like the first. -/
inductive ResetPolicy where
  | location
  | scope
  | other (code : Int)
  deriving DecidableEq, Repr

namespace ResetPolicy

def ofCode : Int → ResetPolicy
  | 0 => .location
  | 1 => .scope
  | code => .other code

def name : ResetPolicy → Bytes
  | .location => utf8 "location"
  | .scope => utf8 "namespace"
  | .other code => utf8 "ResetPolicy(" ++ Decimal.ofInt code ++ utf8 ")"

/-- The policy a name stands for; the empty name is the default. -/
def ofName? (name : Bytes) : Option ResetPolicy :=
  if name = [] ∨ name = ResetPolicy.location.name then some .location
  else if name = ResetPolicy.scope.name then some .scope
  else none

/-- How a message refuses a name. -/
def refusal (name : Bytes) : Bytes :=
  utf8 "unknown reset policy " ++ quote name ++ utf8 " (want location or namespace)"

end ResetPolicy

/-- Why a session stops. -/
inductive Stop where
  | failure (f : Failure)
  | noProgram
  | outOfSteps

namespace Stop

def text : Stop → Bytes
  | .failure f => f.text
  | .noProgram => utf8 "no program set"
  | .outOfSteps => utf8 "step budget exhausted"

def format (file source : Bytes) : Stop → Bytes
  | .failure f => f.format file source
  | stop => Diagnostic.named file (utf8 ": ") stop.text

end Stop

/-- A program text and what reading it gives. -/
structure Loaded where
  text : Bytes
  tree : Except Diagnostic Program

structure SessionOptions where
  setting : Setting
  /-- The top level that the session's scopes are made in. -/
  root : ScopeId
  policy : ResetPolicy
  /-- What every new scope of the session starts with. -/
  seeds : Bindings Value
  tracing : Bool

structure Session where
  options : SessionOptions
  loaded : Option Loaded
  scope : ScopeId
  location : Location
  result : Value
  /-- A line for every step, when the session keeps a trace. -/
  trace : Array Bytes

/-- A session and the world it runs in. -/
structure Live where
  session : Session
  world : World

abbrev Running := EStateM Stop Live

namespace SessionOptions

/-- Adds a scope with the seeds, inside the top level. -/
def addScope (o : SessionOptions) (s : Store) : Store :=
  s.extend o.root (.ofList (o.seeds.sorted.map fun (name, v) => (name, v.orNull)))

def start (o : SessionOptions) : World → Live
  | ⟨store, written, polls⟩ =>
    ⟨⟨o, none, store.nextScope, .start, .absent, #[]⟩, ⟨o.addScope store, written, polls⟩⟩

end SessionOptions

namespace Live

def withStore (f : Store → Store) : Live → Live
  | ⟨session, store, written, polls⟩ => ⟨session, f store, written, polls⟩

/-- Grants polls for what comes next. -/
def withPolls (l : Live) (polls : Nat) : Live := { l with world := { l.world with polls } }

/-- Replaces the program and goes back to its start; the scope stays, its loops do not. -/
def load (l : Live) (text : Bytes) : Live :=
  let l := l.withStore fun s => s.clearLoops l.session.scope
  { l with session := { l.session with
      loaded := some ⟨text, Program.read text⟩, location := .start, result := .absent } }

def done (l : Live) : Bool := l.session.location.done

def frames (l : Live) : LoopStack := l.world.store.frames l.session.scope

/-- Goes back to the start, as the policy says. -/
def reset (l : Live) : Live :=
  let session := { l.session with location := .start, result := .absent }
  match session.options.policy with
  | .scope =>
    ⟨{ session with scope := l.world.store.nextScope },
      { l.world with store := session.options.addScope l.world.store }⟩
  | .location | .other _ =>
    ⟨session, { l.world with store := l.world.store.clearLoops session.scope }⟩

end Live

namespace Session

def program (s : Session) : Except Stop Program :=
  match s.loaded with
  | none => .error .noProgram
  | some loaded =>
    match loaded.tree with
    | .ok p => .ok p
    | .error d => .error (.failure (.diagnostic d))

/-- Checks the program against the scope as it is. -/
def check : Running Value := fun ⟨session, world⟩ =>
  match session.program with
  | .error stop => .error stop ⟨session, world⟩
  | .ok p =>
    let ground : Ground := ⟨session.options.setting.host, world.store, session.scope⟩
    match Stepwise.check ground (.program p) .initial with
    | .ok v c => .ok v ⟨session, { world with written := world.written ++ c.written }⟩
    | .error f c =>
      .error (.failure f) ⟨session, { world with written := world.written ++ c.written }⟩

def traceLine (s : Session) (line : Bytes) : Session :=
  if s.options.tracing then { s with trace := s.trace.push line } else s

/-- After a step that went well. -/
def advance (s : Session) (store : Store) (step : Stepped) : Session :=
  { s with location := step.next, result := step.value }.traceLine
    (s.location.text ++ utf8 " -> " ++ step.next.text ++ utf8 " = " ++ store.text step.value
      ++ [10])

/-- After a step that failed. -/
def stay (s : Session) (f : Failure) : Session :=
  s.traceLine (s.location.text ++ utf8 " error: " ++ f.text ++ [10])

/-- The statement that comes next; at the end of the program there is none, and the result stays. -/
def step : Running Value := fun l =>
  match l.session.program with
  | .error stop => .error stop l
  | .ok p =>
    if l.done then .ok l.session.result l
    else
      let ⟨session, world⟩ := l
      match session.options.setting.step session.scope (.program p) session.location world with
      | .ok s world => .ok s.value ⟨session.advance world.store s, world⟩
      | .error f world => .error (.failure f) ⟨session.stay f, world⟩

/-- Asks whether to go on. -/
def poll : Running Unit := fun ⟨session, world⟩ =>
  match Execution.poll world with
  | .ok _ world => .ok () ⟨session, world⟩
  | .error f world => .error (.failure f) ⟨session, world⟩

/-- Runs all of the program at once. -/
def evaluate : Running Value := fun l =>
  match l.session.program with
  | .error stop => .error stop l
  | .ok p =>
    let ⟨session, world⟩ := l
    match session.options.setting.evaluate session.scope (.program p) world with
    | .ok v ⟨store, written, polls⟩ =>
      .ok v ⟨{ session with location := .finished, result := v },
        ⟨store.clearLoops session.scope, written, polls⟩⟩
    | .error f world => .error (.failure f) ⟨session, world⟩

end Session

/-- How many steps a run took, and what stopped it before the end of the program. -/
structure RunReport where
  steps : Nat
  stop : Option Stop

namespace Live

/-- A budget that is not positive is none. -/
def exhausted (budget : Int) (steps : Nat) : Bool := 0 < budget && budget ≤ steps

/-- Steps on to the end of the program, or until the budget or the polls are used up. Every round
makes a poll, so there are no more rounds than polls. -/
def runFrom (budget : Int) : (rounds : Nat) → (steps : Nat) → Live → RunReport × Live
  | 0, steps, l => (⟨steps, some (.failure .canceled)⟩, l)
  | rounds + 1, steps, l =>
    if l.done then (⟨steps, none⟩, l)
    else if exhausted budget steps then (⟨steps, some .outOfSteps⟩, l)
    else
      match (do Session.poll; Session.step : Running Value) l with
      | .ok _ l => runFrom budget rounds (steps + 1) l
      | .error stop l => (⟨steps, some stop⟩, l)

def run (budget : Int) (l : Live) : RunReport × Live := runFrom budget (l.world.polls + 1) 0 l

/-- Steps on like `runFrom`, with a pause after every step, and asks whether to go on only after the
pause. -/
def runPausedFrom {m : Type → Type} [Monad m] (pause : Live → m Live) (budget : Int) :
    (rounds : Nat) → (steps : Nat) → Live → m (RunReport × Live)
  | 0, steps, l => return (⟨steps, some (.failure .canceled)⟩, l)
  | rounds + 1, steps, l =>
    if l.done then return (⟨steps, none⟩, l)
    else if exhausted budget steps then return (⟨steps, some .outOfSteps⟩, l)
    else
      match Session.step l with
      | .error stop l => return (⟨steps, some stop⟩, l)
      | .ok _ l => do
        let l ← pause l
        match Session.poll l with
        | .error stop l => return (⟨steps + 1, some stop⟩, l)
        | .ok _ l => runPausedFrom pause budget rounds (steps + 1) l

def runPaused {m : Type → Type} [Monad m] (pause : Live → m Live) (budget : Int) (l : Live) :
    m (RunReport × Live) :=
  runPausedFrom pause budget (l.world.polls + 1) 0 l

end Live

end Stepwise
