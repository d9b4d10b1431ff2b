import Stepwise.Target

/-! The debugger: commands on a session, given line by line. What a command answers is written into
the same world as what the program prints, so the two stay in order. -/

namespace Stepwise

inductive DebugCommand where
  | step (count : Nat)
  | badCount (word : Bytes)
  | run
  | check
  | reset
  | bindings
  | location
  | load (file : Path)
  | badLoad
  | help
  | quit
  | unknown (word : Bytes)
  | evaluate (code : Bytes)
  deriving DecidableEq, Repr

namespace DebugCommand

/-- A count of steps is one or more. -/
def ofCount (word : Bytes) : DebugCommand :=
  match Decimal.readWord? word with
  | some n => if 1 ≤ n.toInt then .step n.toInt.toNat else .badCount word
  | none => .badCount word

def ofStep : List Bytes → DebugCommand
  | [] => .step 1
  | count :: _ => ofCount count

def ofLoad : List Bytes → DebugCommand
  | [file] => .load file
  | _ => .badLoad

/-- The words that start a command, and what each does with the words after it. -/
def named : List (String × (List Bytes → DebugCommand)) := [
  (":quit", fun _ => .quit), (":q", fun _ => .quit), (":exit", fun _ => .quit),
  (":help", fun _ => .help), (":h", fun _ => .help), (":step", ofStep), (":s", ofStep),
  (":run", fun _ => .run), (":check", fun _ => .check), (":reset", fun _ => .reset),
  (":env", fun _ => .bindings), (":loc", fun _ => .location), (":load", ofLoad)]

def ofWords : List Bytes → DebugCommand
  | [] => .step 1
  | word :: args =>
    match named.find? fun (name, _) => utf8 name == word with
    | some (_, command) => command args
    | none => .unknown word

/-- An empty line is a step, a line with a colon in front a command, and any other line code. -/
def read (line : Bytes) : DebugCommand :=
  match line.trim with
  | [] => .step 1
  | 58 :: rest => ofWords (Bytes.fields (58 :: rest))
  | code => .evaluate code

end DebugCommand

structure Debugger where
  target : Target
  live : Live

namespace Debugger

/-- The steps that a run may take before it comes back to the prompt. -/
def runBudget : Nat := 10000

def helpText : Bytes := utf8 "Commands:
  <enter>, :step [n]   run the next n statements (default 1)
  :run                 step until the program ends (at most 10000 steps)
  :check               check the program without running it
  :reset               rewind according to the reset policy
  :env                 list the namespace's bindings
  :loc                 show the location and active loop frames
  :load <file>         replace the program
  :quit                leave the debugger
Anything else is evaluated as statements in the program's namespace."

def start (t : Target) (polls : Nat) : Debugger := ⟨t, t.startTraced false polls⟩

def withPolls (d : Debugger) (polls : Nat) : Debugger := { d with live := d.live.withPolls polls }

def location (d : Debugger) : Bytes := d.live.session.location.text

def valueText (d : Debugger) (v : Value) : Bytes := d.live.world.store.text v

/-- Writes a line. -/
def say (line : Bytes) : Debugger → Debugger
  | ⟨target, session, store, written, polls⟩ =>
    ⟨target, session, store, written.push (line ++ [10]), polls⟩

def report (stop : Stop) (d : Debugger) : Debugger :=
  d.say (stop.format d.target.name d.target.text)

def stepOn : (count : Nat) → Debugger → Debugger
  | 0, d => d
  | count + 1, d =>
    if d.live.done then d.say (utf8 "program finished (:reset to run again)")
    else
      let start := d.location
      let ⟨target, live⟩ := d
      match Session.step live with
      | .error stop live => report stop ⟨target, live⟩
      | .ok v live =>
        let d : Debugger := ⟨target, live⟩
        stepOn count
          (d.say (start ++ utf8 " -> " ++ d.location ++ utf8 "  " ++ d.valueText v))

def run : Debugger → Debugger
  | ⟨target, live⟩ =>
    let (outcome, live) := live.run runBudget
    let d : Debugger := ⟨target, live⟩
    let steps := Decimal.ofNat outcome.steps ++ utf8 " steps"
    match outcome.stop with
    | some .outOfSteps => d.say (utf8 "paused after " ++ steps ++ utf8 " at " ++ d.location)
    | some stop => d.report stop
    | none =>
      d.say (utf8 "finished after " ++ steps ++ utf8 ": " ++ d.valueText d.live.session.result)

def check : Debugger → Debugger
  | ⟨target, live⟩ =>
    match Session.check live with
    | .ok _ live => say (utf8 "ok") ⟨target, live⟩
    | .error stop live => report stop ⟨target, live⟩

def reset (d : Debugger) : Debugger :=
  let d : Debugger := ⟨d.target, d.live.reset⟩
  d.say (utf8 "reset (" ++ d.live.session.options.policy.name ++ utf8 ")")

/-- The bindings of the scope that programs can see, in order. -/
def visible (d : Debugger) : List (Name × Value) :=
  (d.live.world.store.bindings d.live.session.scope).sorted.filter (·.1 != loopBinding)

def showBindings (d : Debugger) : Debugger :=
  match d.visible with
  | [] => d.say (utf8 "(no bindings)")
  | bindings =>
    bindings.foldl (fun d (name, v) => d.say (name ++ utf8 " = " ++ d.valueText v)) d

def frameLine (depth : Nat) (f : LoopFrame) : Bytes :=
  utf8 "  loop " ++ Decimal.ofNat depth ++ utf8 ": iteration " ++ Decimal.ofWord f.iteration
    ++ utf8 " of " ++ if f.forever then utf8 "forever" else Decimal.ofWord f.bound

/-- Shows the location and the loops around it, the outermost first. -/
def showLocation (d : Debugger) : Debugger :=
  let state := if d.live.done then utf8 " (done)" else utf8 " (running)"
  d.live.frames.zipIdx.foldl (fun d (f, depth) => d.say (frameLine depth f))
    (d.say (d.location ++ state))

/-- Runs code in the scope of the program; the program itself stays where it is. -/
def evaluate (code : Bytes) : Debugger → Debugger
  | ⟨target, session, world⟩ =>
    match Program.read code with
    | .error diagnostic =>
      say ((Failure.diagnostic diagnostic).format [] code) ⟨target, session, world⟩
    | .ok p =>
      match Target.setting.evaluate session.scope (.program p) world with
      | .ok v world => say (world.store.text v) ⟨target, session, world⟩
      | .error f world => say (f.format [] code) ⟨target, session, world⟩

/-- Takes up another program; the manifest stays. -/
def load (file : Path) (d : Debugger) : Except FileError Bytes → Debugger
  | .error error => d.say error.text
  | .ok text =>
    let d : Debugger := ⟨⟨file, text, d.target.manifest⟩, d.live.load text⟩
    d.say (utf8 "loaded " ++ file)

variable {m : Type → Type} [Monad m]

/-- Obeys a command; only the one that loads a program needs the disk. -/
def obey (disk : Disk m) (command : DebugCommand) (d : Debugger) : m Debugger :=
  match command with
  | .step count => return d.stepOn count
  | .badCount word => return d.say (utf8 "invalid step count " ++ quote word)
  | .run => return d.run
  | .check => return d.check
  | .reset => return d.reset
  | .bindings => return d.showBindings
  | .location => return d.showLocation
  | .load file => return d.load file (← disk.read file)
  | .badLoad => return d.say (utf8 "usage: :load <file>")
  | .help => return d.say helpText
  | .quit => return d
  | .unknown word => return d.say (utf8 "unknown command " ++ word ++ utf8 " (try :help)")
  | .evaluate code => return d.evaluate code

end Debugger

end Stepwise
