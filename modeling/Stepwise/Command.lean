import Stepwise.Command.Flag
import Stepwise.Console
import Stepwise.Debugger
import Stepwise.Tree.Json

/-! The commands: running a program at once or step by step, checking it, showing its tree and
debugging it. Each ends with an exit code. -/

namespace Stepwise

abbrev ExitCode := Nat

/-- More polls, or lines, than anybody waits for. -/
def endless : Nat := 4611686018427387904

structure RunOptions where
  check : Bool
  /-- Nanoseconds; no limit unless it is positive. -/
  timeout : Int

namespace RunOptions

def standard : RunOptions := ⟨false, 0⟩

def flags : List (Flag RunOptions) := [
  ⟨utf8 "check", utf8 "check the program before running it", none,
    .switch fun b o => { o with check := b }⟩,
  ⟨utf8 "timeout", utf8 "stop evaluation after this long (0 = no limit)", none,
    .duration fun d o => { o with timeout := d }⟩]

def limited (o : RunOptions) : Bool := 0 < o.timeout

/-- The polls that fit the time allowed, at one in 50 nanoseconds. -/
def polls (o : RunOptions) : Nat := if o.limited then (o.timeout / 50).toNat else endless

/-- A run with a time limit is never canceled, it is overdue. -/
def reason (o : RunOptions) : Stop → Stop
  | .failure .canceled => if o.limited then .failure .overdue else .failure .canceled
  | stop => stop

end RunOptions

structure StepOptions where
  /-- The budget, unless it is negative. -/
  maxSteps : Int
  /-- Nanoseconds after each step, unless it is negative. -/
  delay : Int
  trace : Bool

namespace StepOptions

def standard : StepOptions := ⟨-1, -1, false⟩

def flags : List (Flag StepOptions) := [
  ⟨utf8 "max-steps", utf8 "stop after this many steps (0 = no limit; default from manifest)",
    some (utf8 "-1"), .count fun n o => { o with maxSteps := n }⟩,
  ⟨utf8 "delay", utf8 "pause between steps (default from manifest)", some (utf8 "-1ns"),
    .duration fun d o => { o with delay := d }⟩,
  ⟨utf8 "trace", utf8 "write one line per step to stderr", none,
    .switch fun b o => { o with trace := b }⟩]

def budget (o : StepOptions) (t : Target) : Int :=
  if 0 ≤ o.maxSteps then o.maxSteps else (t.manifest.map Manifest.maxSteps).getD 0

def pause (o : StepOptions) (t : Target) : Int :=
  if 0 ≤ o.delay then o.delay else (t.manifest.map Manifest.stepDelay).getD 0

end StepOptions

structure CheckOptions where
  quiet : Bool

namespace CheckOptions

def standard : CheckOptions := ⟨false⟩

def flags : List (Flag CheckOptions) := [
  ⟨utf8 "q", utf8 "print nothing on success", none, .switch fun b _ => ⟨b⟩⟩]

end CheckOptions

structure TreeOptions where
  compact : Bool

namespace TreeOptions

def standard : TreeOptions := ⟨false⟩

def flags : List (Flag TreeOptions) := [
  ⟨utf8 "compact", utf8 "print the tree on one line", none, .switch fun b _ => ⟨b⟩⟩]

end TreeOptions

namespace Command

def usage : Bytes := utf8 "Usage:
  c4c run [-check] [-timeout d] [file.c4c | c4c.yml]
  c4c step [-max-steps n] [-delay d] [-trace] [file.c4c | c4c.yml]
  c4c check [-q] [file.c4c | c4c.yml]
  c4c ast [-compact] [file.c4c | c4c.yml]
  c4c debug [file.c4c | c4c.yml]
  c4c <file.c4c>

Without a file, c4c.yml is looked up from the current directory."

def version : Bytes := utf8 "c4c 0.1.0-dev"

def prompt : Bytes := utf8 "c4c> "

variable {m : Type → Type} [Monad m]

/-- Goes on with the options that flags set and the arguments after them, unless a flag is wrong. -/
def withOptions {α : Type} (c : Console m) (command : Bytes) (flags : List (Flag α)) (standard : α)
    (args : List Bytes) (continue_ : α → List Bytes → m ExitCode) : m ExitCode := do
  match Flag.read flags args standard with
  | .ok (options, rest) => continue_ options rest
  | .error error =>
    match error.text? with
    | some text => c.errLine text
    | none => pure ()
    c.err (Flag.usageText command flags)
    return 2

/-- Goes on with the target that arguments name, unless there is none. -/
def withTarget (c : Console m) (args : List Bytes) (continue_ : Target → m ExitCode) :
    m ExitCode := do
  match ← Target.load c.disk args with
  | .ok target => continue_ target
  | .error error =>
    c.errLine error.text
    return 1

def report (c : Console m) (t : Target) (stop : Stop) : m ExitCode := do
  c.errLine (stop.format t.name t.text)
  return 1

/-- Puts out what a session has written and traced since the last time. -/
def flush (c : Console m) : Live → m Live
  | ⟨session, store, written, polls⟩ => do
    written.forM c.out
    session.trace.forM c.err
    return ⟨{ session with trace := #[] }, store, #[], polls⟩

def run (c : Console m) (args : List Bytes) : m ExitCode :=
  withOptions c (utf8 "run") RunOptions.flags .standard args fun options rest =>
    withTarget c rest fun target => do
      let live := target.startTraced false options.polls
      match (if options.check then Session.check else pure .absent : Running Value) live with
      | .error stop live => do
        let _ ← flush c live
        report c target stop
      | .ok _ live =>
        match Session.evaluate live with
        | .ok _ live => do
          let _ ← flush c live
          return 0
        | .error stop live => do
          let _ ← flush c live
          report c target (options.reason stop)

def step (c : Console m) (args : List Bytes) : m ExitCode :=
  withOptions c (utf8 "step") StepOptions.flags .standard args fun options rest =>
    withTarget c rest fun target => do
      let delay := options.pause target
      let pause := fun live => do
        let live ← flush c live
        if 0 < delay then c.pause delay
        return live
      let (outcome, live) ←
        (target.startTraced options.trace endless).runPaused pause (options.budget target)
      let live ← flush c live
      let place := Decimal.ofNat outcome.steps ++ utf8 " steps at " ++ live.session.location.text
      match outcome.stop with
      | none => return 0
      | some .outOfSteps => do
        c.errLine (utf8 "stopped after " ++ place)
        return 0
      | some (.failure .canceled) => do
        c.errLine (utf8 "interrupted after " ++ place)
        return 130
      | some stop => report c target stop

def check (c : Console m) (args : List Bytes) : m ExitCode :=
  withOptions c (utf8 "check") CheckOptions.flags .standard args fun options rest =>
    withTarget c rest fun target => do
      let live := target.startTraced false endless
      match Session.check live with
      | .error stop live => do
        let _ ← flush c live
        report c target stop
      | .ok _ live => do
        let _ ← flush c live
        if !options.quiet then c.outLine (target.name ++ utf8 ": ok")
        return 0

/-- The tree of a program as text, unless it is nested too deep. -/
def treeText? (options : TreeOptions) (p : Program) : Option Bytes :=
  if options.compact then some p.toJson.toLine else p.toJson.toLines?

def tree (c : Console m) (args : List Bytes) : m ExitCode :=
  withOptions c (utf8 "ast") TreeOptions.flags .standard args fun options rest =>
    withTarget c rest fun target =>
      match Program.read target.text with
      | .error diagnostic => report c target (.failure (.diagnostic diagnostic))
      | .ok program =>
        match treeText? options program with
        | some text => do
          c.outLine text
          return 0
        | none => do
          c.errLine (utf8 "encode ast: exceeded max depth")
          return 1

/-- Obeys the lines typed until one of them leaves or there are no more. -/
def converse (c : Console m) : (lines : Nat) → Debugger → History → m History
  | 0, _, history => return history
  | lines + 1, debugger, history => do
    c.out prompt
    match ← c.line with
    | none => do
      c.out [10]
      return history
    | some line => do
      let history := history.note line
      let command := DebugCommand.read line
      if command = .quit then return history
      let debugger ← (debugger.withPolls endless).obey c.disk command
      let live ← flush c debugger.live
      converse c lines ⟨debugger.target, live⟩ history

def debug (c : Console m) (args : List Bytes) : m ExitCode :=
  withOptions c (utf8 "debug") [] () args fun _ rest =>
    withTarget c rest fun target => do
      c.outLine (utf8 "debugging " ++ target.name ++ utf8 "; :help for commands")
      let history := match ← c.history with
        | some content => History.ofFile content
        | none => .empty
      let history ← converse c endless (.start target endless) history
      c.saveHistory history.toFile
      return 0

def named : List (String × (Console m → List Bytes → m ExitCode)) := [
  ("run", run), ("step", step), ("check", check), ("ast", tree), ("debug", debug)]

def isHelp (word : Bytes) : Bool :=
  word = utf8 "--help" || word = utf8 "-h" || word = utf8 "help"

def isVersion (word : Bytes) : Bool :=
  word = utf8 "--version" || word = utf8 "-V" || word = utf8 "version"

/-- Obeys the arguments: a command with its own, or else those of a run. -/
def obey (c : Console m) : List Bytes → m ExitCode
  | [] => do
    c.errLine usage
    return 1
  | word :: args =>
    if isHelp word then do
      c.errLine usage
      return 0
    else if isVersion word then do
      c.outLine version
      return 0
    else
      match named.find? fun (name, _) => utf8 name == word with
      | some (_, command) => command c args
      | none => run c (word :: args)

end Command

end Stepwise
