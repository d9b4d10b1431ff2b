import Stepwise.Manifest.Load

/-! Targets: a program to work on, with the manifest it comes from. -/

namespace Stepwise

structure Target where
  name : Bytes
  text : Bytes
  manifest : Option Manifest

namespace Target

def policy (t : Target) : ResetPolicy :=
  match t.manifest with
  | some manifest => manifest.reset
  | none => .location

def seeds (t : Target) : Bindings Value :=
  match t.manifest with
  | some manifest => manifest.bindings
  | none => .empty

def traced (t : Target) : Bool :=
  match t.manifest with
  | some manifest => manifest.trace
  | none => false

/-- The natives every program finds, and calls as deep as they may be. -/
def setting : Setting := ⟨primitives, Setting.defaultDepth⟩

def options (t : Target) (tracing : Bool) : SessionOptions :=
  ⟨setting, 0, t.policy, t.seeds, tracing⟩

/-- A session on the program of a target, in a world of its own. -/
def start (t : Target) (tracing : Bool) (polls : Nat) : Live :=
  ((t.options tracing).start ⟨Store.empty.addTopLevel, #[], polls⟩).load t.text

/-- A session that keeps a trace also where the manifest asks for one. -/
def startTraced (t : Target) (tracing : Bool) (polls : Nat) : Live :=
  t.start (tracing || t.traced) polls

/-- Whether a path is that of a manifest. -/
def isManifest (p : Path) : Bool :=
  let ending := (Path.ending p).map Bytes.lowerByte
  ending = utf8 ".yml" || ending = utf8 ".yaml"

variable {m : Type → Type} [Monad m]

def ofManifest (disk : Disk m) (p : Path) : m (Except LoadError Target) := do
  match ← Manifest.load disk p with
  | .error error => return .error error
  | .ok manifest =>
    match ← manifest.loadProgram disk with
    | .error error => return .error error
    | .ok file => return .ok ⟨file.name, file.text, some manifest⟩

def ofProgram (disk : Disk m) (p : Path) : m (Except LoadError Target) := do
  match ← disk.read p with
  | .ok text => return .ok ⟨p, text, none⟩
  | .error error => return .error (.cannotRead (utf8 "program") p error)

/-- The target that arguments name: a manifest, a program, or with none the nearest manifest. -/
def load (disk : Disk m) : List Bytes → m (Except LoadError Target)
  | [] => do
    match ← Manifest.find disk Path.here with
    | .ok p => ofManifest disk p
    | .error error => return .error (.noProgramGiven error)
  | [p] => if isManifest p then ofManifest disk p else ofProgram disk p
  | _ :: more => return .error (.unexpectedArguments more)

end Target

end Stepwise
