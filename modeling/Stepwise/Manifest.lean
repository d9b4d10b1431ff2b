import Stepwise.Config.Value
import Stepwise.File.Path
import Stepwise.Number.Duration
import Stepwise.Session

/-! Manifests: which program to run and how. A manifest is accepted when it breaks none of its
rules, and otherwise every rule it breaks is told. -/

namespace Stepwise

/-- A program file inside a repository. -/
structure SourceSpec where
  git : Bytes
  rev : Bytes
  tag : Bytes
  branch : Bytes
  path : Bytes
  deriving DecidableEq, Repr

def SourceSpec.blank : SourceSpec := ⟨[], [], [], [], []⟩

inductive SourceIssue where
  | noRepository
  | noPath
  | outsidePath (path : Bytes)
  | manyRevisions
  deriving DecidableEq, Repr

def SourceIssue.text : SourceIssue → Bytes
  | .noRepository => utf8 "git must be provided"
  | .noPath => utf8 "path must be provided"
  | .outsidePath path => utf8 "path " ++ quote path ++ utf8 " must stay inside the repository"
  | .manyRevisions => utf8 "only one of rev, tag, or branch may be set"

namespace SourceSpec

def trimmed (s : SourceSpec) : SourceSpec :=
  ⟨s.git.trim, s.rev.trim, s.tag.trim, s.branch.trim, s.path.trim⟩

def pathIssues (s : SourceSpec) : List SourceIssue :=
  if s.path.isEmpty then [.noPath]
  else if Path.isLocal s.path then []
  else [.outsidePath s.path]

/-- The ways to name a revision that are used. -/
def revisions (s : SourceSpec) : List Bytes := [s.rev, s.tag, s.branch].filter (!·.isEmpty)

def issues (s : SourceSpec) : List SourceIssue :=
  (if s.git.isEmpty then [.noRepository] else []) ++ s.pathIssues
    ++ (if 1 < s.revisions.length then [.manyRevisions] else [])

/-- The revision to look up: as given, or the reference of a tag or a branch. -/
def revision (s : SourceSpec) : Bytes :=
  if !s.rev.isEmpty then s.rev
  else if !s.tag.isEmpty then utf8 "refs/tags/" ++ s.tag
  else if !s.branch.isEmpty then utf8 "refs/remotes/origin/" ++ s.branch
  else utf8 "HEAD"

/-- The first twelve bytes of a commit's name. -/
def shortHash (hash : Bytes) : Bytes := hash.trim.take 12

end SourceSpec

/-- What a manifest file says, before any of it is judged. -/
structure RawManifest where
  program : Bytes
  source : Option SourceSpec
  bindings : Bindings ConfigValue
  reset : Bytes
  maxSteps : Int
  stepDelay : Bytes
  trace : Bool

def RawManifest.blank : RawManifest := ⟨[], none, .empty, [], 0, [], false⟩

structure Manifest where
  path : Path
  dir : Path
  program : Bytes
  source : Option SourceSpec
  bindings : Bindings Value
  reset : ResetPolicy
  maxSteps : Int
  stepDelay : Int
  trace : Bool

inductive ManifestIssue where
  | nothingToRun
  | tooMuchToRun
  | source (issue : SourceIssue)
  | bindingName (name : Name)
  | bindingValue (name : Name) (reason : Bytes)
  | reset (name : Bytes)
  | negativeSteps
  | delay (text : Bytes)
  | negativeDelay
  deriving DecidableEq, Repr

def ManifestIssue.text : ManifestIssue → Bytes
  | .nothingToRun => utf8 "one of program or source must be provided"
  | .tooMuchToRun => utf8 "program and source cannot both be set"
  | .source issue => utf8 "source: " ++ issue.text
  | .bindingName name => utf8 "bindings." ++ name ++ utf8 ": not a valid symbol"
  | .bindingValue name reason => utf8 "bindings." ++ name ++ utf8 ": " ++ reason
  | .reset name => utf8 "reset: " ++ ResetPolicy.refusal name
  | .negativeSteps => utf8 "maxSteps must not be negative"
  | .delay text => utf8 "stepDelay: invalid duration " ++ quote text
  | .negativeDelay => utf8 "stepDelay must not be negative"

namespace RawManifest

def originIssues (program : Bytes) (source : Option SourceSpec) : List ManifestIssue :=
  match program.isEmpty, source with
  | true, none => [.nothingToRun]
  | false, some _ => [.tooMuchToRun]
  | true, some spec => spec.issues.map .source
  | false, none => []

/-- The value bound to a name, or what is wrong with one of the two. -/
def binding (name : Name) (v : ConfigValue) : Except ManifestIssue (Name × Value) :=
  if !isSymbol name then .error (.bindingName name)
  else
    match v.toValue with
    | .ok v => .ok (name, v)
    | .error reason => .error (.bindingValue name reason)

def judgedBindings (raw : RawManifest) : List (Except ManifestIssue (Name × Value)) :=
  raw.bindings.sorted.map fun (name, v) => binding name v

def resetIssues (name : Bytes) : List ManifestIssue :=
  if (ResetPolicy.ofName? name).isSome then [] else [.reset name]

/-- No delay is given by an empty text. -/
def delayOf (text : Bytes) : Except ManifestIssue Int :=
  if text.isEmpty then .ok 0
  else
    match Duration.read? text with
    | none => .error (.delay text)
    | some d => if d < 0 then .error .negativeDelay else .ok d

def issueOf {α : Type} : Except ManifestIssue α → Option ManifestIssue
  | .error issue => some issue
  | .ok _ => none

def spec (raw : RawManifest) : Option SourceSpec := raw.source.map SourceSpec.trimmed

/-- All that is wrong with a manifest, in the order of its fields and of the names bound. -/
def issues (raw : RawManifest) : List ManifestIssue :=
  originIssues raw.program.trim raw.spec
    ++ raw.judgedBindings.filterMap issueOf
    ++ resetIssues raw.reset.trim
    ++ (if raw.maxSteps < 0 then [.negativeSteps] else [])
    ++ (issueOf (delayOf raw.stepDelay.trim)).toList

/-- The manifest at a path, unless something is wrong with it. -/
def judge (raw : RawManifest) (path : Path) : Except (List ManifestIssue) Manifest :=
  match raw.issues with
  | [] => .ok {
      path
      dir := Path.parent path
      program := raw.program.trim
      source := raw.spec
      bindings := .ofList (raw.judgedBindings.filterMap Except.toOption)
      reset := (ResetPolicy.ofName? raw.reset.trim).getD .location
      maxSteps := raw.maxSteps
      stepDelay := ((delayOf raw.stepDelay.trim).toOption).getD 0
      trace := raw.trace }
  | issues => .error issues

end RawManifest

namespace Manifest

/-- Where a local program lies; a relative path starts from the manifest. -/
def programPath (m : Manifest) : Path :=
  if m.program.isEmpty || Path.isAbsolute m.program then m.program
  else Path.join [m.dir, m.program]

end Manifest

end Stepwise
