import Stepwise.Config.Decoding
import Stepwise.Manifest

/-! From a document to the fields of a manifest. -/

namespace Stepwise

namespace ManifestFields

open Yaml.Decoding

def sourceType : Bytes := utf8 "driver.sourceFile"

def manifestType : Bytes := utf8 "driver.manifestFile"

def sourceField? (name : Bytes) : Option (FieldDecoder SourceSpec) :=
  if name = utf8 "git" then some (field text fun s v => { s with git := v })
  else if name = utf8 "rev" then some (field text fun s v => { s with rev := v })
  else if name = utf8 "tag" then some (field text fun s v => { s with tag := v })
  else if name = utf8 "branch" then some (field text fun s v => { s with branch := v })
  else if name = utf8 "path" then some (field text fun s v => { s with path := v })
  else none

/-- A source may be missing: a null stands for none, and a collection with the tag of null for
nothing at all. -/
def source (depth : Nat) (node : Yaml) : Yaml.Decoding (Option (Option SourceSpec)) :=
  follow node fun
    | .scalar line tag s => do
      match ← scalar tag s with
      | .null => return some none
      | _ =>
        mismatch line tag s sourceType
        return none
    | .mapping line tag entries => do
      if tag = ConfigValue.nullTag then
        refuseCollection (.mapping line tag entries) (42 :: sourceType)
        return none
      else if ← distinctKeys entries then
        return some (some (← record sourceType sourceField? depth .blank entries))
      else return none
    | .sequence line tag items => do
      let pointed := if tag = ConfigValue.nullTag then 42 :: sourceType else sourceType
      refuseCollection (.sequence line tag items) pointed
      return none
    | .alias _ _ _ _ => return none

def manifestField? (depth : Nat) (name : Bytes) : Option (FieldDecoder RawManifest) :=
  if name = utf8 "program" then some (field text fun m v => { m with program := v })
  else if name = utf8 "source" then some (field (source depth) fun m v => { m with source := v })
  else if name = utf8 "bindings" then
    some (field (bindings depth) fun m v => { m with bindings := v })
  else if name = utf8 "reset" then some (field text fun m v => { m with reset := v })
  else if name = utf8 "maxSteps" then some (field int fun m v => { m with maxSteps := v })
  else if name = utf8 "stepDelay" then some (field text fun m v => { m with stepDelay := v })
  else if name = utf8 "trace" then some (field bool fun m v => { m with trace := v })
  else none

def manifest (depth : Nat) (node : Yaml) : Yaml.Decoding RawManifest :=
  follow node fun
    | .mapping _ _ entries => do
      if ← distinctKeys entries then
        record manifestType (manifestField? depth) depth .blank entries
      else return .blank
    | .scalar line tag s => do
      match ← scalar tag s with
      | .null => return .blank
      | _ =>
        mismatch line tag s manifestType
        return .blank
    | node => do
      refuseCollection node manifestType
      return .blank

end ManifestFields

namespace RawManifest

/-- Why a text gives no fields of a manifest. -/
inductive Unreadable where
  | noDocument
  | malformed (reason : Bytes)

/-- No node lies deeper than this many times the bytes of the text, whichever aliases lead there. -/
def depthOf (text : Bytes) : Nat := (text.length + 2) * (text.length + 2)

def read (text : Bytes) : Except Unreadable RawManifest :=
  match Yaml.read text with
  | .error fault => .error (.malformed fault.text)
  | .ok none => .error .noDocument
  | .ok (some document) =>
    match document.decode (ManifestFields.manifest (depthOf text) document.root) with
    | .error reason => .error (.malformed (utf8 "yaml: " ++ reason))
    | .ok (m, []) => .ok m
    | .ok (_, faults) =>
      .error (.malformed (Bytes.join (utf8 "\n  ") (utf8 "yaml: unmarshal errors:" :: faults)))

end RawManifest

end Stepwise
