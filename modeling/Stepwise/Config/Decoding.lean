import Stepwise.Bindings
import Stepwise.Config.Yaml

/-! From nodes to values. Decoding goes on after most faults, so that all of them are told in the
order of the document; some end it at once. -/

namespace Stepwise

namespace Yaml

/-- How far a decoding has come. -/
structure Progress where
  anchored : List (Nat × Yaml)
  /-- Nodes decoded so far. -/
  decoded : Nat
  /-- Those of them that were reached through an alias. -/
  aliased : Nat
  /-- The aliases that are being followed, by their index. -/
  following : List Nat
  /-- While a mapping is merged into another: the keys that are set already. -/
  merged : Option (List ConfigValue)
  /-- Last one first. -/
  faults : List Bytes

/-- The message of an error ends the decoding. -/
abbrev Decoding := EStateM Bytes Progress

namespace Decoding

def fault (line : Nat) (message : Bytes) : Decoding Unit :=
  modify fun p => { p with
    faults := (utf8 "line " ++ Decimal.ofNat line ++ utf8 ": " ++ message) :: p.faults }

/-- Whether too great a part of what is decoded comes from aliases: 99 of 100 are fine in a small
document, 10 of 100 in a large one, and in between the part falls evenly. -/
def isExcessive (aliased decoded : Nat) : Bool :=
  let low := 400000
  let high := 4000000
  100 < aliased && 1000 < decoded &&
    if decoded ≤ low then 99 * decoded < 100 * aliased
    else if high ≤ decoded then 10 * decoded < 100 * aliased
    else (99 * (high - low) - 89 * (decoded - low)) * decoded < 100 * (high - low) * aliased

/-- Counts a node. -/
def count : Decoding Unit := do
  modify fun p => { p with
    decoded := p.decoded + 1
    aliased := if p.following.isEmpty then p.aliased else p.aliased + 1 }
  let p ← get
  if isExcessive p.aliased p.decoded then throw (utf8 "document contains excessive aliasing")

/-- Decodes a node, or what it is an alias of. -/
def follow {α : Type} (node : Yaml) (decode : Yaml → Decoding α) : Decoding α := do
  count
  match node with
  | .alias _ index name _ =>
    let p ← get
    if p.following.contains index then
      throw (utf8 "anchor '" ++ name ++ utf8 "' value contains itself")
    else
      set { p with following := index :: p.following }
      count
      let result ← decode (Document.target ⟨node, p.anchored⟩ node)
      modify fun q => { q with following := p.following }
      return result
  | node => decode node

/-- What a scalar means. -/
def scalar (tag text : Bytes) : Decoding ConfigValue :=
  match ConfigValue.ofTagged tag text with
  | .ok v => return v
  | .error reason => throw reason

/-- A text in a message, cut when it is long. -/
def sample (text : Bytes) : Bytes :=
  32 :: 96 :: (if 10 < text.length then text.take 7 ++ utf8 "..." else text) ++ [96]

/-- A node of some tag and text that cannot become what is asked for. -/
def mismatch (line : Nat) (tag text wanted : Bytes) : Decoding Unit :=
  let shown := if tag = seqTag || tag = mapTag then text else sample text
  fault line (utf8 "cannot unmarshal " ++ tag ++ shown ++ utf8 " into " ++ wanted)

/-- Two keys count as the same when they are of one kind and have the same text, of which
collections have none. -/
def sameNode : Yaml → Yaml → Bool
  | .scalar _ _ a, .scalar _ _ b => a == b
  | .alias _ _ a _, .alias _ _ b _ => a == b
  | .sequence _ _ _, .sequence _ _ _ => true
  | .mapping _ _ _, .mapping _ _ _ => true
  | _, _ => false

def nodeText : Yaml → Bytes
  | .scalar _ _ text => text
  | .alias _ _ name _ => name
  | _ => []

/-- A fault for every two entries with the same key; whether there are none. -/
def distinctKeys : List (Yaml × Yaml) → Decoding Bool
  | [] => return true
  | (key, _) :: rest => do
    let same := rest.filter fun (other, _) => sameNode key other
    same.forM fun (other, _) =>
      fault other.line (utf8 "mapping key " ++ quote (nodeText other)
        ++ utf8 " already defined at line " ++ Decimal.ofNat key.line)
    return (← distinctKeys rest) && same.isEmpty

/-- A collection in the place of something else. -/
def refuseCollection (node : Yaml) (wanted : Bytes) : Decoding Unit := do
  match node with
  | .mapping line tag entries => if ← distinctKeys entries then mismatch line tag [] wanted
  | .sequence line tag _ => mismatch line tag [] wanted
  | _ => pure ()

/-- Decodes a scalar with one of the values that it can mean; null leaves what there is. -/
def ofScalar {α : Type} (wanted : Bytes) (convert : (tag text : Bytes) → ConfigValue → Option α)
    (node : Yaml) : Decoding (Option α) :=
  follow node fun
    | .scalar line tag text => do
      match ← scalar tag text with
      | .null => return none
      | v =>
        match convert tag text v with
        | some result => return some result
        | none =>
          mismatch line tag text wanted
          return none
    | node => do
      refuseCollection node wanted
      return none

/-- Any scalar gives its text, and binary data the bytes that it stands for. -/
def text : Yaml → Decoding (Option Bytes) :=
  ofScalar (utf8 "string") fun tag s v =>
    match v with
    | .text data => some (if tag = ConfigValue.binaryTag then data else s)
    | _ => some s

/-- A number for a machine word; what lies below them all becomes the least of them. -/
def wordOf (x : Binary64) : Option Int :=
  match x with
  | .nan | .infinite false => none
  | .infinite true => some Decimal.leastWord
  | .finite _ _ _ =>
    match x.truncate? with
    | none => none
    | some n =>
      if n < Decimal.leastWord then some Decimal.leastWord
      else if n < Decimal.wordLimit then some n
      else if n = Decimal.wordLimit then some Decimal.leastWord
      else none

def int : Yaml → Decoding (Option Int) :=
  ofScalar (utf8 "int") fun _ _ v =>
    match v with
    | .integer n => if Decimal.fitsInt64 n then some n else none
    | .number x => wordOf x
    | _ => none

def yes : List String := ["y", "Y", "yes", "on"]

def no : List String := ["n", "N", "no", "off"]

def bool : Yaml → Decoding (Option Bool) :=
  ofScalar (utf8 "bool") fun _ _ v =>
    match v with
    | .boolean b => some b
    | .text s =>
      if yes.any fun word => utf8 word == s then some true
      else if no.any fun word => utf8 word == s then some false
      else none
    | _ => none

/-- The key whose mappings are merged into the one it stands in. -/
def isMerge : Yaml → Bool
  | .scalar _ tag text => tag = mergeTag && text = utf8 "<<"
  | _ => false

/-- The tag of a node, and for an alias that of its target. -/
def tagOf (node : Yaml) : Decoding Bytes := do
  match Document.target ⟨node, (← get).anchored⟩ node with
  | .scalar _ tag _ | .sequence _ tag _ | .mapping _ tag _ => return tag
  | .alias _ _ _ _ => return []

/-- Whether all keys of a mapping are text. -/
def hasTextKeys (entries : List (Yaml × Yaml)) : Decoding Bool :=
  entries.allM fun (key, _) => do
    let tag ← tagOf key
    return tag = ConfigValue.strTag || tag = mergeTag

/-- Takes the keys that are set already, so that what stands inside is not merged. -/
def takeMerged : Decoding (Option (List ConfigValue)) := do
  let p ← get
  set { p with merged := none }
  return p.merged

def giveMerged (merged : Option (List ConfigValue)) : Decoding Unit :=
  modify fun p => { p with merged }

def isMapping : Yaml → Bool
  | .mapping _ _ _ => true
  | _ => false

def refuseMerge {α : Type} : Decoding α :=
  throw (utf8 "map merge requires map or sequence of maps as the value")

/-- Merges one mapping, which may be an alias. -/
def mergeOne {α : Type} (decode : α → Yaml → Decoding α) (soFar : α) (node : Yaml) :
    Decoding α := do
  if isMapping (Document.target ⟨node, (← get).anchored⟩ node) then decode soFar node
  else refuseMerge

/-- Merges a mapping or a list of them into what is decoded. Keys that the mapping around them has
come first, then those of each mapping in turn. -/
def merge {α : Type} (keyOf : Yaml → Decoding (Option ConfigValue))
    (decode : α → Yaml → Decoding α) (entries : List (Yaml × Yaml)) (soFar : α) (node : Yaml) :
    Decoding α := do
  let outermost := (← get).merged.isNone
  if outermost then
    giveMerged (some [])
    entries.forM fun (key, _) => do
      match ← keyOf key with
      | some k => modify fun p => { p with merged := p.merged.map (k :: ·) }
      | none => pure ()
  let result ← match node with
    | .sequence _ _ items => items.foldlM (mergeOne decode) soFar
    | node => mergeOne decode soFar node
  if outermost then giveMerged none
  return result

/-- Goes through the entries of a mapping, and then through what is to be merged into it. An entry
whose key gives nothing is left out, and so is one whose key is set already. -/
def entriesOf {α : Type} (keyOf anyKey : Yaml → Decoding (Option ConfigValue))
    (put : α → ConfigValue → Yaml × Yaml → Decoding α) (again : α → Yaml → Decoding α)
    (entries : List (Yaml × Yaml)) (start : α) : Decoding α := do
  let merged ← takeMerged
  let (merged, soFar) ← (entries.filter fun (key, _) => !isMerge key).foldlM
    (fun (merged, soFar) entry => do
      match ← keyOf entry.1 with
      | none => return (merged, soFar)
      | some k =>
        if merged.any fun keys => keys.any (ConfigValue.sameKey k) then return (merged, soFar)
        else return (merged.map (k :: ·), ← put soFar k entry)) (merged, start)
  giveMerged merged
  match entries.findRev? fun (key, _) => isMerge key with
  | some (_, node) => merge anyKey again entries soFar node
  | none => return soFar

def textKey (node : Yaml) : Decoding (Option ConfigValue) := return (← text node).map .text

def refuseKey {α : Type} (key : ConfigValue) : Decoding α :=
  throw (utf8 "invalid map key: " ++ key.written)

abbrev Entries := List (ConfigValue × ConfigValue)

mutual

/-- A value of any kind; `depth` bounds how deep it can be. -/
def anything : (depth : Nat) → Yaml → Decoding (Option ConfigValue)
  | 0, _ => return none
  | depth + 1, node => follow node fun
    | .scalar _ tag text => return some (← scalar tag text)
    | .sequence _ _ items => return some (.list (← items.filterMapM (anything depth)))
    | .mapping _ _ entries => do
      if ← distinctKeys entries then
        let textual ← hasTextKeys entries
        return some (.map textual (← fill depth textual [] entries))
      else return none
    | .alias _ _ _ _ => return none

/-- Fills a map with the entries of a mapping. -/
def fill : (depth : Nat) → (textual : Bool) → Entries → List (Yaml × Yaml) → Decoding Entries
  | 0, _, soFar, _ => return soFar
  | depth + 1, textual, soFar, entries =>
    entriesOf (if textual then textKey else anything depth) (anything depth)
      (fun soFar key entry => do
        match key with
        | .list _ | .map _ _ => refuseKey key
        | key =>
          match ← anything depth entry.2 with
          | some v => return ConfigValue.setEntry key v soFar
          | none => return soFar)
      (fun soFar node => follow node fun
        | .mapping _ _ entries => do
          if ← distinctKeys entries then fill depth textual soFar entries else return soFar
        | _ => return soFar)
      entries soFar

end

/-- A map from text to values of any kind. -/
def bindings (depth : Nat) (node : Yaml) : Decoding (Option (Bindings ConfigValue)) :=
  follow node fun
    | .mapping _ _ entries => do
      if ← distinctKeys entries then
        let filled ← fill depth true [] entries
        return some (.ofList (filled.filterMap fun
          | (.text name, v) => some (name, v)
          | _ => none))
      else return none
    | .scalar line tag text => do
      match ← scalar tag text with
      | .null => return some .empty
      | _ =>
        mismatch line tag text ConfigValue.mapType
        return none
    | node => do
      refuseCollection node ConfigValue.mapType
      return none

/-- How a field of a record is decoded: what there is so far, changed by a node. -/
abbrev FieldDecoder (α : Type) := α → Yaml → Decoding α

/-- A field that is set when its node gives something. -/
def field {α β : Type} (decode : Yaml → Decoding (Option β)) (put : α → β → α) : FieldDecoder α :=
  fun soFar node => do
    match ← decode node with
    | some v => return put soFar v
    | none => return soFar

/-- Decodes a mapping field by field; `field?` knows the fields there are. -/
def record {α : Type} (typeName : Bytes) (field? : Bytes → Option (FieldDecoder α)) :
    (depth : Nat) → α → List (Yaml × Yaml) → Decoding α
  | 0, soFar, _ => return soFar
  | depth + 1, soFar, entries => do
    let (_, result) ← entriesOf textKey (anything depth)
      (fun (known, soFar) key entry => do
        match key with
        | .text name =>
          match field? name with
          | none =>
            fault entry.1.line (utf8 "field " ++ name ++ utf8 " not found in type " ++ typeName)
            return (known, soFar)
          | some decode =>
            if known.contains name then
              fault entry.1.line (utf8 "field " ++ name ++ utf8 " already set in type " ++ typeName)
              return (known, soFar)
            else return (name :: known, ← decode soFar entry.2)
        | _ => return (known, soFar))
      (fun (known, soFar) node => follow node fun
        | .mapping _ _ entries => do
          if ← distinctKeys entries then
            return (known, ← record typeName field? depth soFar entries)
          else return (known, soFar)
        | _ => return (known, soFar))
      entries (([] : List Bytes), soFar)
    return result

end Decoding

/-- Decodes a document; the faults come in its order. -/
def Document.decode {α : Type} (d : Document) (decode : Decoding α) :
    Except Bytes (α × List Bytes) :=
  match decode ⟨d.anchored, 1, 0, [], none, []⟩ with
  | .ok result p => .ok (result, p.faults.reverse)
  | .error reason _ => .error reason

end Yaml

end Stepwise
