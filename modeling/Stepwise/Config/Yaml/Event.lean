import Stepwise.Config.Yaml.Scan

/-! From tokens to events: the scalars of a document and the starts and ends of its collections, in
their order. -/

namespace Stepwise

namespace Yaml

/-- What a node starts with: its place, and the anchor and tag before it. -/
structure NodeStart where
  mark : Mark
  anchor : Option Bytes
  /-- Empty when there is no tag. -/
  tag : Bytes

inductive Event where
  | scalar (start : NodeStart) (plain : Bool) (text : Bytes)
  | alias (mark : Mark) (name : Bytes)
  | sequenceStart (start : NodeStart)
  | sequenceEnd
  | mappingStart (start : NodeStart)
  | mappingEnd
  | documentEnd

namespace Event

/-- A place in the grammar. Inside a collection it knows where that one starts, for faults. -/
inductive Place where
  | blockNode
  | documentContent
  | documentEnd
  | blockSequence (start : Mark)
  | indentlessSequence
  | blockKey (start : Mark)
  | blockValue (start : Mark)
  | flowSequence (start : Mark) (first : Bool)
  | pairKey (start : Mark)
  | pairValue (start : Mark)
  | pairEnd (start : Mark)
  | flowKey (start : Mark) (first : Bool)
  | flowValue (start : Mark)
  | flowNoValue (start : Mark)

/-- One event, and the places still to be gone through, the next one first. -/
abbrev Step := Event × List Place

/-- What the handles of tags stand for. -/
abbrev Handles := List (Bytes × Bytes)

def standardHandles : Handles :=
  [(utf8 "!", utf8 "!"), (utf8 "!!", utf8 "tag:yaml.org,2002:")]

def refuse {α : Type} (context problem : Mark) (message : String) : Scan α :=
  throw (.order context problem (utf8 message))

/-- Nothing where a node could stand. -/
def nothing (mark : Mark) : Event := .scalar ⟨mark, none, []⟩ true []

/-- Reads an anchor, if there is one. -/
def anchor? : Scan (Option Bytes) := do
  match (← Scan.peek).kind with
  | .anchor name =>
    Scan.advance
    return some name
  | _ => return none

/-- Reads a tag, if there is one: its place, handle and suffix. -/
def tag? : Scan (Option (Mark × Bytes × Bytes)) := do
  let t ← Scan.peek
  match t.kind with
  | .tag handle suffix =>
    Scan.advance
    return some (t.start, handle, suffix)
  | _ => return none

/-- The tag that a handle and a suffix make. -/
def fullTag (handles : Handles) (start : Mark) : Option (Mark × Bytes × Bytes) → Scan Bytes
  | none => return []
  | some (mark, handle, suffix) =>
    if handle.isEmpty then return suffix
    else
      match handles.find? fun (name, _) => name == handle with
      | some (_, expansion) => return expansion ++ suffix
      | none => refuse start mark "found undefined tag handle"

/-- What stands before a node: an anchor and a tag in either order. -/
def nodeStart (handles : Handles) : Scan NodeStart := do
  let start := (← Scan.peek).start
  match ← anchor? with
  | some name =>
    let tag ← tag?
    let _ ← Scan.peek
    return ⟨start, some name, ← fullTag handles start tag⟩
  | none =>
    match ← tag? with
    | none => return ⟨start, none, []⟩
    | some tag =>
      let name ← anchor?
      let _ ← Scan.peek
      return ⟨start, name, ← fullTag handles start (some tag)⟩

/-- A node. Outside of brackets it may be a block, and where a key has its value also a sequence
that is not indented. -/
def node (handles : Handles) (block indentless : Bool) (places : List Place) : Scan Step := do
  let t ← Scan.peek
  match t.kind with
  | .alias name =>
    Scan.advance
    return (.alias t.start name, places)
  | _ =>
    let start ← nodeStart handles
    let t ← Scan.peek
    let empty := start.anchor.isNone && start.tag.isEmpty
    match t.kind, block with
    | .scalar plain text, _ =>
      Scan.advance
      return (.scalar start plain text, places)
    | .flowSequenceStart, _ =>
      Scan.advance
      return (.sequenceStart start, .flowSequence t.start true :: places)
    | .flowMappingStart, _ =>
      Scan.advance
      return (.mappingStart start, .flowKey t.start true :: places)
    | .blockSequenceStart, true =>
      Scan.advance
      return (.sequenceStart start, .blockSequence t.start :: places)
    | .blockMappingStart, true =>
      Scan.advance
      return (.mappingStart start, .blockKey t.start :: places)
    | kind, _ =>
      if indentless && kind = .blockEntry then
        return (.sequenceStart start, .indentlessSequence :: places)
      else if empty then refuse start.mark t.start "did not find expected node content"
      else return (.scalar start true [], places)

/-- A node after the token `before`, unless one of the tokens that can only come after a node comes
next. In a block the missing node has the place of the token before it, inside brackets that of the
one after it. -/
def nodeAfter (handles : Handles) (before : Token) (ends : List Token.Kind)
    (block indentless : Bool) (places : List Place) : Scan Step := do
  Scan.advance
  let next ← Scan.peek
  if ends.contains next.kind then
    return (nothing (if block then before.start else next.start), places)
  else node handles block indentless places

def blockEnds : List Token.Kind := [.key, .value, .blockEnd]

/-- Past the comma before all entries but the first one. -/
def separator (start : Mark) (first : Bool) (message : String) : Scan Token := do
  let t ← Scan.peek
  if first then return t
  else if t.kind = .flowEntry then
    Scan.advance
    Scan.peek
  else refuse start t.start message

/-- The event at a place. -/
def step (handles : Handles) (place : Place) (places : List Place) : Scan Step := do
  let t ← Scan.peek
  match place with
  | .blockNode => node handles true false places
  | .documentContent =>
    match t.kind with
    | .version _ _ | .tagHandle _ _ | .documentStart | .documentEnd | .streamEnd =>
      return (nothing t.start, places)
    | _ => node handles true false places
  | .documentEnd =>
    if t.kind = .documentEnd then Scan.advance
    return (.documentEnd, places)
  | .blockSequence start =>
    if t.kind = .blockEntry then
      nodeAfter handles t [.blockEntry, .blockEnd] true false (place :: places)
    else if t.kind = .blockEnd then
      Scan.advance
      return (.sequenceEnd, places)
    else refuse start t.start "did not find expected '-' indicator"
  | .indentlessSequence =>
    if t.kind = .blockEntry then
      nodeAfter handles t (.blockEntry :: blockEnds) true false (place :: places)
    else return (.sequenceEnd, places)
  | .blockKey start =>
    if t.kind = .key then nodeAfter handles t blockEnds true true (.blockValue start :: places)
    else if t.kind = .blockEnd then
      Scan.advance
      return (.mappingEnd, places)
    else refuse start t.start "did not find expected key"
  | .blockValue start =>
    if t.kind = .value then nodeAfter handles t blockEnds true true (.blockKey start :: places)
    else return (nothing t.start, .blockKey start :: places)
  | .flowSequence start first =>
    if t.kind = .flowSequenceEnd then
      Scan.advance
      return (.sequenceEnd, places)
    else
      let t ← separator start first "did not find expected ',' or ']'"
      if t.kind = .key then
        Scan.advance
        return (.mappingStart ⟨t.start, none, []⟩, .pairKey start :: places)
      else if t.kind = .flowSequenceEnd then
        Scan.advance
        return (.sequenceEnd, places)
      else node handles false false (.flowSequence start false :: places)
  | .pairKey start =>
    if [.value, .flowEntry, .flowSequenceEnd].contains t.kind then
      Scan.advance
      return (nothing t.start, .pairValue start :: places)
    else node handles false false (.pairValue start :: places)
  | .pairValue start =>
    if t.kind = .value then
      nodeAfter handles t [.flowEntry, .flowSequenceEnd] false false (.pairEnd start :: places)
    else return (nothing t.start, .pairEnd start :: places)
  | .pairEnd start => return (.mappingEnd, .flowSequence start false :: places)
  | .flowKey start first =>
    if t.kind = .flowMappingEnd then
      Scan.advance
      return (.mappingEnd, places)
    else
      let t ← separator start first "did not find expected ',' or '\x7d'"
      if t.kind = .key then
        nodeAfter handles t [.value, .flowEntry, .flowMappingEnd] false false
          (.flowValue start :: places)
      else if t.kind = .flowMappingEnd then
        Scan.advance
        return (.mappingEnd, places)
      else node handles false false (.flowNoValue start :: places)
  | .flowValue start =>
    if t.kind = .value then
      nodeAfter handles t [.flowEntry, .flowMappingEnd] false false (.flowKey start false :: places)
    else return (nothing t.start, .flowKey start false :: places)
  | .flowNoValue start => return (nothing t.start, .flowKey start false :: places)

/-- The directives before a document; `left` bounds how many there can be. -/
def directives : (left : Nat) → (versioned : Bool) → Handles → Scan Handles
  | 0, _, handles => return handles
  | left + 1, versioned, handles => do
    let t ← Scan.peek
    match t.kind with
    | .version major minor =>
      if versioned then refuse .start t.start "found duplicate %YAML directive"
      else if major ≠ 1 || minor ≠ 1 then
        refuse .start t.start "found incompatible YAML document"
      else
        Scan.advance
        directives left true handles
    | .tagHandle handle expansion =>
      if handles.any fun (name, _) => name == handle then
        refuse .start t.start "found duplicate %TAG directive"
      else
        Scan.advance
        directives left versioned (handles ++ [(handle, expansion)])
    | _ => return handles

/-- The start of a document, unless there is none: its handles and the first place in it. Handles of
its own come before those that every document has. -/
def start : Scan (Option (Handles × Place)) := do
  let _ ← Scan.peek
  Scan.advance
  let t ← Scan.peek
  match t.kind with
  | .streamEnd => return none
  | .version _ _ | .tagHandle _ _ | .documentStart =>
    let handles ← directives (← get).cursor.bound false []
    let t ← Scan.peek
    if t.kind = .documentStart then
      Scan.advance
      return some (handles ++ standardHandles, .documentContent)
    else refuse .start t.start "did not find expected <document start>"
  | _ => return some (standardHandles, .blockNode)

/-- Goes on from place to place until none is left or one is at fault. Events are kept last one
first. -/
def collect (handles : Handles) :
    (left : Nat) → Scanner → List Place → List Event → List Event × Option Fault
  | 0, _, _, events => (events.reverse, none)
  | _, _, [], events => (events.reverse, none)
  | left + 1, s, place :: places, events =>
    match step handles place places s with
    | .ok (event, places) s => collect handles left s places (event :: events)
    | .error fault _ => (events.reverse, some fault)

/-- The events of the first document in a text, up to its end or to a fault; a text without a
document has none. -/
def ofText (text : Bytes) : Except Fault (Option (List Event × Option Fault)) :=
  let s := Scanner.ofInput (.ofBytes text)
  match start s with
  | .error fault _ => .error fault
  | .ok none _ => .ok none
  | .ok (some (handles, place)) s =>
    .ok (some (collect handles (8 * s.cursor.bound) s [place, .documentEnd] []))

end Event

end Yaml

end Stepwise
