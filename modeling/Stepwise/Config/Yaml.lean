import Stepwise.Config.Value
import Stepwise.Config.Yaml.Event

/-! Documents as trees. Every node knows the line it starts on and its tag, which for a plain scalar
without one follows from what it means. -/

namespace Stepwise

/-- A node. An alias stands for the node with an anchor, given by its number, and no two aliases
have the same index. -/
inductive Yaml where
  | scalar (line : Nat) (tag text : Bytes)
  | sequence (line : Nat) (tag : Bytes) (items : List Yaml)
  | mapping (line : Nat) (tag : Bytes) (entries : List (Yaml × Yaml))
  | alias (line index : Nat) (name : Bytes) (anchor : Nat)
  deriving Inhabited

namespace Yaml

def line : Yaml → Nat
  | .scalar l _ _ | .sequence l _ _ | .mapping l _ _ | .alias l _ _ _ => l

def seqTag : Bytes := utf8 "!!seq"

def mapTag : Bytes := utf8 "!!map"

def mergeTag : Bytes := utf8 "!!merge"

/-- A tag in the form that messages show. -/
def shortTag (tag : Bytes) : Bytes :=
  let long := utf8 "tag:yaml.org,2002:"
  if Bytes.startsWith long tag then utf8 "!!" ++ tag.drop long.length else tag

/-- The tag that is given, or else the usual one; a lone exclamation mark gives none. -/
def tagOr (usual given : Bytes) : Bytes :=
  if given.isEmpty || given = [33] then usual else shortTag given

/-- The tag of a scalar that has none before it. -/
def scalarTag (plain : Bool) (text : Bytes) : Bytes :=
  if !plain then ConfigValue.strTag
  else if text = utf8 "<<" then mergeTag
  else (ConfigValue.ofPlain true text).tag

/-- A document, with the nodes that have an anchor. -/
structure Document where
  root : Yaml
  anchored : List (Nat × Yaml)

/-- The node that an alias stands for, and any other node itself. -/
def Document.target (d : Document) (node : Yaml) : Yaml :=
  match node with
  | .alias _ _ _ anchor =>
    match d.anchored.find? fun (n, _) => n = anchor with
    | some (_, target) => target
    | none => node
  | node => node

/-- A collection of which some nodes are still to come, the last one first. -/
structure Unfinished where
  line : Nat
  tag : Bytes
  isMapping : Bool
  anchor : Option Nat
  nodes : List Yaml

/-- Keys and values in turn. -/
def pairs : List Yaml → List (Yaml × Yaml)
  | key :: v :: rest => (key, v) :: pairs rest
  | _ => []

def Unfinished.node (u : Unfinished) : Yaml :=
  if u.isMapping then .mapping u.line u.tag (pairs u.nodes.reverse)
  else .sequence u.line u.tag u.nodes.reverse

/-- A document as far as its events are known. -/
structure Draft where
  root : Option Yaml
  /-- Innermost first. -/
  unfinished : List Unfinished
  /-- The anchors in use by name; of two with one name the later one comes first. -/
  anchors : List (Bytes × Nat)
  anchored : List (Nat × Yaml)

namespace Draft

def blank : Draft := ⟨none, [], [], []⟩

/-- Puts a node into the innermost collection. -/
def place (d : Draft) (node : Yaml) : Draft :=
  match d.unfinished with
  | [] => { d with root := some node }
  | u :: us => { d with unfinished := { u with nodes := node :: u.nodes } :: us }

/-- Gives an anchor its number. -/
def declare (d : Draft) (anchor : Option Bytes) : Draft × Option Nat :=
  match anchor with
  | none => (d, none)
  | some name =>
    let n := d.anchors.length
    ({ d with anchors := (name, n) :: d.anchors }, some n)

def settle (d : Draft) (number : Option Nat) (node : Yaml) : Draft :=
  match number with
  | none => d
  | some n => { d with anchored := (n, node) :: d.anchored }

/-- Starts a collection. -/
def enter (d : Draft) (start : NodeStart) (isMapping : Bool) : Draft :=
  let (d, n) := d.declare start.anchor
  let tag := tagOr (if isMapping then mapTag else seqTag) start.tag
  { d with unfinished := ⟨start.mark.line + 1, tag, isMapping, n, []⟩ :: d.unfinished }

/-- Ends the innermost collection. -/
def leave (d : Draft) : Draft :=
  match d.unfinished with
  | [] => d
  | u :: us => ({ d with unfinished := us }.settle u.anchor u.node).place u.node

/-- Adds what an event says; an alias needs an anchor before it. -/
def add (d : Draft) : Event → Except Fault Draft
  | .scalar start plain text =>
    let (d, n) := d.declare start.anchor
    let node := Yaml.scalar (start.mark.line + 1) (tagOr (scalarTag plain text) start.tag) text
    .ok ((d.settle n node).place node)
  | .alias mark name =>
    match d.anchors.find? fun (known, _) => known == name with
    | some (_, n) => .ok (d.place (.alias (mark.line + 1) mark.index name n))
    | none => .error (.meaning (utf8 "unknown anchor '" ++ name ++ utf8 "' referenced"))
  | .sequenceStart start => .ok (d.enter start false)
  | .mappingStart start => .ok (d.enter start true)
  | .sequenceEnd | .mappingEnd => .ok d.leave
  | .documentEnd => .ok d

end Draft

/-- The first document that a text holds; there is none in a text of blanks and comments. -/
def read (text : Bytes) : Except Fault (Option Document) := do
  match ← Event.ofText text with
  | none => return none
  | some (events, fault) =>
    let d ← events.foldlM Draft.add .blank
    match fault, d.root with
    | some fault, _ => throw fault
    | none, none => return none
    | none, some root => return some ⟨root, d.anchored⟩

end Yaml

end Stepwise
