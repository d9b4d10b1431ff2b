import Stepwise.Config.Yaml.Property

/-! From characters to tokens. Indentation becomes tokens of its own, and so does a key: whether
something is a key shows only when a colon comes after it, so tokens wait in a queue until then. -/

namespace Stepwise

namespace Yaml

/-- Where a key may have started, on one level of brackets. -/
structure KeyPlace where
  /-- Whether what started there can still turn out to be a key. -/
  possible : Bool
  /-- Whether it has to be a key, because it stands at the indentation of a mapping. -/
  required : Bool
  /-- Whether the queue holds its token back until that is known. -/
  awaited : Bool
  /-- The number of the token there. -/
  token : Nat
  mark : Mark

structure Scanner where
  cursor : Cursor
  started : Bool
  /-- The tokens that are found and not taken yet. -/
  queue : List Token
  taken : Nat
  /-- The column of the innermost block, -1 outside of them all. -/
  indent : Int
  indents : List Int
  keyAllowed : Bool
  /-- How many brackets are open. -/
  level : Nat
  keyPlace : KeyPlace
  /-- The places of keys on the levels around, the innermost first. -/
  outerKeys : List KeyPlace

namespace Scanner

def ofInput (input : Input) : Scanner where
  cursor := .ofInput input
  started := false
  queue := []
  taken := 0
  indent := -1
  indents := []
  keyAllowed := true
  level := 0
  keyPlace := ⟨false, false, false, 0, .start⟩
  outerKeys := []

/-- The number of the token that is found next. -/
def nextNumber (s : Scanner) : Nat := s.taken + s.queue.length

/-- The place of a key whose token has a number; numbers fall from level to level. -/
def awaitedKey? (number : Nat) : List KeyPlace → Option KeyPlace
  | [] => none
  | k :: ks =>
    if number < k.token then awaitedKey? number ks
    else if k.token = number then
      if k.possible && k.awaited then some k else awaitedKey? number ks
    else none

/-- The place of a key that the next token to take may be. -/
def headKey? (s : Scanner) : Option KeyPlace := awaitedKey? s.taken (s.keyPlace :: s.outerKeys)

end Scanner

abbrev Scan := EStateM Fault Scanner

namespace Scan

/-- A step of the cursor is a step of the scanner. -/
def read {α : Type} (step : Reading α) : Scan α := fun s =>
  match step s.cursor with
  | .ok a c => .ok a { s with cursor := c }
  | .error fault c => .error fault { s with cursor := c }

instance : MonadLift Reading Scan where
  monadLift := read

def mark : Scan Mark := return (← get).cursor.mark

def inFlow : Scan Bool := return (← get).level ≠ 0

def allowKey (allowed : Bool) : Scan Unit := modify fun s => { s with keyAllowed := allowed }

def append (kind : Token.Kind) (start : Mark) : Scan Unit :=
  modify fun s => { s with queue := s.queue ++ [⟨kind, start⟩] }

/-- Puts a token before the one with a number, or at the end when that one is taken already. -/
def insert (number : Nat) (kind : Token.Kind) (start : Mark) : Scan Unit :=
  modify fun s =>
    let before := if s.taken ≤ number then number - s.taken else s.queue.length
    { s with queue := s.queue.take before ++ ⟨kind, start⟩ :: s.queue.drop before }

/-- Levels of brackets and of indentation go no deeper. -/
def maxDepth : Nat := 10000

def tooDeep {α : Type} (start : Mark) : Scan α :=
  Reading.refuse start "exceeded max depth of 10000"

/-- A key ends on its line and within 1024 characters. -/
def isStillKey (k : KeyPlace) : Scan Bool := do
  let m ← mark
  if !k.possible then return false
  else if k.mark.line < m.line || k.mark.index + 1024 < m.index then
    if k.required then Reading.refuse k.mark "could not find expected ':'" else return false
  else return true

/-- Gives up on a key of this level. -/
def dropKey : Scan Unit := do
  let s ← get
  if s.keyPlace.possible then
    if s.keyPlace.required then Reading.refuse s.keyPlace.mark "could not find expected ':'"
    else set { s with keyPlace := { s.keyPlace with possible := false, awaited := false } }

/-- A key may start here. -/
def noteKey : Scan Unit := do
  let s ← get
  if s.keyAllowed then
    let required := s.level = 0 && s.indent = s.cursor.mark.column
    dropKey
    modify fun s => { s with keyPlace := ⟨true, required, true, s.nextNumber, s.cursor.mark⟩ }

def openLevel : Scan Unit := do
  modify fun s => { s with
    level := s.level + 1
    keyPlace := ⟨false, false, false, s.nextNumber, s.cursor.mark⟩
    outerKeys := s.keyPlace :: s.outerKeys }
  let s ← get
  if maxDepth < s.level then tooDeep s.cursor.mark

/-- When no key has started inside the brackets, what they belong to is not waited for any more. -/
def closeLevel : Scan Unit :=
  modify fun s =>
    match s.outerKeys with
    | [] => s
    | k :: ks => { s with
        level := s.level - 1
        keyPlace := if k.token = s.keyPlace.token then { k with awaited := false } else k
        outerKeys := ks }

/-- Ends the blocks that are indented further than a column. -/
def unroll (column : Int) (start : Mark) : Scan Unit := do
  if !(← inFlow) then go (← get).indents.length
where
  go : (left : Nat) → Scan Unit
    | 0 => pure ()
    | left + 1 => do
      if column < (← get).indent then
        append .blockEnd start
        modify fun s => { s with indent := s.indents.headD (-1), indents := s.indents.tail }
        go left

/-- Starts a block at a column, unless there is one already. -/
def roll (column : Nat) (number : Option Nat) (kind : Token.Kind) (start : Mark) : Scan Unit := do
  let s ← get
  if s.level = 0 && s.indent < column then
    set { s with indent := (column : Int), indents := s.indent :: s.indents }
    if maxDepth ≤ s.indents.length then tooDeep s.keyPlace.mark
    else
      match number with
      | some n => insert n kind start
      | none => append kind start

/-- Past a comment, and past the next ones that only blanks and line breaks separate from it. -/
def comments : (left : Nat) → Scan Unit
  | 0 => pure ()
  | left + 1 => do
    Reading.toLineEnd
    let c := (← get).cursor
    if c.here = '\n' || c.here = '\r' then
      let between := (c.rest.takeWhile fun c => isBlank c || c = '\n' || c = '\r').length
      Reading.ensure (min 512 (between + 1))
      if between < 512 && c.ahead between = '#' then
        skipTo (c.mark.index + between) c.bound
        comments left
where
  skipTo (index : Nat) : (left : Nat) → Scan Unit
    | 0 => pure ()
    | left + 1 => do
      let c := (← get).cursor
      if c.mark.index < index then
        if isBreak c.here then Reading.skipLine else Reading.skip
        skipTo index left

/-- Past a comment that stands on the line of the last token. -/
def lineComment : Scan Unit := do
  let c := (← get).cursor
  if c.breaks = 0 then
    let blanks := (c.rest.takeWhile isBlank).length
    Reading.ensure (min 512 (blanks + 1))
    if blanks < 512 && c.ahead blanks = '#' then Reading.toLineEnd

/-- Past blanks, comments and line breaks. Where a key may start, a tab is no blank. -/
def toNextToken : (left : Nat) → Scan Unit
  | 0 => pure ()
  | left + 1 => do
    Reading.ensure 1
    let c := (← get).cursor
    if c.mark.column = 0 && c.here = '\ufeff' then Reading.skip
    Reading.ensure 1
    let s ← get
    let tabs := s.level ≠ 0 || !s.keyAllowed
    Reading.skipWhile fun c => c = ' ' || (tabs && c = '\t')
    if (← Reading.here) = '#' then comments c.bound
    if isBreak (← Reading.here) then
      Reading.ensure 2
      Reading.skipLine
      if !(← inFlow) then allowKey true
      toNextToken left

def streamStart : Scan Unit := do
  modify fun s => { s with started := true }
  append .streamStart (← mark)

/-- The end of the text ends all blocks. -/
def streamEnd : Scan Unit := do
  modify fun s =>
    let m := s.cursor.mark
    if m.column = 0 then s
    else { s with cursor := { s.cursor with mark := ⟨m.index, m.line + 1, 0⟩ } }
  unroll (-1) (← mark)
  dropKey
  allowKey false
  append .streamEnd (← mark)

/-- Ends all blocks before a line that is no part of them. -/
def leaveBlocks : Scan Unit := do
  unroll (-1) (← mark)
  dropKey
  allowKey false

/-- A mark of so many characters. -/
def takeMark (kind : Token.Kind) (width : Nat) : Scan Unit := do
  let start ← mark
  modify fun s => { s with cursor := Nat.repeat Cursor.skip width s.cursor }
  append kind start

def openBracket (kind : Token.Kind) : Scan Unit := do
  noteKey
  openLevel
  allowKey true
  takeMark kind 1

def closeBracket (kind : Token.Kind) : Scan Unit := do
  dropKey
  closeLevel
  allowKey false
  takeMark kind 1

def entryMark : Scan Unit := do
  dropKey
  allowKey true
  takeMark .flowEntry 1

/-- A dash before an item of a block. -/
def itemMark : Scan Unit := do
  let s ← get
  let start := s.cursor.mark
  if s.level = 0 && !s.keyAllowed then
    Reading.refuse start "block sequence entries are not allowed in this context"
  else
    roll start.column none .blockSequenceStart start
    dropKey
    allowKey true
    takeMark .blockEntry 1

/-- A question mark before a key. -/
def keyMark : Scan Unit := do
  let s ← get
  let start := s.cursor.mark
  if s.level = 0 && !s.keyAllowed then
    Reading.refuse start "mapping keys are not allowed in this context"
  else
    roll start.column none .blockMappingStart start
    dropKey
    allowKey (s.level = 0)
    takeMark .key 1

/-- A colon before a value. If it comes after a key, that key's token is put into the queue now. -/
def valueMark : Scan Unit := do
  let s ← get
  let k := s.keyPlace
  let start := s.cursor.mark
  if ← isStillKey k then
    insert k.token .key k.mark
    roll k.mark.column (some k.token) .blockMappingStart k.mark
    modify fun s => { s with
      keyAllowed := false
      keyPlace := { s.keyPlace with possible := false, awaited := false } }
  else if s.level = 0 && !s.keyAllowed then
    Reading.refuse start "mapping values are not allowed in this context"
  else
    roll start.column none .blockMappingStart start
    allowKey (s.level = 0)
  takeMark .value 1

/-- A token that a key may start with. -/
def keyStart (kind : Reading Token.Kind) : Scan Unit := do
  noteKey
  allowKey false
  let start ← mark
  append (← kind) start

def plainScalar : Scan Unit := do
  noteKey
  allowKey false
  let s ← get
  let (text, broken) ← Reading.plain (s.level ≠ 0) s.indent
  if broken then allowKey true
  append (.scalar true text) s.cursor.mark

def blockScalar (literal : Bool) : Scan Unit := do
  dropKey
  allowKey true
  let s ← get
  append (.scalar false (← Reading.block literal s.indent)) s.cursor.mark

/-- Marks that no plain scalar starts with. -/
def isIndicator (c : Char) : Bool :=
  "-?:,[]\x7b\x7d#&*!|>'\"%@`".toList.contains c

def startsPlain (flow : Bool) (c next : Char) : Bool :=
  (!endsWord c && !isIndicator c)
    || (c = '-' && !isBlank next)
    || (!flow && (c = '?' || c = ':') && !endsWord next)

/-- The token at this place, which starts with `c`. -/
def token (flow : Bool) (c next : Char) : Scan Unit :=
  if c = '[' then openBracket .flowSequenceStart
  else if c = '\x7b' then openBracket .flowMappingStart
  else if c = ']' then closeBracket .flowSequenceEnd
  else if c = '\x7d' then closeBracket .flowMappingEnd
  else if c = ',' then entryMark
  else if c = '-' && endsWord next then itemMark
  else if c = '?' && (flow || endsWord next) then keyMark
  else if c = ':' && (flow || endsWord next) then valueMark
  else if c = '*' then keyStart (.alias <$> Reading.anchorName)
  else if c = '&' then keyStart (.anchor <$> Reading.anchorName)
  else if c = '!' then keyStart Reading.tag
  else if c = '|' && !flow then blockScalar true
  else if c = '>' && !flow then blockScalar false
  else if c = '\'' || c = '"' then keyStart (.scalar false <$> Reading.quoted)
  else if startsPlain flow c next then plainScalar
  else do Reading.refuse (← mark) "found character that cannot start any token"

/-- Finds one more token; at the end of the text there is always another end. -/
def find : Scan Unit := do
  Reading.ensure 1
  if !(← get).started then streamStart
  else
    let before := (← get).cursor
    toNextToken before.bound
    unroll (← mark).column before.mark
    Reading.ensure 4
    let c := (← get).cursor
    if c.rest.isEmpty then streamEnd
    else if c.mark.column = 0 && c.here = '%' then
      leaveBlocks
      append (← Reading.directive) c.mark
    else if c.atDocumentMark then
      leaveBlocks
      takeMark (if c.here = '-' then .documentStart else .documentEnd) 3
    else
      token (← inFlow) c.here (c.ahead 1)
      -- A comment after a dash belongs to the item.
      if !(c.here = '-' && endsWord (c.ahead 1)) then lineComment

/-- Finds tokens until the next one to take is settled: two more come after it, and it does not wait
to become a key. -/
def settle : (left : Nat) → Scan Unit
  | 0 => pure ()
  | left + 1 => do
    let s ← get
    match s.queue with
    | _ :: _ :: _ :: _ =>
      match s.headKey? with
      | none => pure ()
      | some k =>
        if ← isStillKey k then
          find
          settle left
    | _ =>
      find
      settle left

/-- The next token, which stays in the queue. -/
def peek : Scan Token := do
  settle (← get).cursor.bound
  let s ← get
  return s.queue.headD ⟨.streamEnd, s.cursor.mark⟩

/-- Takes the next token out of the queue. -/
def advance : Scan Unit :=
  modify fun s => { s with queue := s.queue.tail, taken := s.taken + 1 }

end Scan

end Yaml

end Stepwise
