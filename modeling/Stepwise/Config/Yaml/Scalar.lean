import Stepwise.Config.Yaml.Cursor

/-! Scalars: plain text, text in quotes, and blocks of lines. -/

namespace Stepwise

namespace Yaml

/-- What stands between two runs of text: blanks, or line breaks with blanks around them that do not
count. Characters are kept last one first. -/
structure Gap where
  blanks : List Char
  broken : Bool
  /-- The first line break, unless it is escaped. -/
  first : Option Char
  more : List Char

namespace Gap

def none : Gap := ⟨[], false, .none, []⟩

/-- A gap that starts with an escaped line break. -/
def escaped : Gap := ⟨[], true, .none, []⟩

/-- Adds a gap to a text, both last character first. A single line break reads as a space, and of
several the first one does not count. -/
def onto (g : Gap) (text : List Char) : List Char :=
  if g.broken then
    match g.first with
    | some '\n' => if g.more.isEmpty then ' ' :: text else g.more ++ text
    | some b => g.more ++ b :: text
    | .none => g.more ++ text
  else g.blanks ++ text

/-- Adds a line break. -/
def addBreak (g : Gap) (b : Option Char) : Gap :=
  if g.broken then { g with more := b.toList ++ g.more } else ⟨[], true, b, []⟩

def addBlank (g : Gap) (c : Char) : Gap :=
  if g.broken then g else { g with blanks := c :: g.blanks }

end Gap

namespace Reading

/-- The gap from here on. A tab may not stand where a line is still to be indented. -/
def gap (start : Mark) (indent : Int) : (left : Nat) → Gap → Reading Gap
  | 0, g => return g
  | left + 1, g => do
    let c ← get
    if isBlank c.here then
      if g.broken && c.mark.column < indent && c.here = '\t' then
        refuse start "found a tab character that violates indentation"
      else
        skip
        ensure 1
        gap start indent left (g.addBlank c.here)
    else if isBreak c.here then
      ensure 2
      let b ← readLine
      ensure 1
      gap start indent left (g.addBreak b)
    else return g

/-- Whether a character ends a plain scalar: a colon that stands alone, or inside brackets one of
their marks. -/
def endsPlain (flow : Bool) (c next : Char) : Bool :=
  (c = ':' && endsWord next)
    || (flow && (c = ',' || (c = '?' && (next = ' ' || endsLine next))
      || c = '[' || c = ']' || c = '\x7b' || c = '\x7d'))

/-- A run of plain text, last character first. -/
def plainRun (flow : Bool) : (left : Nat) → List Char → Reading (List Char)
  | 0, run => return run
  | left + 1, run => do
    let c ← get
    if endsWord c.here || endsPlain flow c.here (c.ahead 1) then return run
    else
      skip
      ensure 2
      plainRun flow left (c.here :: run)

/-- Runs of plain text, and whether a line break ends them. -/
def plainRuns (flow : Bool) (start : Mark) (indent : Int) :
    (left : Nat) → List Char → Gap → Reading (List Char × Bool)
  | 0, text, g => return (text, g.broken)
  | left + 1, text, g => do
    ensure 4
    let c ← get
    if c.atDocumentMark || c.here = '#' then return (text, g.broken)
    else
      let run ← plainRun flow c.bound []
      let text := if run.isEmpty then text else run ++ g.onto text
      let g := if run.isEmpty then g else .none
      let c ← get
      if !isBlank c.here && !isBreak c.here then return (text, g.broken)
      else
        ensure 1
        let g ← gap start indent c.bound g
        let c ← get
        if !flow && c.mark.column < indent then return (text, g.broken)
        else plainRuns flow start indent left text g

/-- A plain scalar, and whether a line break ends it. Its lines are indented further than what it
belongs to. -/
def plain (flow : Bool) (parent : Int) : Reading (Bytes × Bool) := do
  let c ← get
  let (text, broken) ← plainRuns flow c.mark (parent + 1) c.bound [] .none
  return (encode text.reverse, broken)

/-- What a letter after a backslash stands for. -/
def escape? : Char → Option Char
  | '0' => some '\x00'
  | 'a' => some '\x07'
  | 'b' => some '\x08'
  | 't' => some '\t'
  | '\t' => some '\t'
  | 'n' => some '\n'
  | 'v' => some '\x0b'
  | 'f' => some '\x0c'
  | 'r' => some '\r'
  | 'e' => some '\x1b'
  | ' ' => some ' '
  | '"' => some '"'
  | '\'' => some '\''
  | '\\' => some '\\'
  | 'N' => some '\u0085'
  | '_' => some '\u00a0'
  | 'L' => some '\u2028'
  | 'P' => some '\u2029'
  | _ => none

/-- How many hexadecimal digits come after a letter that names a character by its code. -/
def codeLength? : Char → Option Nat
  | 'x' => some 2
  | 'u' => some 4
  | 'U' => some 8
  | _ => none

/-- The character with the code that the next digits give. -/
def codePoint (start : Mark) (digits : Nat) : Reading Char := do
  ensure digits
  let c ← get
  match (List.range digits).mapM fun k => hexDigit? (c.ahead k) with
  | none => refuse start "did not find expected hexdecimal number"
  | some values =>
    let code := values.foldl (fun n d => n * 16 + d) 0
    if (0xD800 ≤ code && code ≤ 0xDFFF) || 0x10FFFF < code then
      refuse start "found invalid Unicode character escape code"
    else
      set (Nat.repeat Cursor.skip digits c)
      return Char.ofNat code

/-- The character that an escape sequence stands for. -/
def escape (start : Mark) : Reading Char := do
  let letter := (← get).ahead 1
  match escape? letter, codeLength? letter with
  | some c, _ =>
    skip
    skip
    return c
  | none, some digits =>
    skip
    skip
    codePoint start digits
  | none, none => refuse start "found unknown escape character"

/-- A run of text in quotes, last character first, and whether an escaped line break ends it. -/
def quotedRun (mark : Char) (start : Mark) :
    (left : Nat) → List Char → Reading (List Char × Bool)
  | 0, text => return (text, false)
  | left + 1, text => do
    let c ← get
    if endsWord c.here then return (text, false)
    else if c.here = mark && mark = '\'' && c.ahead 1 = '\'' then
      skip
      skip
      ensure 2
      quotedRun mark start left ('\'' :: text)
    else if c.here = mark then return (text, false)
    else if mark = '"' && c.here = '\\' then
      if isBreak (c.ahead 1) then
        ensure 3
        skip
        skipLine
        return (text, true)
      else
        let e ← escape start
        ensure 2
        quotedRun mark start left (e :: text)
    else
      skip
      ensure 2
      quotedRun mark start left (c.here :: text)

def quotedRuns (mark : Char) (start : Mark) : (left : Nat) → List Char → Reading (List Char)
  | 0, text => return text
  | left + 1, text => do
    ensure 4
    let c ← get
    if c.atDocumentMark then refuse start "found unexpected document indicator"
    else if c.rest.isEmpty then refuse start "found unexpected end of stream"
    else
      let (text, broken) ← quotedRun mark start c.bound text
      ensure 1
      if (← here) = mark then return text
      else
        let g ← gap start 0 c.bound (if broken then .escaped else .none)
        quotedRuns mark start left (g.onto text)

/-- A scalar in quotes, with the mark that starts and ends it. -/
def quoted : Reading Bytes := do
  let c ← get
  skip
  let text ← quotedRuns c.here c.mark c.bound []
  skip
  return encode text.reverse

/-- What happens to the line breaks that a block ends in: all go, one stays, or all stay. -/
inductive Chomping where
  | strip
  | clip
  | keep
  deriving DecidableEq, Repr

def chomping? : Char → Option Chomping
  | '+' => some .keep
  | '-' => some .strip
  | _ => none

/-- The chomping mark at this place, if there is one. -/
def readChomping : Reading Chomping := do
  match chomping? (← here) with
  | some chomping =>
    skip
    return chomping
  | none => return .clip

/-- The indentation that a digit at this place gives, or 0 for none. -/
def readIncrement (start : Mark) : Reading Nat := do
  let c ← here
  if c = '0' then refuse start "found an indentation indicator equal to 0"
  else if c.isDigit then
    skip
    return c.toNat - 48
  else return 0

/-- The marks of a block, in either order. -/
def blockHeader (start : Mark) : Reading (Chomping × Nat) := do
  ensure 1
  if (← here).isDigit then
    let increment ← readIncrement start
    ensure 1
    return (← readChomping, increment)
  else
    let chomping ← readChomping
    ensure 1
    if chomping = .clip then return (chomping, 0)
    else return (chomping, ← readIncrement start)

/-- Past the rest of a line that holds nothing but perhaps a comment. -/
def finishLine (start : Mark) : Reading Unit := do
  ensure 1
  skipWhile isBlank
  if (← here) = '#' then toLineEnd
  if !endsLine (← here) then refuse start "did not find expected comment or line break"
  else
    ensure 2
    skipLine

/-- Past blank lines and the indentation of the next line. The indentation of a block, 0 as long as
it is not known, becomes that of its most indented line so far, and more than the parent's. -/
def blockBreaks (start : Mark) (parent : Int) :
    (left indent deepest : Nat) → List Char → Reading (Nat × List Char)
  | 0, indent, _, breaks => return (indent, breaks)
  | left + 1, indent, deepest, breaks => do
    ensure 1
    let c ← get
    let _ ← takeSpaces c.bound indent
    let c ← get
    let deepest := max deepest c.mark.column
    if (indent = 0 || c.mark.column < indent) && c.here = '\t' then
      refuse start "found a tab character where an indentation space is expected"
    else if isBreak c.here then
      ensure 2
      let b ← readLine
      blockBreaks start parent left indent deepest (b.toList ++ breaks)
    else
      return (if indent = 0 then max 1 (max deepest (parent + 1).toNat) else indent, breaks)
where
  takeSpaces : (left indent : Nat) → Reading Unit
    | 0, _ => pure ()
    | left + 1, indent => do
      let c ← get
      if (indent = 0 || c.mark.column < indent) && c.here = ' ' then
        skip
        ensure 1
        takeSpaces left indent

/-- The lines of a block so far, last character first, and the line breaks after them. -/
structure Lines where
  text : List Char
  /-- The break at the end of the last line. -/
  last : Option Char
  /-- The breaks of blank lines after it. -/
  more : List Char
  /-- Whether the last line starts with a blank. -/
  blank : Bool

/-- What a line is added to. A folded line goes on with a space instead of the break before it,
unless one of the two lines starts with a blank. -/
def Lines.joined (ls : Lines) (literal blank : Bool) : List Char :=
  if !literal && !ls.blank && !blank && ls.last = some '\n' then
    if ls.more.isEmpty then ' ' :: ls.text else ls.more ++ ls.text
  else ls.more ++ (ls.last.toList ++ ls.text)

def blockLines (literal : Bool) (start : Mark) (parent : Int) (indent : Nat) :
    (left : Nat) → Lines → Reading Lines
  | 0, ls => return ls
  | left + 1, ls => do
    let c ← get
    if c.mark.column = indent && !c.rest.isEmpty then
      let blank := isBlank c.here
      let before := ls.joined literal blank
      let line ← takeWhile fun c => !endsLine c
      ensure 2
      let last ← readLine
      let (_, more) ← blockBreaks start parent c.bound indent 0 []
      blockLines literal start parent indent left ⟨line.reverse ++ before, last, more, blank⟩
    else return ls

def Lines.chomped (ls : Lines) : Chomping → List Char
  | .strip => ls.text
  | .clip => ls.last.toList ++ ls.text
  | .keep => ls.more ++ (ls.last.toList ++ ls.text)

/-- A block of lines: literal, or folded like plain text. -/
def block (literal : Bool) (parent : Int) : Reading Bytes := do
  let start := (← get).mark
  skip
  let (chomping, increment) ← blockHeader start
  finishLine start
  let given := if increment = 0 then 0 else (max parent 0).toNat + increment
  let c ← get
  let (indent, more) ← blockBreaks start parent c.bound given 0 []
  ensure 1
  let ls ← blockLines literal start parent indent c.bound ⟨[], none, more, false⟩
  return encode (ls.chomped chomping).reverse

end Reading

end Yaml

end Stepwise
