import Stepwise.Config.Yaml.Scalar

/-! What stands before nodes and documents: anchors, tags and directives. -/

namespace Stepwise

namespace Yaml

namespace Reading

/-- The name after the mark of an anchor or an alias. -/
def anchorName : Reading Bytes := do
  let start := (← get).mark
  skip
  ensure 1
  let name ← takeWhile isWordChar
  let c ← here
  if name.isEmpty || !(endsWord c || "?:,]\x7d%@`".toList.contains c) then
    refuse start "did not find expected alphabetic or numeric character"
  else return encode name

/-- An exclamation mark, a word, and perhaps another exclamation mark. In a directive that one is
missing only when the word is too. -/
def tagHandle (directive : Bool) (start : Mark) : Reading (List Char) := do
  ensure 1
  if (← here) ≠ '!' then refuse start "did not find expected '!'"
  else
    skip
    ensure 1
    let word ← takeWhile isWordChar
    if (← here) = '!' then
      skip
      return '!' :: word ++ ['!']
    else if directive && !word.isEmpty then refuse start "did not find expected '!'"
    else return '!' :: word

def isUriChar (c : Char) : Bool :=
  isWordChar c || ";/?:@&=+$,.!~*'()[]%".toList.contains c

/-- The byte that a percent sign and two hexadecimal digits stand for. -/
def uriByte (start : Mark) : Reading UInt8 := do
  ensure 3
  let c ← get
  match c.here, hexDigit? (c.ahead 1), hexDigit? (c.ahead 2) with
  | '%', some high, some low =>
    skip
    skip
    skip
    return UInt8.ofNat (high * 16 + low)
  | _, _, _ => refuse start "did not find URI escaped octet"

def uriTail (start : Mark) : (count : Nat) → Bytes → Reading Bytes
  | 0, bytes => return bytes.reverse
  | count + 1, bytes => do
    let b ← uriByte start
    if Input.isTail b then uriTail start count (b :: bytes)
    else refuse start "found an incorrect trailing UTF-8 octet"

/-- A character that is written by its bytes. -/
def uriEscape (start : Mark) : Reading Bytes := do
  let lead ← uriByte start
  match Input.width? lead with
  | none => refuse start "found an incorrect leading UTF-8 octet"
  | some width => uriTail start (width - 1) [lead]

def uriRest (start : Mark) : (left : Nat) → Bytes → Reading Bytes
  | 0, uri => return uri
  | left + 1, uri => do
    let c ← here
    if !isUriChar c then return uri
    else
      let bytes ← if c = '%' then uriEscape start else do
        skip
        pure (String.utf8EncodeChar c)
      ensure 1
      uriRest start left (uri ++ bytes)

/-- The rest of a tag, of which some may have been read as a handle. -/
def tagUri (start : Mark) (head : Option (List Char)) : Reading Bytes := do
  ensure 1
  let c ← get
  if head.isNone && !isUriChar c.here then refuse start "did not find expected tag URI"
  else uriRest start c.bound (encode (head.getD []))

/-- A tag: `!<uri>`, `!handle!suffix`, `!suffix`, or `!` alone, which has no handle. -/
def tag : Reading Token.Kind := do
  ensure 2
  let c ← get
  let start := c.mark
  let kind ← if c.ahead 1 = '<' then do
      skip
      skip
      let uri ← tagUri start none
      if (← here) ≠ '>' then refuse start "did not find the expected '>'"
      else
        skip
        pure (Token.Kind.tag [] uri)
    else do
      let handle ← tagHandle false start
      if 1 < handle.length && handle.getLast? = some '!' then
        pure (.tag (encode handle) (← tagUri start none))
      else
        let suffix ← tagUri start (some handle.tail)
        pure (if suffix.isEmpty then .tag [] (encode handle) else .tag [33] suffix)
  ensure 1
  if endsWord (← here) then return kind
  else refuse start "did not find expected whitespace or line break"

def versionNumber (start : Mark) : Reading Nat := do
  ensure 1
  let digits ← takeWhile Char.isDigit
  if digits.isEmpty then refuse start "did not find expected version number"
  else if 2 < digits.length then refuse start "found extremely long version number"
  else return Decimal.value (encode digits)

def version (start : Mark) : Reading Token.Kind := do
  skipWhile isBlank
  let major ← versionNumber start
  if (← here) ≠ '.' then refuse start "did not find expected digit or '.' character"
  else
    skip
    return .version major (← versionNumber start)

def tagDirective (start : Mark) : Reading Token.Kind := do
  skipWhile isBlank
  let handle ← tagHandle true start
  ensure 1
  if !isBlank (← here) then refuse start "did not find expected whitespace"
  else
    skipWhile isBlank
    let expansion ← tagUri start none
    ensure 1
    if endsWord (← here) then return .tagHandle (encode handle) expansion
    else refuse start "did not find expected whitespace or line break"

/-- A line that a percent sign starts. -/
def directive : Reading Token.Kind := do
  let start := (← get).mark
  skip
  ensure 1
  let name ← takeWhile isWordChar
  if name.isEmpty then refuse start "could not find expected directive name"
  else if !endsWord (← here) then refuse start "found unexpected non-alphabetical character"
  else
    let kind ←
      if name = "YAML".toList then version start
      else if name = "TAG".toList then tagDirective start
      else refuse start "found unknown directive name"
    finishLine start
    return kind

end Reading

end Yaml

end Stepwise
