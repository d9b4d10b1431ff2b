import Stepwise.Diagnostic

/-! Splitting a source into tokens. Blanks and comments stand between tokens and separate them; a
lexeme is always the longest its first byte allows. -/

namespace Stepwise

/-- A place in a source: the bytes before it, and its line and column counted from 1. -/
structure Cursor where
  offset : Nat
  line : Nat
  column : Nat
  deriving DecidableEq, Repr

namespace Cursor

def origin : Cursor := ⟨0, 1, 1⟩

def next (c : Cursor) (b : UInt8) : Cursor :=
  if b = 10 then ⟨c.offset + 1, c.line + 1, 1⟩ else ⟨c.offset + 1, c.line, c.column + 1⟩

/-- The place after some bytes. -/
def advance (c : Cursor) (bytes : Bytes) : Cursor := bytes.foldl next c

def span (first past : Cursor) : Span := ⟨first.offset, past.offset, first.line, first.column⟩

end Cursor

def isLetter (b : UInt8) : Bool := (97 ≤ b && b ≤ 122) || (65 ≤ b && b ≤ 90)

def isIdentStart (b : UInt8) : Bool := b == 95 || isLetter b

def isIdentPart (b : UInt8) : Bool :=
  isIdentStart b || isDigit b || b == 63 || b == 33 || b == 45

def isTriviaByte (b : UInt8) : Bool := b == 32 || b == 9 || b == 13 || b == 10

/-- Whether a name can be written as a symbol. -/
def isSymbol (name : Bytes) : Bool :=
  match name with
  | [] => false
  | b :: rest => isIdentStart b && rest.all isIdentPart && (Keyword.ofWord? name).isNone

/-- The blanks and comments a text starts with; a comment runs to the end of its line. -/
def trivia (inComment : Bool) : Bytes → Bytes
  | [] => []
  | b :: rest =>
    if inComment then b :: trivia (b != 10) rest
    else if isTriviaByte b then b :: trivia false rest
    else
      match b, rest with
      | 47, 47 :: after => 47 :: 47 :: trivia true after
      | _, _ => []

/-- What stands at the front of a text: a token, or something that is none. -/
inductive Lexeme where
  | token (kind : TokenKind) (raw : Bytes)
  | fault (cause : Cause) (raw : Bytes)

def Lexeme.raw : Lexeme → Bytes
  | .token _ raw | .fault _ raw => raw

def wordLexeme (raw : Bytes) : Lexeme :=
  match Keyword.ofWord? raw with
  | some k => .token (.keyword k) raw
  | none => .token .ident raw

def stringLexeme (rest : Bytes) : Lexeme :=
  let inside := rest.takeWhile (· != 34)
  if rest.length = inside.length then .fault .unterminatedString (34 :: inside)
  else .token .string (34 :: inside ++ [34])

def numberLexeme (first : UInt8) (rest : Bytes) : Lexeme :=
  let digits := rest.takeWhile isDigit
  let more := (rest.drop digits.length).takeWhile isIdentPart
  if more.isEmpty then .token .int (first :: digits)
  else .fault (.malformedNumber (first :: digits ++ more)) (first :: digits ++ more)

def startsNumber (first : UInt8) (rest : Bytes) : Bool :=
  isDigit first || (first == 45 && rest.head?.any isDigit)

/-- The lexeme that a non-empty text without leading trivia starts with. -/
def lexeme (first : UInt8) (rest : Bytes) : Lexeme :=
  if first = 40 then .token .lparen [first]
  else if first = 41 then .token .rparen [first]
  else if first = 34 then stringLexeme rest
  else if startsNumber first rest then numberLexeme first rest
  else if isIdentStart first then wordLexeme (first :: rest.takeWhile isIdentPart)
  else .fault (.illegalByte first) [first]

/-- The tokens of a source, and the end of input after them. -/
structure Tokens where
  items : List Token
  eof : Token

namespace Tokens

def toList (ts : Tokens) : List Token := ts.items ++ [ts.eof]

def push (t : Token) (ts : Tokens) : Tokens := { ts with items := t :: ts.items }

def endAt (c : Cursor) : Tokens := ⟨[], ⟨.eof, [], c.span c⟩⟩

end Tokens

theorem length_lt_of_drop_eq_cons {n : Nat} {text rest : Bytes} {b : UInt8}
    (h : text.drop n = b :: rest) : rest.length < text.length := by
  have hl := congrArg List.length h
  rw [List.length_drop, List.length_cons] at hl
  omega

/-- Reads tokens to the end of the text, or to the first thing that is no token. -/
def scanFrom (c : Cursor) (text : Bytes) : Except Diagnostic Tokens :=
  let skipped := trivia false text
  let here := c.advance skipped
  match h : text.drop skipped.length with
  | [] => .ok (Tokens.endAt here)
  | b :: rest =>
    have := length_lt_of_drop_eq_cons h
    match lexeme b rest with
    | .fault cause raw => .error ⟨cause, here.span (here.advance raw)⟩
    | .token kind raw => do
      let past := here.advance raw
      let ts ← scanFrom past (rest.drop (raw.length - 1))
      return ts.push ⟨kind, raw, here.span past⟩
termination_by text.length
decreasing_by
  rw [List.length_drop]
  omega

def scan (source : Bytes) : Except Diagnostic Tokens := scanFrom .origin source

end Stepwise
