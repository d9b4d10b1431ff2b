import Stepwise.Span
import Stepwise.Text.Quoted

/-! Tokens of the language and its reserved words. -/

namespace Stepwise

inductive Keyword where
  | set
  | ifWord
  | elseWord
  | endWord
  | times
  | forever
  | function
  | trueWord
  | falseWord
  | null
  deriving DecidableEq, Repr

namespace Keyword

def all : List Keyword :=
  [.set, .ifWord, .elseWord, .endWord, .times, .forever, .function, .trueWord, .falseWord, .null]

def word : Keyword → Bytes
  | .set => utf8 "set"
  | .ifWord => utf8 "if"
  | .elseWord => utf8 "else"
  | .endWord => utf8 "end"
  | .times => utf8 "times"
  | .forever => utf8 "forever"
  | .function => utf8 "function"
  | .trueWord => utf8 "true"
  | .falseWord => utf8 "false"
  | .null => utf8 "null"

def ofWord? (w : Bytes) : Option Keyword := all.find? fun k => k.word == w

end Keyword

inductive TokenKind where
  | eof
  | lparen
  | rparen
  | int
  | string
  | ident
  | keyword (k : Keyword)
  deriving DecidableEq, Repr

def TokenKind.name : TokenKind → Bytes
  | .eof => utf8 "EOF"
  | .lparen => utf8 "("
  | .rparen => utf8 ")"
  | .int => utf8 "INT"
  | .string => utf8 "STRING"
  | .ident => utf8 "IDENT"
  | .keyword k => k.word

/-- A lexeme as it stands in the source. The end of input is a token without text. -/
structure Token where
  kind : TokenKind
  raw : Bytes
  span : Span
  deriving DecidableEq, Repr

/-- How a message names a token. -/
def Token.describe (t : Token) : Bytes :=
  match t.kind with
  | .eof => utf8 "end of input"
  | .int | .string | .ident => quote t.raw
  | .lparen | .rparen | .keyword _ => 39 :: t.raw ++ [39]

end Stepwise
