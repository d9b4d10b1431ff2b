import Stepwise.Location
import Stepwise.Shape
import Stepwise.Token
import Stepwise.Tree.Node

/-! What can be wrong with a program: causes, the kind each belongs to, the words it is told in and
the place it concerns. -/

namespace Stepwise

inductive Kind where
  | badForm
  | badName
  | badType
  | invalidConstruct
  | internal
  | arithmetic
  | recursion
  deriving DecidableEq, Repr

namespace Kind

def all : List Kind :=
  [.badForm, .badName, .badType, .invalidConstruct, .internal, .arithmetic, .recursion]

def name : Kind → Bytes
  | .badForm => utf8 "SyntaxError"
  | .badName => utf8 "NameError"
  | .badType => utf8 "TypeError"
  | .invalidConstruct => utf8 "InvalidConstruct"
  | .internal => utf8 "InternalError"
  | .arithmetic => utf8 "ArithmeticError"
  | .recursion => utf8 "RecursionError"

end Kind

inductive Cause where
  | unterminatedString
  | malformedNumber (raw : Bytes)
  | illegalByte (b : UInt8)
  | noStatement (found : Token)
  | noExpression (found : Token)
  | setNotClosed (found : Token)
  | paramsNotOpened (found : Token)
  | unterminatedBlock (opener : Bytes)
  | keywordTarget (word : Bytes)
  | targetNotSymbol (found : Token)
  | emptyCall
  | unterminatedCall
  | unterminatedParams
  | paramNotSymbol (found : Token)
  | duplicateParam (name : Name)
  | integerRange (raw : Bytes)
  | incompleteSet
  | incompleteIf
  | timesWithoutBody
  | timesWithoutCount
  | countNotInteger (got : Shape)
  | countNotAllowed (got : NodeType)
  | callWithoutCallee
  | functionWithoutBody
  | foreverAsValue
  | missingNode
  | unexpectedNode (got : NodeType)
  | unbound (name : Name)
  | nativeArity (name : Name) (expected got : Nat)
  | functionArity (expected got : Nat)
  | callDepth (limit : Nat)
  | notCallable (got : Shape)
  | operands (operation : Name) (left right : Shape)
  | divisionByZero
  | noProgramToStep
  | cannotStep (got : NodeType)
  | negativeIndex (at_ : Location)
  | noIfChild (at_ : Location) (child : Int)
  | noTimesChild (at_ : Location) (child : Int)
  | noActiveLoop (at_ : Location)
  | raised (kind : Kind) (message : Bytes)

namespace Cause

def kind : Cause → Kind
  | unterminatedString | malformedNumber _ | illegalByte _ | noStatement _ | noExpression _
  | setNotClosed _ | paramsNotOpened _ | unterminatedBlock _ | keywordTarget _ | targetNotSymbol _
  | emptyCall | unterminatedCall | unterminatedParams | paramNotSymbol _ | duplicateParam _
  | integerRange _ => .badForm
  | incompleteSet | incompleteIf | timesWithoutBody | timesWithoutCount | countNotAllowed _
  | callWithoutCallee | functionWithoutBody | foreverAsValue => .invalidConstruct
  | countNotInteger _ | nativeArity _ _ _ | functionArity _ _ | notCallable _
  | operands _ _ _ => .badType
  | missingNode | unexpectedNode _ | noProgramToStep | cannotStep _ | negativeIndex _
  | noIfChild _ _ | noTimesChild _ _ | noActiveLoop _ => .internal
  | unbound _ => .badName
  | callDepth _ => .recursion
  | divisionByZero => .arithmetic
  | raised k _ => k

def unexpected (found : Token) (wanted : String) : Bytes :=
  utf8 "unexpected " ++ found.describe ++ utf8 ", expected " ++ utf8 wanted

def arityText (callee : Bytes) (expected got : Nat) : Bytes :=
  callee ++ utf8 " expects " ++ Decimal.ofNat expected ++ utf8 " argument(s), got "
    ++ Decimal.ofNat got

def stale (at_ : Location) (reason : Bytes) : Bytes :=
  utf8 "stale location " ++ at_.text ++ utf8 ": " ++ reason

def message : Cause → Bytes
  | unterminatedString => utf8 "unterminated string literal"
  | malformedNumber raw => utf8 "malformed number " ++ quote raw
  | illegalByte b => utf8 "illegal character " ++ quoteByte b
  | noStatement found => unexpected found "a statement"
  | noExpression found => unexpected found "an expression"
  | setNotClosed found => utf8 "expected 'end' to close 'set', found " ++ found.describe
  | paramsNotOpened found =>
    utf8 "expected '(' to open the parameter list, found " ++ found.describe
  | unterminatedBlock opener => utf8 "unterminated '" ++ opener ++ utf8 "' (missing 'end')"
  | keywordTarget word => 39 :: word ++ utf8 "' is a keyword and cannot be assigned"
  | targetNotSymbol found => utf8 "expected a symbol after 'set', found " ++ found.describe
  | emptyCall => utf8 "empty call: expected a callee"
  | unterminatedCall => utf8 "unterminated '(' (missing ')')"
  | unterminatedParams => utf8 "unterminated parameter list (missing ')')"
  | paramNotSymbol found =>
    utf8 "function parameters must be symbols, found " ++ found.describe
  | duplicateParam name => utf8 "duplicate parameter " ++ quote name
  | integerRange raw => utf8 "integer literal " ++ raw ++ utf8 " out of range"
  | incompleteSet => utf8 "set requires a symbol and a value"
  | incompleteIf => utf8 "if requires a condition and a body"
  | timesWithoutBody => utf8 "times requires a body"
  | timesWithoutCount => utf8 "times requires a count"
  | countNotInteger got => utf8 "times count must be an integer, got " ++ got.name
  | countNotAllowed got =>
    utf8 "times count must be a number, symbol or forever, got " ++ got.name
  | callWithoutCallee => utf8 "call requires a callee"
  | functionWithoutBody => utf8 "function requires a body"
  | foreverAsValue => utf8 "'forever' is only valid as a times count"
  | missingNode => utf8 "missing node"
  | unexpectedNode got => utf8 "unexpected " ++ got.name ++ utf8 " node"
  | unbound name => utf8 "symbol '" ++ name ++ utf8 "' not found in scope"
  | nativeArity name expected got => arityText name expected got
  | functionArity expected got => arityText (utf8 "function") expected got
  | callDepth limit => utf8 "maximum call depth " ++ Decimal.ofNat limit ++ utf8 " exceeded"
  | notCallable got => utf8 "cannot call " ++ got.name
  | operands operation left right =>
    operation ++ utf8 " cannot be applied to " ++ left.name ++ utf8 " and " ++ right.name
  | divisionByZero => utf8 "division by zero"
  | noProgramToStep => utf8 "no program to step"
  | cannotStep got => utf8 "cannot step a " ++ got.name ++ utf8 " node"
  | negativeIndex at_ => stale at_ (utf8 "negative statement index")
  | noIfChild at_ child =>
    stale at_ (utf8 "if statement has no child " ++ Decimal.ofInt child)
  | noTimesChild at_ child =>
    stale at_ (utf8 "times statement has no child " ++ Decimal.ofInt child)
  | noActiveLoop at_ => stale at_ (utf8 "no active loop")
  | raised _ message => message

end Cause

structure Diagnostic where
  cause : Cause
  span : Span

namespace Diagnostic

def kind (d : Diagnostic) : Kind := d.cause.kind

def message (d : Diagnostic) : Bytes := d.cause.message

/-- The place, the kind and the message; a diagnostic without a place leaves it out. -/
def text (d : Diagnostic) : Bytes :=
  let told := d.kind.name ++ utf8 ": " ++ d.message
  if d.span.isNowhere then told
  else Decimal.ofInt d.span.line ++ [58] ++ Decimal.ofInt d.span.column ++ utf8 ": " ++ told

end Diagnostic

end Stepwise
