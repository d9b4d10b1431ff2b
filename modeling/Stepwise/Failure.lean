import Stepwise.Diagnostic.Excerpt

/-! Why a run stops early: a diagnostic of the program, an error of its surroundings, or the end of
somebody's patience. -/

namespace Stepwise

inductive Failure where
  | diagnostic (d : Diagnostic)
  | plain (message : Bytes)
  | canceled
  | overdue
  | wrapped (note : Bytes) (inner : Failure)

namespace Failure

def text : Failure → Bytes
  | .diagnostic d => d.text
  | .plain message => message
  | .canceled => utf8 "context canceled"
  | .overdue => utf8 "context deadline exceeded"
  | .wrapped note inner => note ++ utf8 ": " ++ inner.text

/-- The diagnostic inside, if there is one. -/
def diagnostic? : Failure → Option Diagnostic
  | .diagnostic d => some d
  | .wrapped _ inner => inner.diagnostic?
  | .plain _ | .canceled | .overdue => none

def kind? (f : Failure) : Option Kind := f.diagnostic?.map Diagnostic.kind

/-- Gives a place to a diagnostic that has none; a note around it is dropped with that. -/
def placedAt (f : Failure) (span : Span) : Failure :=
  match f.diagnostic? with
  | some d => if d.span.isNowhere && !span.isNowhere then .diagnostic { d with span } else f
  | none => f

/-- The failure after its file name; a diagnostic that has a place is shown with it. -/
def format (file source : Bytes) (f : Failure) : Bytes :=
  match f.diagnostic? with
  | some d =>
    if d.span.isNowhere then Diagnostic.named file (utf8 ": ") f.text else d.format file source
  | none => Diagnostic.named file (utf8 ": ") f.text

end Failure

end Stepwise
