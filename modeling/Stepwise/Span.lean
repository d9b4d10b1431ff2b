import Stepwise.Text.Bytes

/-! Where in a source text something stands: a half-open byte range, and the line and column of its
start for the reader of a message. -/

namespace Stepwise

structure Span where
  start : Int
  stop : Int
  line : Int
  column : Int
  deriving DecidableEq, Inhabited, Repr

namespace Span

/-- No place at all. -/
def nowhere : Span := ⟨0, 0, 0, 0⟩

def isNowhere (s : Span) : Bool := s == nowhere

/-- The covered bytes, or none when the range does not fit the source. -/
def text (s : Span) (source : Bytes) : Bytes :=
  if 0 ≤ s.start ∧ s.stop ≤ source.length ∧ s.start ≤ s.stop then
    (source.drop s.start.toNat).take (s.stop - s.start).toNat
  else []

/-- From the start of one span to the stop of another. -/
def through (first last : Span) : Span := { first with stop := last.stop }

/-- The empty range where a span starts. -/
def opening (s : Span) : Span := { s with stop := s.start }

end Span

end Stepwise
