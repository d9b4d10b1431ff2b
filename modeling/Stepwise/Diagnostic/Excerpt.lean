import Stepwise.Diagnostic

/-! Diagnostics shown with the line of the source they concern and carets under the place. -/

namespace Stepwise.Diagnostic

/-- Line numbers stand to the right in four columns. -/
def gutter (line : Int) : Bytes :=
  let digits := Decimal.ofInt line
  spaces (4 - digits.length) ++ digits ++ utf8 " | "

/-- The line a place is on, without carriage returns at its end. -/
def sourceLine? (source : Bytes) (line : Int) : Option Bytes :=
  if line < 1 then none
  else ((Bytes.splitAt 10 source)[line.toNat - 1]?).map (Bytes.trimEnd 13)

/-- How many bytes a place covers; the count is kept in a machine word. -/
def width (span : Span) : Int := (Int64.ofInt (span.stop - span.start)).toInt

/-- One caret for each byte of the place that the line shows, and at least one. -/
def caretCount (span : Span) (column : Int) (shown : Bytes) : Nat :=
  (max 1 (min (width span) (shown.length - (column - 1)))).toNat

def excerpt (span : Span) (shown : Bytes) : Bytes :=
  let margin := gutter span.line
  let column := max 1 span.column
  10 :: margin ++ shown ++ 10 :: spaces (margin.length - 2) ++ utf8 "| "
    ++ spaces (column - 1).toNat ++ List.replicate (caretCount span column shown) 94

def named (file : Bytes) (mark : Bytes) (text : Bytes) : Bytes :=
  if file.isEmpty then text else file ++ mark ++ text

/-- A diagnostic after its file name, and below it the place in the source. -/
def format (file source : Bytes) (d : Diagnostic) : Bytes :=
  named file [58] d.text ++
    match sourceLine? source d.span.line with
    | some shown => excerpt d.span shown
    | none => []

end Stepwise.Diagnostic
