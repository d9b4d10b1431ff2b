import Stepwise.Number.Decimal
import Stepwise.Text.Blank
import Stepwise.Text.Quoted

/-! Locations: paths of child indices from the root of a program to the statement that comes next.
The program itself has index 0, so a location is over once its first index is another one. -/

namespace Stepwise

abbrev Location := List Int

namespace Location

def start : Location := []

def finished : Location := [1]

/-- The first index, 0 on the empty path. -/
def head : Location → Int
  | [] => 0
  | i :: _ => i

def below : Location → Location
  | [] => []
  | _ :: rest => rest

def done (l : Location) : Bool := l.head != 0

/-- The empty path and the path to the program are the same place. -/
def normalize : Location → Location
  | [] => [0]
  | l => l

def same (a b : Location) : Bool := a.normalize == b.normalize

def text (l : Location) : Bytes :=
  91 :: Bytes.join [32] (l.map Decimal.ofInt) ++ [93]

def separates : Glyph → Bool
  | .char c => c = ' ' || c = ','
  | .stray _ => false

/-- Reads an index: a natural number, perhaps signed, that a machine word holds. -/
def readIndex? (field : Bytes) : Option Int :=
  match Decimal.readWord? field with
  | some n => if n.toInt < 0 then none else some n.toInt
  | none => none

/-- Takes off a first opening and a last closing bracket. -/
def unbracket (text : Bytes) : Bytes :=
  let opened := match text with
    | 91 :: rest => rest
    | _ => text
  match opened.reverse with
  | 93 :: rest => rest.reverse
  | _ => opened

/-- Reads indices between optional brackets, apart by spaces and commas. The first field that is no
index is the failure. -/
def read (text : Bytes) : Except Bytes Location :=
  (Bytes.fieldsBy separates (Glyph.read (unbracket text.trim))).mapM fun field =>
    match readIndex? field with
    | some i => .ok i
    | none => .error field

/-- How a message names the field that could not be read. -/
def unreadable (field : Bytes) : Bytes :=
  utf8 "strconv.ParseLocation: parsing " ++ quote field ++ utf8 ": invalid syntax"

end Location

end Stepwise
