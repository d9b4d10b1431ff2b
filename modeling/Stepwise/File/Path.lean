import Stepwise.Text.Bytes

/-! File paths: components apart by slashes. -/

namespace Stepwise

abbrev Path := Bytes

namespace Path

def slash : UInt8 := 47

def isAbsolute : Path → Bool
  | 47 :: _ => true
  | _ => false

def components (p : Path) : List Bytes := Bytes.splitAt slash p

def here : Bytes := [46]

def up : Bytes := [46, 46]

/-- Puts a component on the way gone so far, which is kept last component first. Going up undoes a
component; at the root it does nothing, and elsewhere it is kept where nothing is left to undo. -/
def push (rooted : Bool) (gone : List Bytes) (component : Bytes) : List Bytes :=
  if component.isEmpty || component = here then gone
  else if component = up then
    match gone with
    | [] => if rooted then [] else [up]
    | last :: before => if last = up then up :: gone else before
  else component :: gone

/-- The shortest path that leads to the same place, as far as its text tells. -/
def clean (p : Path) : Path :=
  let rooted := isAbsolute p
  let kept := (p.components.foldl (push rooted) []).reverse
  let body := Bytes.join [slash] kept
  if rooted then slash :: body else if body.isEmpty then here else body

/-- One path after another; empty ones do not count. -/
def join (parts : List Path) : Path :=
  match parts.filter fun p => !p.isEmpty with
  | [] => []
  | kept => clean (Bytes.join [slash] kept)

def absolute (workDir p : Path) : Path := if isAbsolute p then clean p else join [workDir, p]

/-- The directory a path lies in. -/
def parent (p : Path) : Path := clean ((p.reverse.dropWhile (· != slash)).reverse)

/-- The end of the last component from its last dot on. -/
def ending (p : Path) : Bytes :=
  let last := (p.reverse.takeWhile (· != slash)).reverse
  if last.contains 46 then 46 :: (last.reverse.takeWhile (· != 46)).reverse else []

/-- Whether a path leads nowhere outside the directory it starts from. -/
def isLocal (p : Path) : Bool :=
  !isAbsolute p && !p.isEmpty &&
    let q := clean p
    q != up && !Bytes.startsWith (up ++ [slash]) q

end Path

end Stepwise
