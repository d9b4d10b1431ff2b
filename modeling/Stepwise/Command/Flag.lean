import Stepwise.Number.Duration
import Stepwise.Number.Literal
import Stepwise.Text.Quoted

/-! Command-line flags: words with a dash or two in front that set one part of a record of options
each. The first other word ends them, and so does a pair of dashes. -/

namespace Stepwise

/-- What a flag takes, and what it does to the options. -/
inductive FlagSetter (α : Type) where
  | switch (set : Bool → α → α)
  | count (set : Int → α → α)
  | duration (set : Int → α → α)

structure Flag (α : Type) where
  name : Bytes
  usage : Bytes
  /-- The value without the flag, where it is worth telling. -/
  standard : Option Bytes
  setter : FlagSetter α

inductive FlagError where
  | help
  | malformed (word : Bytes)
  | undefined (name : Bytes)
  | noArgument (name : Bytes)
  | badSwitch (name value : Bytes)
  | badValue (name value : Bytes)
  | outOfRange (name value : Bytes)
  deriving DecidableEq, Repr

namespace FlagError

/-- What is wrong; asking for help is no mistake. -/
def text? : FlagError → Option Bytes
  | .help => none
  | .malformed word => some (utf8 "bad flag syntax: " ++ word)
  | .undefined name => some (utf8 "flag provided but not defined: -" ++ name)
  | .noArgument name => some (utf8 "flag needs an argument: -" ++ name)
  | .badSwitch name value =>
    some (utf8 "invalid boolean value " ++ quote value ++ utf8 " for -" ++ name
      ++ utf8 ": parse error")
  | .badValue name value => some (refusal name value ++ utf8 "parse error")
  | .outOfRange name value => some (refusal name value ++ utf8 "value out of range")
where
  refusal (name value : Bytes) : Bytes :=
    utf8 "invalid value " ++ quote value ++ utf8 " for flag -" ++ name ++ utf8 ": "

end FlagError

/-- A flag as it is written: its name, and its value when one is joined to it. -/
structure FlagWord where
  name : Bytes
  value : Option Bytes
  deriving DecidableEq, Repr

inductive Argument where
  | plain
  | endOfFlags
  | malformed
  | flag (word : FlagWord)
  deriving DecidableEq, Repr

namespace Argument

/-- Splits a name that is not empty from the value after the first equals sign. -/
def splitValue (text : Bytes) : FlagWord :=
  let name := text.takeWhile (· != 61)
  if name.length < text.length then ⟨name, some (text.drop (name.length + 1))⟩ else ⟨name, none⟩

def ofName : Bytes → Argument
  | [] => .malformed
  | 45 :: _ => .malformed
  | 61 :: _ => .malformed
  | text => .flag (splitValue text)

def read : Bytes → Argument
  | [45, 45] => .endOfFlags
  | 45 :: 45 :: rest => ofName rest
  | [45] => .plain
  | 45 :: rest => ofName rest
  | _ => .plain

end Argument

namespace Flag

variable {α : Type}

def switchWords : List (String × Bool) := [
  ("1", true), ("t", true), ("T", true), ("true", true), ("TRUE", true), ("True", true),
  ("0", false), ("f", false), ("F", false), ("false", false), ("FALSE", false), ("False", false)]

def readSwitch? (value : Bytes) : Option Bool :=
  (switchWords.find? fun (word, _) => utf8 word == value).map Prod.snd

def applyCount (name value : Bytes) (set : Int → α → α) (options : α) : Except FlagError α :=
  match IntegerLiteral.readWord value with
  | .ok n => .ok (set n options)
  | .error .malformed => .error (.badValue name value)
  | .error .outOfRange => .error (.outOfRange name value)

def applyDuration (name value : Bytes) (set : Int → α → α) (options : α) : Except FlagError α :=
  match Duration.read? value with
  | some d => .ok (set d options)
  | none => .error (.badValue name value)

def applySwitch (name : Bytes) (value : Option Bytes) (set : Bool → α → α) (options : α) :
    Except FlagError α :=
  match value with
  | none => .ok (set true options)
  | some value =>
    match readSwitch? value with
    | some b => .ok (set b options)
    | none => .error (.badSwitch name value)

/-- The value of a flag that needs one: joined to it, or the next argument. -/
def takeValue (word : FlagWord) (rest : List Bytes) : Except FlagError (Bytes × Nat) :=
  match word.value, rest with
  | some value, _ => .ok (value, 0)
  | none, value :: _ => .ok (value, 1)
  | none, [] => .error (.noArgument word.name)

/-- Sets what a flag says, and tells how many of the arguments after it belong to it. -/
def apply (flag : Flag α) (word : FlagWord) (rest : List Bytes) (options : α) :
    Except FlagError (α × Nat) :=
  match flag.setter with
  | .switch set => do return (← applySwitch word.name word.value set options, 0)
  | .count set => do
    let (value, used) ← takeValue word rest
    return (← applyCount word.name value set options, used)
  | .duration set => do
    let (value, used) ← takeValue word rest
    return (← applyDuration word.name value set options, used)

def missing (name : Bytes) : FlagError :=
  if name = utf8 "h" || name = utf8 "help" then .help else .undefined name

/-- Reads flags off arguments, the first `skip` of which belong to a flag already. The rest are the
arguments proper. -/
def readFrom (flags : List (Flag α)) :
    (skip : Nat) → List Bytes → α → Except FlagError (α × List Bytes)
  | _, [], options => .ok (options, [])
  | skip + 1, _ :: rest, options => readFrom flags skip rest options
  | 0, arg :: rest, options =>
    match Argument.read arg with
    | .plain => .ok (options, arg :: rest)
    | .endOfFlags => .ok (options, rest)
    | .malformed => .error (.malformed arg)
    | .flag word =>
      match flags.find? fun flag => flag.name == word.name with
      | none => .error (missing word.name)
      | some flag =>
        match flag.apply word rest options with
        | .error error => .error error
        | .ok (options, used) => readFrom flags used rest options

def read (flags : List (Flag α)) (args : List Bytes) (options : α) :
    Except FlagError (α × List Bytes) :=
  readFrom flags 0 args options

/-- A flag with what it takes. -/
def heading (flag : Flag α) : Bytes :=
  utf8 "  -" ++ flag.name ++ match flag.setter with
    | .switch _ => []
    | .count _ => utf8 " int"
    | .duration _ => utf8 " duration"

/-- How a flag is explained; only after a short heading on the same line. -/
def explanation (flag : Flag α) : Bytes :=
  let heading := flag.heading
  heading ++ (if heading.length ≤ 4 then [9] else utf8 "\n    \t") ++ flag.usage
    ++ (match flag.standard with
      | some text => utf8 " (default " ++ text ++ utf8 ")"
      | none => [])
    ++ [10]

/-- All flags of a command, in order of their names. -/
def usageText (command : Bytes) (flags : List (Flag α)) : Bytes :=
  utf8 "Usage of " ++ command ++ utf8 ":\n"
    ++ (flags.mergeSort fun a b => Bytes.le a.name b.name).flatMap explanation

end Flag

end Stepwise
