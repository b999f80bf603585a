import SchemaGraph.Table

/- Reading command-line arguments. A switch is written `--name`, or `-n` by its letter. A value is
   the next argument, or follows `=`, or follows the letter at once. Letters may be joined, and
   after `--` every argument is an operand. Arguments are taken from left to right, and the first
   that is wrong or asks for help decides. -/
namespace SchemaGraph.CommandLine

inductive Misuse where
  | unknownSwitch (text : String)
  | repeated (name : String)
  | missing (name : String)
  | valueMissing (name : String)
  | valueNeedless (name : String)
  | valueRefused (name value : String)
  | unknownCommand (name : String)
  | commandMissing
  deriving DecidableEq, Repr

namespace Misuse

def message : Misuse → String
  | unknownSwitch text => "unknown switch " ++ text
  | repeated name => name ++ " is given more than once"
  | missing name => name ++ " is not given"
  | valueMissing name => name ++ " needs a value"
  | valueNeedless name => name ++ " takes no value"
  | valueRefused name value => name ++ " cannot be '" ++ value ++ "'"
  | unknownCommand name => "unknown command " ++ name
  | commandMissing => "no command is given"

end Misuse

/-- Why no command is carried out. -/
inductive Stop where
  | help
  | version
  | misuse (cause : Misuse)
  deriving DecidableEq, Repr

inductive Meaning (α : Type) where
  | stop (reason : Stop)
  | flag (setting : α)
  | valued (read : String → Option α)

structure Switch (α : Type) where
  name : String
  letter : Option Char
  meaning : Meaning α

/-- The switches of a command; its operand counts as one that is never written. -/
structure Grammar (α : Type) where
  switches : List (Switch α)
  operand : Switch α

/-- The settings so far under the names of their switches, and the switch whose value comes next. -/
structure Scan (α : Type) where
  settings : Table α := []
  awaiting : Option (Switch α) := none

namespace Scan
variable {α : Type}

def add (s : Scan α) (name : String) (setting : α) : Except Stop (Scan α) :=
  if s.settings.has name then .error (.misuse (.repeated name))
  else .ok ⟨s.settings.put name setting, none⟩

def meet (s : Scan α) (switch : Switch α) : Except Stop (Scan α) :=
  match switch.meaning with
  | .stop reason => .error reason
  | .flag setting => s.add switch.name setting
  | .valued _ => .ok { s with awaiting := some switch }

def give (s : Scan α) (switch : Switch α) (value : String) : Except Stop (Scan α) :=
  match switch.meaning with
  | .valued read =>
    match read value with
    | some setting => s.add switch.name setting
    | none => .error (.misuse (.valueRefused switch.name value))
  | _ => .error (.misuse (.valueNeedless switch.name))

/-- Of joined letters the first whose switch takes a value has the rest as its value. -/
def takeLetters (switches : List (Switch α)) : Scan α → List Char → Except Stop (Scan α)
  | s, [] => .ok s
  | s, letter :: rest =>
    match switches.find? (·.letter == some letter) with
    | none => .error (.misuse (.unknownSwitch (String.ofList ['-', letter])))
    | some switch =>
      match switch.meaning, rest with
      | .valued _, '=' :: value => s.give switch (String.ofList value)
      | .valued _, letter :: value => s.give switch (String.ofList (letter :: value))
      | _, rest => do takeLetters switches (← s.meet switch) rest

def takeName (switches : List (Switch α)) (s : Scan α) (text : List Char) :
    Except Stop (Scan α) :=
  let name := String.ofList (text.takeWhile (· != '='))
  match switches.find? (·.name == name), text.dropWhile (· != '=') with
  | none, _ => .error (.misuse (.unknownSwitch ("--" ++ name)))
  | some switch, [] => s.meet switch
  | some switch, _ :: value => s.give switch (String.ofList value)

def take (g : Grammar α) (s : Scan α) (argument : String) : Except Stop (Scan α) :=
  match argument.toList with
  | '-' :: '-' :: text => s.takeName g.switches text
  | '-' :: letter :: rest => s.takeLetters g.switches (letter :: rest)
  | _ => s.give g.operand argument

end Scan

/-- A hyphen and more; a hyphen alone is a value or an operand. -/
def isHyphened (argument : String) : Bool :=
  match argument.toList with
  | '-' :: _ :: _ => true
  | _ => false

/-- The settings that the arguments give, each at most once. -/
def settings {α : Type} (g : Grammar α) : Scan α → List String → Except Stop (List α)
  | s, [] =>
    match s.awaiting with
    | some switch => .error (.misuse (.valueMissing switch.name))
    | none => .ok s.settings.values
  | s, argument :: rest =>
    match s.awaiting with
    | some switch =>
      if isHyphened argument then .error (.misuse (.valueMissing switch.name))
      else do settings g (← s.give switch argument) rest
    | none =>
      if argument = "--" then do
        return (← rest.foldlM (·.give g.operand) s).settings.values
      else do settings g (← s.take g argument) rest

end SchemaGraph.CommandLine
