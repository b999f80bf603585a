import SchemaGraph.CommandLine.Arguments
import SchemaGraph.Options

/- The commands and how they are asked for. -/
namespace SchemaGraph.CommandLine

inductive Format where
  | pretty
  | compact
  deriving DecidableEq, Repr

inductive Setting where
  | document (path : String)
  | dictionary (path : String)
  | output (path : String)
  | config (path : String)
  | report (path : String)
  | keepRootElements
  | keepXml
  | v3Nullable (value : Bool)
  | maxDepth (value : Nat)
  | format (value : Format)
  | verbose
  deriving DecidableEq, Repr

/-- What a run of all passes reads and writes, and what overrides its options. -/
structure Task where
  document : String
  dictionary : String
  /-- Where the document goes, standard output when absent. -/
  output : Option String := none
  config : Option String := none
  report : Option String := none
  keepRootElements : Bool := false
  keepXml : Bool := false
  v3Nullable : Option Bool := none
  maxDepth : Option Nat := none
  format : Format := .pretty
  deriving DecidableEq, Repr

inductive Command where
  | normalize (task : Task)
  | verify (document : String)
  deriving DecidableEq, Repr

/-- A path is any text but the empty one. -/
def path? (text : String) : Option String := if text = "" then none else some text

def flag? : String → Option Bool
  | "true" => some true
  | "false" => some false
  | _ => none

def maxCount : Nat := Nat.pow 2 64 - 1

def digits? (text : List Char) : Option Nat :=
  if text ≠ [] ∧ text.all Char.isDigit then
    let value := text.foldl (fun n c => 10 * n + (c.toNat - '0'.toNat)) 0
    if value ≤ maxCount then some value else none
  else none

/-- Decimal digits, perhaps after a plus sign. -/
def count? (text : String) : Option Nat :=
  match text.toList with
  | '+' :: rest => digits? rest
  | digits => digits? digits

def format? : String → Option Format
  | "pretty" => some .pretty
  | "compact" => some .compact
  | _ => none

def valued (name : String) (letter : Option Char) {β : Type} (read : String → Option β)
    (setting : β → Setting) : Switch Setting :=
  ⟨name, letter, .valued fun text => (read text).map setting⟩

/-- Asks for logs; there are none to add. -/
def verboseSwitch : Switch Setting := ⟨"verbose", some 'v', .flag .verbose⟩

def helpSwitch : Switch Setting := ⟨"help", some 'h', .stop .help⟩

def versionSwitch : Switch Setting := ⟨"version", some 'V', .stop .version⟩

def documentOperand : Switch Setting := valued "INPUT" none path? .document

/-- What may stand before the command. -/
def leading : Grammar Setting := ⟨[verboseSwitch, helpSwitch, versionSwitch], documentOperand⟩

def verification : Grammar Setting := ⟨[verboseSwitch, helpSwitch], documentOperand⟩

def normalization : Grammar Setting :=
  ⟨[valued "dictionary" (some 'd') path? .dictionary, valued "output" (some 'o') path? .output,
    valued "config" none path? .config, ⟨"keep-root-elements", none, .flag .keepRootElements⟩,
    ⟨"no-pure-xml", none, .flag .keepXml⟩, valued "v3-nullable" none flag? .v3Nullable,
    valued "max-depth" none count? .maxDepth, valued "report" none path? .report,
    valued "format" none format? .format, verboseSwitch, helpSwitch], documentOperand⟩

namespace Setting

def document? : Setting → Option String
  | document path => some path
  | _ => none

def dictionary? : Setting → Option String
  | dictionary path => some path
  | _ => none

end Setting

def required (name : String) (value : Option String) : Except Stop String :=
  match value with
  | some path => .ok path
  | none => .error (.misuse (.missing name))

namespace Task

def change (t : Task) : Setting → Task
  | .document path => { t with document := path }
  | .dictionary path => { t with dictionary := path }
  | .output path => { t with output := some path }
  | .config path => { t with config := some path }
  | .report path => { t with report := some path }
  | .keepRootElements => { t with keepRootElements := true }
  | .keepXml => { t with keepXml := true }
  | .v3Nullable value => { t with v3Nullable := some value }
  | .maxDepth value => { t with maxDepth := some value }
  | .format value => { t with format := value }
  | .verbose => t

def ofSettings (given : List Setting) : Except Stop Task := do
  let document ← required "INPUT" (given.findSome? Setting.document?)
  let dictionary ← required "dictionary" (given.findSome? Setting.dictionary?)
  return given.foldl change { document, dictionary }

/-- The options of a configuration, overridden by what the command line says. -/
def options (t : Task) (config : Options) : Options where
  keepRootElements := config.keepRootElements || t.keepRootElements
  pureXml := config.pureXml && !t.keepXml
  v3Nullable := t.v3Nullable <|> config.v3Nullable
  maxDepth := t.maxDepth.getD config.maxDepth

end Task

namespace Command

/-- Help on everything or on one command. -/
def helpStop : List String → Stop
  | [] => .help
  | [topic] =>
    if ["normalize", "verify", "help"].contains topic then .help
    else .misuse (.unknownCommand topic)
  | _ :: extra :: _ => .misuse (.unknownCommand extra)

def ofName (rest : List String) : String → Except Stop Command
  | "normalize" => do return .normalize (← Task.ofSettings (← settings normalization {} rest))
  | "verify" => do
    let given ← settings verification {} rest
    return .verify (← required "INPUT" (given.findSome? Setting.document?))
  | "help" => .error (helpStop rest)
  | name => .error (.misuse (.unknownCommand name))

/-- The first argument without a hyphen names the command. -/
def parse (arguments : List String) : Except Stop Command := do
  let isLeading (argument : String) : Bool := isHyphened argument && argument != "--"
  let _ ← settings leading {} (arguments.takeWhile isLeading)
  match arguments.dropWhile isLeading with
  | [] => .error (.misuse .commandMissing)
  | name :: rest => ofName rest name

end Command
end SchemaGraph.CommandLine
