import SchemaGraph.CommandLine.Command
import SchemaGraph.CommandLine.Host
import SchemaGraph.Json.Parser
import SchemaGraph.Pipeline

/- Carrying out a command on a host. Documents and reports go out as JSON with a final newline, the
   rest goes to the stream of warnings. The exit code is 0, 1 after a failure and 2 after misuse. -/
namespace SchemaGraph.CommandLine

inductive Source where
  | document
  | dictionary
  | config
  deriving DecidableEq, Repr

def Source.label : Source → String
  | document => "document"
  | dictionary => "dictionary"
  | config => "config"

inductive Failure where
  | notOpened (source : Source) (path : String)
  | notParsed (source : Source) (path : String)
  | notLoaded (path : String) (cause : Error)
  | notNormalized (cause : Error)
  | notCreated (path : String)
  | notWritten
  | notEnded
  | dangling (count : Nat) (path : String)
  deriving DecidableEq, Repr

namespace Failure

def message : Failure → String
  | notOpened source path => "Failed to open " ++ source.label ++ " file: " ++ path
  | notParsed source path => "Failed to parse " ++ source.label ++ " from: " ++ path
  | notLoaded path _ => "Failed to load document: " ++ path
  | notNormalized _ => "Normalization failed"
  | notCreated path => "Failed to create output file: " ++ path
  | notWritten => "Failed to write JSON"
  | notEnded => "Failed to write trailing newline"
  | dangling count path => toString count ++ " dangling reference(s) in " ++ path

def causes : Failure → List String
  | notLoaded _ cause => cause.causes
  | notNormalized cause => cause.causes
  | _ => []

/-- A cause on lines of its own, each behind a margin. -/
def indented (first rest : String) (cause : String) : String :=
  "\n" ++ first ++ ("\n" ++ rest).intercalate (cause.splitOn "\n")

/-- Several causes are numbered. -/
def causeText : List String → String
  | [] => ""
  | [cause] => "\n\nCaused by:" ++ indented "    " "    " cause
  | causes => "\n\nCaused by:" ++ String.join (causes.zipIdx.map fun (cause, i) =>
      indented ("    " ++ toString i ++ ": ") "       " cause)

def text (f : Failure) : String := "Error: " ++ f.message ++ causeText f.causes ++ "\n"

end Failure

def Format.render : Format → Json → String
  | pretty, value => value.pretty ++ "\n"
  | compact, value => value.compact ++ "\n"

def warningLine (w : Warning) : String := "Warning: [" ++ w.stage ++ "] " ++ w.message ++ "\n"

def errorJson (e : Error) : Json :=
  let text? (value : Option String) : Json := (value.map .str).getD .null
  .obj [("code", .str e.code), ("message", text? e.message?), ("location", text? e.location?)]

section
variable {m : Type → Type} [Monad m]

namespace Host

def readWith {α : Type} (host : Host m) (read : String → Option α) (source : Source)
    (path : String) : ExceptT Failure m α := do
  match ← host.read path with
  | .absent => throw (.notOpened source path)
  | .unreadable => throw (.notParsed source path)
  | .text value =>
    match read value with
    | some result => return result
    | none => throw (.notParsed source path)

/-- Only the selection is read, and with its entries apart, so that a field given twice is
noticed. -/
def readRecord {α : Type} (host : Host m) (selection : Selection)
    (ofJson : Json → Except Fault α) (source : Source) (path : String) : ExceptT Failure m α :=
  host.readWith (fun text => do (ofJson (← Json.parseEntries? selection text)).toOption) source
    path

def readDocument (host : Host m) (path : String) : ExceptT Failure m Document := do
  match Document.ofJson (← host.readWith Json.parse? .document path) with
  | .ok d => return d
  | .error fault => throw (.notLoaded path (.unreadable fault))

def put (host : Host m) (output : Option String) (value : String) : ExceptT Failure m Unit := do
  match output with
  | none => host.print value
  | some path =>
    match ← host.write path value with
    | .done => return ()
    | .notCreated => throw (.notCreated path)
    | .notWritten => throw .notWritten
    | .notEnded => throw .notEnded

end Host

def Task.run (host : Host m) (t : Task) : ExceptT Failure m Unit := do
  let d ← host.readDocument t.document
  let dictionary ← host.readRecord Dictionary.selection Dictionary.ofJson .dictionary t.dictionary
  let config ← match t.config with
    | some path => host.readRecord Options.selection Options.ofJson .config path
    | none => pure {}
  match d.normalize dictionary (t.options config) with
  | (_, .error e) => throw (.notNormalized e)
  | (d, .ok report) => do
    for warning in report.warnings do host.warn (warningLine warning)
    host.put t.output (t.format.render d.toJson)
    if t.report.isSome then host.put t.report (t.format.render report.toJson)

def checkReferences (host : Host m) (path : String) : ExceptT Failure m Unit := do
  let d ← host.readDocument path
  let errors := d.danglingReferences
  for e in errors do host.warn ((errorJson e).compact ++ "\n")
  if !errors.isEmpty then throw (.dangling errors.length path)
  host.print ("OK: " ++ toString d.definitions.length ++ " definitions\n")

def Command.run (host : Host m) : Command → ExceptT Failure m Unit
  | .normalize task => task.run host
  | .verify path => checkReferences host path

def versionText : String := "xso-normalize 0.1.0\n"

def usageText : String :=
  "Usage: xso-normalize [-v] normalize INPUT -d DICTIONARY [-o OUTPUT] [--config CONFIG]\n" ++
  "         [--report REPORT] [--keep-root-elements] [--no-pure-xml]\n" ++
  "         [--v3-nullable true|false] [--max-depth COUNT] [--format pretty|compact]\n" ++
  "       xso-normalize [-v] verify INPUT\n"

/-- Answers the exit code. -/
def run (host : Host m) (arguments : List String) : m UInt32 := do
  match Command.parse arguments with
  | .error .help => do
    host.print usageText
    return 0
  | .error .version => do
    host.print versionText
    return 0
  | .error (.misuse cause) => do
    host.warn ("error: " ++ cause.message ++ "\n" ++ usageText)
    return 2
  | .ok command => do
    match ← (command.run host).run with
    | .ok _ => return 0
    | .error failure => do
      host.warn failure.text
      return 1

end
end SchemaGraph.CommandLine
