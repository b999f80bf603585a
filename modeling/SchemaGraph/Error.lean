import SchemaGraph.Json.Basic

/- What can go wrong, as causes; the wording stands in one place. -/
namespace SchemaGraph

/-- Why a JSON value is not accepted. -/
inductive Fault where
  /-- Not JSON at all, or a value of the wrong shape. -/
  | malformed
  | rootNotObject
  | reference (raw : String)
  deriving DecidableEq, Repr

namespace Fault

def invalidReference (raw : String) : String :=
  "Invalid $ref " ++ raw ++ ": expected #/definitions/<name> or #/components/schemas/<name>"

/-- No wording is fixed for malformed JSON. -/
def message? : Fault → Option String
  | malformed => none
  | rootNotObject => some "document root must be a JSON object"
  | reference raw => some (invalidReference raw)

end Fault

inductive Error where
  | unreadable (fault : Fault)
  | unresolvedReference (raw location : String)
  | invalidReference (raw : String)
  | depthExceeded (location : String) (max : Nat)
  /-- An optional change that cannot be made; the only error that a run survives. -/
  | unexpectedTransform (stage message : String)
  deriving DecidableEq, Repr

namespace Error

def message? : Error → Option String
  | unreadable fault => fault.message?.map ("JSON (de)serialization error: " ++ ·)
  | unresolvedReference raw location =>
    some ("The reference " ++ raw ++ " does not exist (at " ++ location ++ ")")
  | invalidReference raw => some (Fault.invalidReference raw)
  | depthExceeded location max =>
    some ("Chain depth exceeded at " ++ location ++ " (max: " ++ toString max ++ ")")
  | unexpectedTransform stage message =>
    some ("An unexpected error (" ++ message ++ ") occurred while constructing the '" ++ stage ++
      "'")

def code : Error → String
  | unreadable _ => "json_parse_error"
  | unresolvedReference _ _ => "unresolved_ref"
  | invalidReference _ => "invalid_ref"
  | depthExceeded _ _ => "depth_exceeded"
  | unexpectedTransform _ _ => "unexpected_transform"

def location? : Error → Option String
  | unresolvedReference _ location => some location
  | depthExceeded location _ => some location
  | _ => none

/-- The messages of the error and of what lies behind it. -/
def causes (e : Error) : List String :=
  match e with
  | unreadable fault => e.message?.toList ++ fault.message?.toList
  | _ => e.message?.toList

def isRecoverable : Error → Bool
  | unexpectedTransform _ _ => true
  | _ => false

end Error
end SchemaGraph
