import SchemaGraph.Json.Reading
import SchemaGraph.Json.Written
import SchemaGraph.Json.Printer

/- What is known of the definitions besides their schemas: what construct each was generated from,
   and the options of the generation. -/
namespace SchemaGraph

inductive Kind where
  | element
  | attr
  | type
  | typedef
  | other
  deriving DecidableEq, Repr

namespace Kind

/-- A text that is no known kind means `other`. -/
def ofText : String → Kind
  | "element" => element
  | "attribute" => attr
  | "type" => type
  | "typedef" => typedef
  | _ => other

def label : Kind → String
  | element => "element"
  | attr => "attribute"
  | type => "type"
  | typedef => "typedef"
  | other => "other"

/-- A text, or an object whose only key is the text and holds `null`. -/
def ofJson : Json → Except Fault Kind
  | .str text => .ok (ofText text)
  | .obj [(text, .null)] => .ok (ofText text)
  | _ => .error .malformed

end Kind

structure Entry where
  kind : Option Kind := none
  /-- The definition of the entry's type. -/
  typeName : Option String := none
  schemaType : Option String := none
  preventOptimize : Bool := false
  suppressXsiType : Bool := false
  deriving DecidableEq, Repr

namespace Entry
open Json (readText readFlag field? fieldD present)

def names : List String :=
  ["for", "typeNSName", "schemaType", "preventOptimize", "suppressXSIType"]

def ofJson (value : Json) : Except Fault Entry := do
  let fields ← value.record names
  return {
    kind := ← field? Kind.ofJson fields "for"
    typeName := ← field? readText fields "typeNSName"
    schemaType := ← field? readText fields "schemaType"
    preventOptimize := ← fieldD readFlag fields "preventOptimize" false
    suppressXsiType := ← fieldD readFlag fields "suppressXSIType" false }

def toJson (e : Entry) : Json :=
  .obj (present "for" e.kind (.str ·.label) ++ present "typeNSName" e.typeName .str ++
    present "schemaType" e.schemaType .str ++
    [("preventOptimize", .bool e.preventOptimize), ("suppressXSIType", .bool e.suppressXsiType)])

end Entry

structure Dictionary where
  entries : Table Entry := []
  /-- Whether choices among extensions are written out as unions with a discriminator. -/
  unions : Bool := false
  /-- The request that the generation served. -/
  request : Option Json := none

namespace Dictionary
open Json (readFlag readAny readTable field? fieldD present mergeKeys)

def optionNames : List String := ["v3discriminator", "req"]

def readOptions (value : Json) : Except Fault (Bool × Option Json) := do
  let fields ← value.record optionNames
  let unions ← fieldD readFlag fields "v3discriminator" false
  let request ← field? readAny fields "req"
  return (unions, request.map mergeKeys)

def names : List String := ["dictEntry", "createOptions"]

/-- What is read of a dictionary. -/
def selection : Selection :=
  .record [("dictEntry", .entries (.ofNames Entry.names)), ("createOptions", .ofNames optionNames)]

def ofJson (value : Json) : Except Fault Dictionary := do
  let fields ← value.record names
  let entries ← fieldD (readTable Entry.ofJson) fields "dictEntry" []
  let (unions, request) ← fieldD readOptions fields "createOptions" (false, none)
  return { entries := Table.ofList entries, unions, request }

def optionsJson (d : Dictionary) : Json :=
  .obj (("v3discriminator", .bool d.unions) :: present "req" d.request id)

def entryOf? (d : Dictionary) (name : String) : Option Entry := d.entries.get? name

def isKind (d : Dictionary) (name : String) (kind : Kind) : Bool :=
  (d.entryOf? name).bind (·.kind) == some kind

/-- The request as text, a string without its quotes. -/
def requestLabel (d : Dictionary) : String :=
  match d.request with
  | none => ""
  | some .null => ""
  | some (.str text) => text
  | some other => other.compact

end Dictionary
end SchemaGraph
