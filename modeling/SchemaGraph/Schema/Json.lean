import SchemaGraph.Schema.Basic
import SchemaGraph.Json.Reading

/- Schemas as JSON. A schema is written with its keywords in one fixed order and its other keys
   sorted after them, and read key by key, so that the first fault in key order is reported. -/
namespace SchemaGraph

namespace Xml
open Json (readText readFlag readTable field? present)

def names : List String := ["namespace", "prefix", "name", "attribute"]

def ofJson : Json → Except Fault Xml
  | .obj entries => do
    let uri ← field? readText entries "namespace"
    let qualifier ← field? readText entries "prefix"
    let name ← field? readText entries "name"
    let attr ← field? readFlag entries "attribute"
    return { uri, qualifier, name, attr, extra := Json.others entries names }
  | _ => .error .malformed

def toJson (x : Xml) : Json :=
  .obj (present "namespace" x.uri .str ++ present "prefix" x.qualifier .str ++
    present "name" x.name .str ++ present "attribute" x.attr .bool ++ x.extra)

end Xml

namespace Discriminator
open Json (readText readFlag readTable field? present)

def ofJson : Json → Except Fault Discriminator
  | .obj entries => do
    let propertyName ← field? readText entries "propertyName"
    let mapping ← field? (readTable readText) entries "mapping"
    return { propertyName, mapping, extra := Json.others entries ["propertyName", "mapping"] }
  | _ => .error .malformed

def toJson (d : Discriminator) : Json :=
  .obj (present "propertyName" d.propertyName .str ++
    present "mapping" d.mapping (fun t => .obj (t.mapValues .str)) ++ d.extra)

end Discriminator

namespace Keywords
open Json (readText readFlag readNat readAny readList readReference readReferenceRecord readOption)

/-- Takes the value of one key; none when the key is no keyword. -/
def read (k : Keywords) (key : String) (value : Json) : Except Fault (Option Keywords) :=
  match key with
  | "$ref" => do return some { k with reference := ← readOption readReference value }
  | "xml" => do return some { k with xml := ← readOption Xml.ofJson value }
  | "description" => do return some { k with description := ← readOption readText value }
  | "type" => do return some { k with type := ← readOption readText value }
  | "format" => do return some { k with format := ← readOption readText value }
  | "default" => do return some { k with default := ← readOption readAny value }
  | "enum" => do return some { k with enum := ← readOption (readList readAny) value }
  | "minimum" => do return some { k with minimum := ← readOption readAny value }
  | "maximum" => do return some { k with maximum := ← readOption readAny value }
  | "exclusiveMinimum" => do return some { k with exclusiveMinimum := ← readOption readAny value }
  | "exclusiveMaximum" => do return some { k with exclusiveMaximum := ← readOption readAny value }
  | "minItems" => do return some { k with minItems := ← readOption readNat value }
  | "maxItems" => do return some { k with maxItems := ← readOption readNat value }
  | "pattern" => do return some { k with pattern := ← readOption readText value }
  | "minLength" => do return some { k with minLength := ← readOption readNat value }
  | "maxLength" => do return some { k with maxLength := ← readOption readNat value }
  | "required" => do return some { k with required := ← readOption (readList readText) value }
  | "nullable" => do return some { k with nullable := ← readOption readFlag value }
  | "x-nullable" => do return some { k with xNullable := ← readOption readFlag value }
  | "x-ibm-whiteSpace" => do return some { k with whiteSpace := ← readOption readAny value }
  | "x-ibm-fractionDigits" => do return some { k with fractionDigits := ← readOption readAny value }
  | "x-ibm-totalDigits" => do return some { k with totalDigits := ← readOption readAny value }
  | "discriminator" => do
    return some { k with discriminator := ← readOption Discriminator.ofJson value }
  | "x-ibm-discriminator" => do return some { k with polymorphic := ← readOption readAny value }
  | "x-xsi-type" => do return some { k with xsiType := ← readOption readText value }
  | "x-xsi-type-xml" => do return some { k with xsiTypeXml := ← readOption Xml.ofJson value }
  | "x-xsi-type-abstract" => do return some { k with xsiTypeAbstract := ← readOption readAny value }
  | "x-xsi-type-uniquename" => do return some { k with uniqueName := ← readOption readText value }
  | "x-ibm-group" => do return some { k with group := ← readOption readAny value }
  | "x-anyType" => do return some { k with anyType := ← readOption readAny value }
  | "x-ibm-complex-restriction" => do
    return some { k with complexRestriction := ← readOption readAny value }
  | "x-ibm-schema" => do return some { k with schemaNote := ← readOption readAny value }
  | "x-ibm-messages" => do return some { k with messages := ← readOption readAny value }
  | "example" => do return some { k with sample := ← readOption readAny value }
  | "typeOf" => do return some { k with typeOf := ← readOption readReferenceRecord value }
  | "forPart" => do return some { k with forPart := ← readOption readAny value }
  | "x-anc-ref" => do return some { k with ancestor := ← readOption readReferenceRecord value }
  | "x-desc-ref" => do
    return some { k with descendants := ← readOption (readList readReferenceRecord) value }
  | _ => .ok none

end Keywords

namespace Schema

mutual
def ofJson : Json → Except Fault Schema
  | .obj entries => ofEntries {} entries
  | _ => .error .malformed

def ofEntries (s : Schema) : List (String × Json) → Except Fault Schema
  | [] => .ok s
  | (key, value) :: rest => do
    let s ← match key with
      | "not" => do let v ← ofOptional value; pure { s with children.not := v }
      | "items" => do let v ← ofOptional value; pure { s with children.items := v }
      | "properties" => do let v ← ofTable? value; pure { s with children.properties := v }
      | "allOf" => do let v ← ofList? value; pure { s with children.allOf := v }
      | "oneOf" => do let v ← ofList? value; pure { s with children.oneOf := v }
      | "anyOf" => do let v ← ofList? value; pure { s with children.anyOf := v }
      | "additionalProperties" => do
        let v ← ofAdditional value; pure { s with children.additional := v }
      | _ => do
        match ← s.keywords.read key value with
        | some keywords => pure { s with keywords }
        | none => pure { s with keywords.extra := s.keywords.extra.putSorted key value }
    ofEntries s rest

def ofOptional : Json → Except Fault (Option Schema)
  | .null => .ok none
  | .obj entries => (ofEntries {} entries).map some
  | _ => .error .malformed

def ofList? : Json → Except Fault (Option (List Schema))
  | .null => .ok none
  | .arr items => (ofList items).map some
  | _ => .error .malformed

def ofList : List Json → Except Fault (List Schema)
  | [] => .ok []
  | value :: rest => do
    let s ← ofJson value
    return s :: (← ofList rest)

def ofTable? : Json → Except Fault (Option (List (String × Schema)))
  | .null => .ok none
  | .obj entries => (ofTable entries).map some
  | _ => .error .malformed

def ofTable : List (String × Json) → Except Fault (List (String × Schema))
  | [] => .ok []
  | (key, value) :: rest => do
    let s ← ofJson value
    return (key, s) :: (← ofTable rest)

/-- A boolean or a schema; whatever is wrong with it, it is just neither of the two. -/
def ofAdditional : Json → Except Fault (Option (Additional Schema))
  | .null => .ok none
  | .bool allowed => .ok (some (.flag allowed))
  | .obj entries =>
    match ofEntries {} entries with
    | .ok s => .ok (some (.schema s))
    | .error _ => .error .malformed
  | _ => .error .malformed
end

def additionalJson : Additional Json → Json
  | .flag allowed => .bool allowed
  | .schema value => value

/-- The entries of a node in their fixed order. -/
def entriesOf (k : Keywords) (c : Children Json) : Table Json :=
  open Json in
  present "not" c.not id ++ present "$ref" k.reference (str ·.raw) ++
  present "xml" k.xml Xml.toJson ++
  present "description" k.description str ++ present "type" k.type str ++
  present "format" k.format str ++ present "default" k.default id ++ present "enum" k.enum arr ++
  present "minimum" k.minimum id ++ present "maximum" k.maximum id ++
  present "exclusiveMinimum" k.exclusiveMinimum id ++
  present "exclusiveMaximum" k.exclusiveMaximum id ++ present "minItems" k.minItems ofNat ++
  present "maxItems" k.maxItems ofNat ++ present "pattern" k.pattern str ++
  present "minLength" k.minLength ofNat ++ present "maxLength" k.maxLength ofNat ++
  present "items" c.items id ++ present "properties" c.properties obj ++
  present "allOf" c.allOf arr ++ present "oneOf" c.oneOf arr ++ present "anyOf" c.anyOf arr ++
  present "additionalProperties" c.additional additionalJson ++
  present "required" k.required ofStrings ++ present "nullable" k.nullable bool ++
  present "x-nullable" k.xNullable bool ++ present "x-ibm-whiteSpace" k.whiteSpace id ++
  present "x-ibm-fractionDigits" k.fractionDigits id ++
  present "x-ibm-totalDigits" k.totalDigits id ++
  present "discriminator" k.discriminator Discriminator.toJson ++
  present "x-ibm-discriminator" k.polymorphic id ++ present "x-xsi-type" k.xsiType str ++
  present "x-xsi-type-xml" k.xsiTypeXml Xml.toJson ++
  present "x-xsi-type-abstract" k.xsiTypeAbstract id ++
  present "x-xsi-type-uniquename" k.uniqueName str ++ present "x-ibm-group" k.group id ++
  present "x-anyType" k.anyType id ++ present "x-ibm-complex-restriction" k.complexRestriction id ++
  present "x-ibm-schema" k.schemaNote id ++ present "x-ibm-messages" k.messages id ++
  present "example" k.sample id ++ present "typeOf" k.typeOf ofReferenceRecord ++
  present "forPart" k.forPart id ++ present "x-anc-ref" k.ancestor ofReferenceRecord ++
  present "x-desc-ref" k.descendants (fun l => arr (l.map ofReferenceRecord)) ++ k.extra

def toJson : Schema → Json := fold fun k c => .obj (entriesOf k c)

end Schema

namespace Definitions

def ofJson : Json → Except Fault Definitions
  | .obj entries => Schema.ofTable entries
  | _ => .error .malformed

def toJson (definitions : Definitions) : Json := .obj (definitions.mapValues Schema.toJson)

end Definitions
end SchemaGraph
