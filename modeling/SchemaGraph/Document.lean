import SchemaGraph.Schema.Json

/- Documents: the named schemas lifted into a typed graph, everything else as it was written. While
   the schemas are lifted their slot in the raw part holds `null`, so that it keeps its place. -/
namespace SchemaGraph

structure Document where
  raw : Table Json
  flavor : Flavor
  /-- Whether the document had a slot for named schemas. -/
  hasSlot : Bool
  definitions : Definitions

namespace Document

/-- The slot below `components`, if both are there. -/
def componentSchemas? (raw : Table Json) : Option (Table Json × Json) := do
  let components ← (← raw.get? "components").entries?
  let schemas ← components.get? "schemas"
  return (components, schemas)

/-- A slot `definitions` goes before one in `components`. -/
def ofJson : Json → Except Fault Document
  | .obj raw =>
    match Table.get? raw "definitions" with
    | some slot => do
      let definitions ← Definitions.ofJson slot
      return ⟨Table.put raw "definitions" .null, .definitions, true, definitions⟩
    | none =>
      match componentSchemas? raw with
      | some (components, slot) => do
        let definitions ← Definitions.ofJson slot
        let components := Json.obj (components.put "schemas" .null)
        return ⟨Table.put raw "components" components, .components, true, definitions⟩
      | none => return ⟨raw, .definitions, false, []⟩
  | _ => .error .rootNotObject

/-- Fills the slot again; a document without a slot gets one when it has definitions. -/
def toJson (d : Document) : Json :=
  if d.hasSlot || !d.definitions.isEmpty then
    let schemas := Definitions.toJson d.definitions
    match d.flavor with
    | .definitions => .obj (d.raw.put "definitions" schemas)
    | .components =>
      match d.raw.get? "components" with
      | none => .obj (d.raw.put "components" (.obj [("schemas", schemas)]))
      | some (.obj components) =>
        .obj (d.raw.put "components" (.obj (Table.put components "schemas" schemas)))
      | some _ => .obj d.raw
  else .obj d.raw

def paths? (d : Document) : Option Json := d.raw.get? "paths"

def reference (d : Document) (name : String) : Reference := .toDefinition name d.flavor

end Document
end SchemaGraph
