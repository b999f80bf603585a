import SchemaGraph.Document
import SchemaGraph.Schema.References

/- Dangling references: those that mean no node of the definitions, with the places where they
   stand. A document without any is closed. -/
namespace SchemaGraph

namespace Schema

/-- The children with the segments that lead to them: properties, items, `not`, additional
properties, and the members of the three compositions. -/
def placedChildren {α : Type} (c : Children α) : List (List String × α) :=
  let members (keyword : String) (list : Option (List α)) : List (List String × α) :=
    (list.getD []).zipIdx.map fun (value, i) => ([keyword, toString i], value)
  (c.properties.getD []).map (fun (key, value) => (["properties", key], value)) ++
    c.items.toList.map (["items"], ·) ++ c.not.toList.map (["not"], ·) ++
    (c.additional.bind (·.schema?)).toList.map (["additionalProperties"], ·) ++
    members "allOf" c.allOf ++ members "oneOf" c.oneOf ++ members "anyOf" c.anyOf

/-- Every reference in the node and below it with the way back from its node to the root: the
node's own references, those of its mapping, then the children. -/
def placedReferences : Schema → List String → List (Reference × List String) :=
  fold fun k c trail =>
    (k.references false).map (fun o => (o.reference, trail)) ++ k.mappedReferences.map (·, trail) ++
      (placedChildren c).flatMap fun (segments, below) => below (segments.reverse ++ trail)

end Schema

namespace Json

mutual
/-- Every `$ref` in a raw value that reads as a reference, with the way back from its object. -/
def placedReferences (trail : List String) : Json → List (Reference × List String)
  | obj entries =>
    (match Table.get? entries "$ref" with
      | some (str raw) => (Reference.parse? raw).toList.map (·, trail)
      | _ => []) ++ placedInEntries trail entries
  | arr items => placedInItems trail 0 items
  | _ => []

def placedInEntries (trail : List String) : List (String × Json) → List (Reference × List String)
  | [] => []
  | (key, value) :: rest => placedReferences (key :: trail) value ++ placedInEntries trail rest

def placedInItems (trail : List String) (index : Nat) : List Json → List (Reference × List String)
  | [] => []
  | value :: rest =>
    placedReferences (toString index :: trail) value ++ placedInItems trail (index + 1) rest
end

end Json

/-- The error of a reference that means no node. -/
def Definitions.check? (definitions : Definitions) (placed : Reference × List String) :
    Option Error :=
  match definitions.target? placed.1 with
  | some _ => none
  | none => some (.unresolvedReference placed.1.raw (Pointer.render placed.2.reverse))

namespace Document

/-- Every reference of the document with the way back from its place: those of the definitions,
then the raw ones. -/
def placedReferences (d : Document) : List (Reference × List String) :=
  d.definitions.flatMap (fun (name, s) => s.placedReferences (name :: d.flavor.segments.reverse)) ++
    d.raw.flatMap fun (key, value) => value.placedReferences [key]

def danglingReferences (d : Document) : List Error :=
  d.placedReferences.filterMap d.definitions.check?

def Closed (d : Document) : Prop := d.danglingReferences = []

instance (d : Document) : Decidable d.Closed := inferInstanceAs (Decidable (_ = _))

/-- Fails with the first dangling reference. -/
def verify (d : Document) : Except Error Unit :=
  match d.danglingReferences with
  | [] => .ok ()
  | e :: _ => .error e

end Document
end SchemaGraph
