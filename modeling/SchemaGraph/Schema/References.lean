import SchemaGraph.Schema.Basic

/- The references inside a schema: listing them and redirecting them. A reference that is the first
   `allOf` member is structural: it names the base that the node extends. -/
namespace SchemaGraph

/-- An occurrence of a reference. -/
structure Occurrence where
  reference : Reference
  structural : Bool
  deriving DecidableEq, Repr

namespace Keywords

/-- The references of the node itself, without the values of its discriminator mapping. -/
def references (k : Keywords) (structural : Bool) : List Occurrence :=
  k.reference.toList.map (⟨·, structural⟩) ++ k.typeOf.toList.map (⟨·, false⟩) ++
    k.ancestor.toList.map (⟨·, false⟩) ++ (k.descendants.getD []).map (⟨·, false⟩)

/-- The values of the discriminator mapping that read as references. -/
def mappedReferences (k : Keywords) : List Reference :=
  (((k.discriminator.bind (·.mapping)).getD []).values).filterMap Reference.parse?

/-- Redirects the text of a reference; other text stays. -/
def redirectText (f : Reference → Option Reference) (raw : String) : String :=
  match (Reference.parse? raw).bind f with
  | some replacement => replacement.raw
  | none => raw

def redirect (f : Reference → Option Reference) (k : Keywords) : Keywords :=
  let target (r : Reference) : Reference := (f r).getD r
  { k with
    reference := k.reference.map target
    typeOf := k.typeOf.map target
    ancestor := k.ancestor.map target
    descendants := k.descendants.map (List.map target)
    discriminator := k.discriminator.map fun d =>
      { d with mapping := d.mapping.map (Table.mapValues (redirectText f)) } }

end Keywords

namespace Schema

/-- The occurrences below a node by their place: `not`, items, additional properties, properties,
and the members of the three compositions. -/
def childOccurrences (c : Children (Bool → List Occurrence)) : List Occurrence :=
  let plain (list : List (Bool → List Occurrence)) : List Occurrence := list.flatMap (· false)
  plain c.not.toList ++ plain c.items.toList ++ plain (c.additional.bind (·.schema?)).toList ++
    plain (c.properties.map Table.values |>.getD []) ++
    (match c.allOf with
      | some (first :: rest) => first true ++ plain rest
      | _ => []) ++
    plain (c.oneOf.getD []) ++ plain (c.anyOf.getD [])

/-- Every occurrence in the node and below it, given whether the node is a first `allOf` member. -/
def occurrencesAt : Schema → Bool → List Occurrence :=
  fold fun k c structural => k.references structural ++ childOccurrences c

def occurrences (s : Schema) : List Occurrence := s.occurrencesAt false

/-- Redirects every reference and every mapping value that reads as one. -/
def redirect (f : Reference → Option Reference) : Schema → Schema :=
  fold fun k c => ⟨k.redirect f, c⟩

end Schema
end SchemaGraph
