import SchemaGraph.Document
import SchemaGraph.Schema.References

/- Pointing references at other definitions, throughout a document. -/
namespace SchemaGraph

/-- New names of definitions; all of them are given at once, and none is looked up again. -/
abbrev Renaming := Table String

def Renaming.apply? (names : Renaming) (r : Reference) : Option Reference :=
  (names.get? r.name).map r.renamed

namespace Json

def redirectMappingValue (f : Reference → Option Reference) : Json → Json
  | str raw => str (Keywords.redirectText f raw)
  | value => value

mutual
/-- Redirects the text under every `$ref`, and the values of a discriminator's mapping. -/
def redirect (f : Reference → Option Reference) (inDiscriminator : Bool) : Json → Json
  | obj entries => obj (redirectEntries f inDiscriminator entries)
  | arr items => arr (redirectItems f items)
  | value => value

def redirectEntries (f : Reference → Option Reference) (inDiscriminator : Bool) :
    List (String × Json) → List (String × Json)
  | [] => []
  | (key, value) :: rest =>
    (key, match value with
      | str raw => if key = "$ref" then str (Keywords.redirectText f raw) else str raw
      | obj entries =>
        if key = "mapping" ∧ inDiscriminator then
          obj (Table.mapValues (redirectMappingValue f) entries)
        else obj (redirectEntries f (key == "discriminator") entries)
      | arr items => arr (redirectItems f items)
      | value => value) :: redirectEntries f inDiscriminator rest

def redirectItems (f : Reference → Option Reference) : List Json → List Json
  | [] => []
  | value :: rest => redirect f false value :: redirectItems f rest
end

end Json

def Definitions.rename (definitions : Definitions) (names : Renaming) : Definitions :=
  definitions.mapValues (Schema.redirect names.apply?)

/-- Renames in the definitions and in the raw part; the names of the definitions stay. -/
def Document.rename (d : Document) (names : Renaming) : Document :=
  { d with
    definitions := d.definitions.rename names
    raw := d.raw.mapValues (Json.redirect names.apply? false) }

end SchemaGraph
