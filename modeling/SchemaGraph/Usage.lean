import SchemaGraph.Schema.References

/- How often definitions are referenced, in schemas and in raw JSON. -/
namespace SchemaGraph

structure Usage where
  count : Nat := 0
  /-- The occurrences as the base of an extension. -/
  structural : Nat := 0
  deriving DecidableEq, Repr

namespace Usage

/-- The occurrences where the definition is used as a value. -/
def substitutable (u : Usage) : Nat := u.count - u.structural

def record (u : Usage) (structural : Bool) : Usage :=
  ⟨u.count + 1, u.structural + if structural then 1 else 0⟩

/-- The usage of each definition, in the order in which the definitions first occur. -/
def tally (occurrences : List Occurrence) : Table Usage :=
  occurrences.foldl (fun t o =>
    t.put o.reference.name (((t.get? o.reference.name).getD {}).record o.structural)) []

end Usage

def Schema.usage (s : Schema) : Table Usage := Usage.tally s.occurrences

def Definitions.usage (definitions : Definitions) : Table Usage :=
  Usage.tally (definitions.values.flatMap Schema.occurrences)

namespace Json

/-- The text under `$ref`, if it is text. -/
def referenceText? (entries : Table Json) : Option String :=
  match entries.get? "$ref" with
  | some (.str raw) => some raw
  | _ => none

/-- The occurrence that a text makes; other pointers make none. -/
def occurrence? (raw : Option String) (structural : Bool) : List Occurrence :=
  (raw.bind Reference.parse?).toList.map (⟨·, structural⟩)

mutual
/-- Every occurrence in a raw value: the `$ref` of an object before those below it. -/
def occurrencesAt (structural : Bool) : Json → List Occurrence
  | obj entries => occurrence? (referenceText? entries) structural ++ occurrencesInEntries entries
  | arr items => occurrencesInItems items
  | _ => []

def occurrencesInEntries : List (String × Json) → List Occurrence
  | [] => []
  | (key, value) :: rest =>
    (if key = "$ref" then []
      else match value with
        | arr items =>
          if key = "allOf" then occurrencesInMembers items else occurrencesInItems items
        | value => occurrencesAt false value) ++
      occurrencesInEntries rest

def occurrencesInItems : List Json → List Occurrence
  | [] => []
  | value :: rest => occurrencesAt false value ++ occurrencesInItems rest

/-- The first member of an `allOf` is structural. -/
def occurrencesInMembers : List Json → List Occurrence
  | [] => []
  | value :: rest => occurrencesAt true value ++ occurrencesInItems rest
end

def occurrences (value : Json) : List Occurrence := occurrencesAt false value

def usage (value : Json) : Table Usage := Usage.tally value.occurrences

end Json
end SchemaGraph
