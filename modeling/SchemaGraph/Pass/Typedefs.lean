import SchemaGraph.Renaming
import SchemaGraph.Pass.Basic

/- Cleaning up type definitions: the references that only guided the generation go, and a typedef is
   folded into the type of the same name, or takes that name when it is free. -/
namespace SchemaGraph.Typedefs

def typedefMarker : List Char := "_typedef_".toList

def typeMarker : List Char := "_type_".toList

def hasMarker : List Char → Bool
  | [] => false
  | c :: rest => typedefMarker.isPrefixOf (c :: rest) || hasMarker rest

/-- Replaces the first marker. -/
def replaceMarker : List Char → List Char
  | [] => []
  | c :: rest =>
    if typedefMarker.isPrefixOf (c :: rest) then
      typeMarker ++ (c :: rest).drop typedefMarker.length
    else c :: replaceMarker rest

def isTypedef (name : String) : Bool := hasMarker name.toList

/-- The name of the type that a typedef stands for. -/
def typeName (name : String) : String := String.ofList (replaceMarker name.toList)

def strip (_ : Position) (s : Schema) : Schema :=
  { s with
    keywords.ancestor := none
    keywords.descendants := none
    keywords.uniqueName := s.keywords.uniqueName.map typeName }

/-- The members of a definition that is a union with a discriminator. -/
def unionMembers (s : Schema) : List String :=
  if s.keywords.discriminator.isSome then
    (s.children.oneOf.getD []).filterMap fun member => member.keywords.reference.map (·.name)
  else []

/-- A typedef is folded into a type of the same nullability that is no union. -/
def canReplace (type typedef : Schema) : Bool :=
  type.isNullable == typedef.isNullable && type.keywords.discriminator.isNone

/-- The typedefs that lose their names, and the names of their types. Members of unions keep their
names. -/
def renames (fixed : List String) (definitions : Definitions) : Renaming :=
  definitions.filterMap fun (name, s) =>
    if !isTypedef name || fixed.contains name then none
    else
      let type := typeName name
      match definitions.get? type with
      | some target => if canReplace target s then some (name, type) else none
      | none => some (name, type)

/-- Removes a typedef and adds it under the name of its type when that is free. -/
def settle (state : Definitions × Report) (entry : String × String) : Definitions × Report :=
  let (definitions, report) := state
  match definitions.get? entry.1 with
  | none => state
  | some s =>
    let definitions := definitions.erase entry.1
    let removed := report.removed ++ [entry.1]
    if definitions.has entry.2 then (definitions, { report with removed })
    else
      (definitions ++ [(entry.2, s)],
        { report with removed, created := report.created ++ [entry.2] })

def run (d : Document) : Outcome :=
  let fixed := d.definitions.values.flatMap unionMembers
  let d := d.changeAfter strip
  let renames := renames fixed d.definitions
  let (definitions, report) := renames.foldl settle (d.definitions, {})
  (Document.rename { d with definitions } renames, .ok report)

end SchemaGraph.Typedefs
