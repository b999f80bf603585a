import SchemaGraph.Pass.Basic
import SchemaGraph.Hierarchy
import SchemaGraph.Options

/- Splitting definitions that are referenced both nillable and not. The sites that allow nil say so
   with `x-nullable`; that mark moves into the definition, or into a copy of it when other sites do
   not allow nil. Bases and extensions follow: a nillable definition makes both nillable. -/
namespace SchemaGraph.NilSplit

def suffix : String := "_nil"

/-- A definition and the path to a node inside it. -/
abbrev Site := String × List String

/-- What the sites ask for; names in the order in which they were found. -/
structure Demand where
  nillable : List String := []
  plain : List String := []
  sites : List Site := []

def insertNew (names : List String) (name : String) : List String :=
  if names.contains name then names else names ++ [name]

/-- Takes the mark from a site and notes what it asks for. Members of `allOf` ask for nothing. -/
def collect (_ : Definitions) (p : Position) (s : Schema) :
    ExceptT Error (StateM Demand) Schema := do
  match s.keywords.reference with
  | none => return s
  | some r =>
    if p.parentKey? = some "allOf" then return s
    if s.keywords.xNullable = some true then
      modify fun d : Demand =>
        { d with
          nillable := insertNew d.nillable r.name
          sites := (p.definition, p.trail) :: d.sites }
      return { s with keywords.xNullable := none }
    modify fun d : Demand => { d with plain := insertNew d.plain r.name }
    return s

/-- The direct extensions and the ancestors of a definition. -/
def related (definitions : Definitions) (subtypes : Table (List String)) (maxDepth : Nat)
    (name : String) : List String :=
  (subtypes.get? name).getD [] ++ (definitions.ancestors name maxDepth).map (·.name)

def spreadOnce (related : String → List String) (names : List String) : List String :=
  names.foldl (fun found name => (related name).foldl insertNew found) names

def spreadWithin (related : String → List String) : Nat → List String → List String
  | 0, names => names
  | rounds + 1, names =>
    let next := spreadOnce related names
    if next.length = names.length then names else spreadWithin related rounds next

/-- Closes the names under their relations. Every round but the last adds a name, and only names of
definitions and of bases can be added. -/
def spread (definitions : Definitions) (maxDepth : Nat) (names : List String) : List String :=
  spreadWithin (related definitions definitions.subtypes maxDepth) (2 * definitions.length + 1)
    names

/-- Points the nillable sites of split definitions at the copies. -/
def repoint (split : List String) (sites : List Site) (p : Position) (s : Schema) : Schema :=
  match s.keywords.reference with
  | some r =>
    if split.contains r.name && sites.contains (p.definition, p.trail) then
      { s with keywords.reference := some (r.withSuffix suffix) }
    else s
  | none => s

/-- The nillable copy of a definition; a copy that extends something with content of its own extends
the nillable copy of that. -/
def nillableCopy (name : String) (hasAncestors : Bool) (s : Schema) : Schema :=
  let hasContent := s.children.allOf.any fun members => 1 < members.length
  let s := if hasAncestors && hasContent then s.mapBase (·.withSuffix suffix) else s
  let uniqueName := match s.keywords.uniqueName with
    | some unique => unique ++ suffix
    | none => name ++ suffix
  { s with keywords.uniqueName := some uniqueName, keywords.xNullable := some true }

def mark (nullable : Option Bool) (s : Schema) : Schema := { s with keywords.xNullable := nullable }

/-- Marks the definitions that only nillable sites use, and copies the split ones. -/
def markAll (flavor : Flavor) (maxDepth : Nat) (split : List String) :
    List String → Definitions → List String → Definitions × Except Error (List String)
  | [], definitions, created => (definitions, .ok created)
  | name :: rest, definitions, created =>
    match definitions.get? name with
    | none =>
      (definitions, .error (.unresolvedReference (Reference.toDefinition name flavor).raw
        (flavor.definitionPointer name)))
    | some s =>
      if !split.contains name then
        markAll flavor maxDepth split rest (definitions.put name (mark (some true) s)) created
      else
        let hasAncestors := !(definitions.ancestors name maxDepth).isEmpty
        let copy := nillableCopy name hasAncestors s
        let plain := if s.keywords.xNullable = some true then mark none s else s
        let definitions := (definitions.put name plain).put (name ++ suffix) copy
        markAll flavor maxDepth split rest definitions (created ++ [name ++ suffix])

def run (options : Options) (d : Document) : Outcome :=
  let ((d, result), demand) := (d.walkAfterM collect).run {}
  match result with
  | .error e => (d, .error e)
  | .ok _ =>
    let nillable := spread d.definitions options.maxDepth demand.nillable
    let plain := spread d.definitions options.maxDepth demand.plain
    let split := nillable.filter plain.contains
    let d := d.changeAfter (repoint split demand.sites)
    let (definitions, created) :=
      markAll d.flavor options.maxDepth split nillable d.definitions []
    ({ d with definitions }, created.map fun created => { created })

end SchemaGraph.NilSplit
