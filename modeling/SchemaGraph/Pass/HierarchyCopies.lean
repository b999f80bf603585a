import SchemaGraph.Renaming
import SchemaGraph.Dictionary
import SchemaGraph.Hierarchy
import SchemaGraph.Options
import SchemaGraph.Pass.Basic

/- Copying hierarchies for root elements. An element that stands for a type needs the extensions and
   the bases of that type under its own XML annotation, so that the choice among them can be made in
   its namespace. Where that would take too many copies, elements are replaced by their types. -/
namespace SchemaGraph.HierarchyCopies

/-- The number of copies for replaceable elements above which the elements are replaced. -/
def threshold : Nat := 75

def stage : String := "element optimization map"

/-- The name of a copy and of the definition that it extends. -/
structure Copy where
  name : String
  base : String
  deriving DecidableEq, Repr

def copySuffix (root : String) : String := "_for_" ++ root

/-- The copies of all extensions of `base`, to extend `newBase`; extensions of extensions are looked
for over at most `depth` levels. -/
def plan (subtypes : Table (List String)) (root : String) :
    Nat → String → String → Table Copy → Table Copy
  | 0, _, _, copies => copies
  | depth + 1, base, newBase, copies =>
    ((subtypes.get? base).getD []).foldl (fun copies subtype =>
      let name := subtype ++ copySuffix root
      plan subtypes root depth subtype name (copies.put subtype ⟨name, newBase⟩)) copies

/-- The plans of the definitions that were generated for another one. -/
def plans (definitions : Definitions) (maxDepth : Nat) : Table (Table Copy) :=
  let subtypes := definitions.subtypes
  definitions.filterMap fun (name, s) =>
    match s.keywords.uniqueName with
    | some type =>
      if type = name then none else some (name, plan subtypes name maxDepth type name [])
    | none => none

/-- The type that the dictionary lets an element be replaced by: the type is another name for a
known one, and nothing prevents the replacement. -/
def replacementType? (dictionary : Dictionary) (element : String) : Option String := do
  let entry ← dictionary.entryOf? element
  if entry.kind ≠ some .element then none
  let type ← entry.typeName
  let typeEntry ← dictionary.entryOf? type
  if typeEntry.schemaType ≠ some "typeOf" then none
  let defined ← typeEntry.typeName
  let _ ← dictionary.entryOf? defined
  if entry.preventOptimize then none else some type

/-- Whether an element is to be replaced, and by what: it is in the namespace of its type and takes
part in a hierarchy. An element that has no XML annotation cannot be judged. -/
def replacement? (dictionary : Dictionary) (maxDepth : Nat) (definitions : Definitions)
    (usage : Table Usage) (name : String) (s : Schema) : Except Error (Option String) :=
  match replacementType? dictionary name with
  | none => .ok none
  | some type =>
    match (definitions.get? type).bind (·.keywords.xml), s.keywords.xml with
    | none, _ => .ok none
    | some _, none => .error (.unexpectedTransform stage ("element " ++ name ++ " has no xml"))
    | some typeXml, some xml =>
      if xml.uri = typeXml.uri ∧
          definitions.inHierarchy name (definitions.ancestors name maxDepth) usage then
        .ok (some type)
      else .ok none

def replacements (dictionary : Dictionary) (maxDepth : Nat) (definitions : Definitions) :
    Except Error Renaming :=
  let usage := definitions.usage
  definitions.foldlM (fun t (name, s) => do
    match ← replacement? dictionary maxDepth definitions usage name s with
    | some type => return t.put name type
    | none => return t) []

/-- The copies that the elements would take. -/
def copiesFor (plans : Table (Table Copy)) (definitions : Definitions) (maxDepth : Nat)
    (elements : List String) : Nat :=
  elements.foldl (fun n element =>
    match plans.get? element with
    | some copies => n + copies.length + (definitions.ancestors element maxDepth).length
    | none => n) 0

/-- Replaces the elements by their types. -/
def replaceElements (elements : Renaming) (d : Document) : Document × List String :=
  let d := d.rename elements
  let removed := elements.keys.filter d.definitions.has
  ({ d with definitions := removed.foldl Table.erase d.definitions }, removed)

/-- The definitions with the copies that were added. -/
abbrev Progress := Definitions × List String

/-- Adds a copy under a name that is still free. -/
def addCopy (state : Progress) (name : String) (copy : Schema) : Progress :=
  if state.1.has name then state else (state.1 ++ [(name, copy)], state.2 ++ [name])

/-- Copies one extension; elements are not copied. -/
def copySubtype (dictionary : Dictionary) (xml : Option Xml) (state : Progress)
    (entry : String × Copy) : Progress :=
  if dictionary.isKind entry.1 .element then state else
  match state.1.get? entry.1 with
  | none => state
  | some s =>
    let copy := s.mapBase (·.renamed entry.2.base)
    addCopy state entry.2.name
      { copy with keywords.xml := xml, keywords.uniqueName := some entry.2.name }

/-- Copies the bases, nearest first; each copy extends the copy of the next base, the last one what
it extended before. -/
def copyAncestors (xml : Option Xml) (suffix : String) : List Reference → Progress → Progress
  | [], state => state
  | ancestor :: rest, state =>
    let state := match state.1.get? ancestor.name with
      | none => state
      | some s =>
        let copy := if rest.isEmpty then s else s.mapBase (·.withSuffix suffix)
        addCopy state (ancestor.name ++ suffix)
          { copy with
            keywords.xml := xml
            keywords.uniqueName := copy.keywords.uniqueName.map (· ++ suffix) }
    copyAncestors xml suffix rest state

/-- Copies the hierarchy of one root and lets the root extend the copy of its base. -/
def copyHierarchy (dictionary : Dictionary) (plans : Table (Table Copy)) (maxDepth : Nat)
    (state : Progress) (root : String) : Progress :=
  match plans.get? root, state.1.get? root with
  | some copies, some s =>
    let xml := s.keywords.xml
    let state := copies.foldl (copySubtype dictionary xml) state
    let suffix := copySuffix root
    let ancestors := state.1.ancestors root maxDepth
    let (definitions, created) := copyAncestors xml suffix ancestors state
    if ancestors.isEmpty then (definitions, created)
    else (definitions.modify root (Schema.mapBase (·.withSuffix suffix)), created)
  | _, _ => state

def run (dictionary : Dictionary) (options : Options) (d : Document) : Outcome :=
  let maxDepth := options.maxDepth
  let (elements, warnings) : Renaming × List Warning :=
    match replacements dictionary maxDepth d.definitions with
    | .ok elements => (elements, [])
    | .error (.unexpectedTransform stage message) => ([], [⟨stage, message⟩])
    | .error _ => ([], [])
  let plans := plans d.definitions maxDepth
  let (d, removed) :=
    if threshold < copiesFor plans d.definitions maxDepth elements.keys then
      replaceElements elements d
    else (d, [])
  let (definitions, created) :=
    d.definitions.keys.foldl (copyHierarchy dictionary plans maxDepth) (d.definitions, [])
  ({ d with definitions }, .ok { warnings, created, removed })

end SchemaGraph.HierarchyCopies
