import SchemaGraph.Pass.Basic
import SchemaGraph.Dictionary
import SchemaGraph.Hierarchy
import SchemaGraph.Options

/- Expanding `typeOf`: a node whose shape is that of another definition gets a copy of it. Where the
   dictionary asks for unions, a polymorphic shape becomes a `oneOf` of the definition and its
   extensions, with a discriminator that says which name selects which. -/
namespace SchemaGraph.TypeExpansion

/-- The property that a union's discriminator announces. -/
def discriminatorProperty : String := "x-ibm-discriminator"

/-- Where a chain of shapes ends, with the first extension list on the way. -/
structure Shape where
  reference : Reference
  target : Schema
  descendants : Option (List Reference)

/-- Follows the chain over at most `depth` further links. -/
def follow (graph : Definitions) (location : String) (max : Nat) :
    Nat → Shape → Except Error Shape
  | 0, shape =>
    match shape.target.keywords.typeOf with
    | none => .ok shape
    | some _ => .error (.depthExceeded location max)
  | depth + 1, shape =>
    match shape.target.keywords.typeOf with
    | none => .ok shape
    | some next => do
      let target ← graph.resolve next location
      let descendants := shape.descendants.or target.keywords.descendants
      follow graph location max depth ⟨next, target, descendants⟩

/-- Drops what the type of a node says about its name and its extensions. -/
def withoutXsiType (k : Keywords) : Keywords :=
  { k with
    polymorphic := none, xsiType := none, xsiTypeXml := none, uniqueName := none,
    xsiTypeAbstract := none }

/-- The part after the last closing brace, when there is one. -/
def localName? (name : List Char) : Option (List Char) :=
  if name.contains '\x7d' then
    some ((name.reverse.takeWhile (· != '\x7d')).reverse)
  else none

/-- The names that select a member: its type's name, the local part of that, the reference as
written and the definition's name. The first member is selected by the empty name too. -/
def memberNames (isFirst : Bool) (member : Reference) (xsiType : String) : List String :=
  (if isFirst then [""] else []) ++ [xsiType] ++
    ((localName? xsiType.toList).map String.ofList).toList ++ [member.raw, member.name]

/-- The mapping of a union; a member with an abstract type or none is selected by no name. -/
def mapping (graph : Definitions) (location : String) :
    Bool → Table String → List Reference → Except Error (Table String)
  | _, t, [] => .ok t
  | isFirst, t, member :: rest => do
    let target ← graph.resolve member location
    let names := match target.xsiTypeName? with
      | some xsiType => memberNames isFirst member xsiType
      | none => []
    mapping graph location false (names.foldl (fun t name => t.put name member.raw) t) rest

def asUnion (s : Schema) (members : List Reference) (mapping : Table String) : Schema :=
  { s with
    children.oneOf := some (members.map Schema.ofReference)
    children.allOf := none
    children.anyOf := none
    children.properties := none
    keywords.type := none
    keywords.ancestor := none
    keywords.descendants := none
    keywords.discriminator :=
      some { propertyName := some discriminatorProperty, mapping := some mapping } }

/-- A copy of the target with the node's own XML annotation, sample and extension references. -/
def copyShape (s target : Schema) : Schema :=
  let k := target.keywords
  let xml := (s.keywords.xml.or k.xml).map fun x =>
    if x.attr = some true then x else { x with attr := none }
  let copy : Schema :=
    { target with
      keywords.xml := xml
      keywords.sample := s.keywords.sample.or k.sample
      keywords.ancestor := s.keywords.ancestor.or k.ancestor
      keywords.descendants := s.keywords.descendants.or k.descendants }
  match copy.keywords.ancestor with
  | some base => copy.mapBase fun _ => base
  | none => copy

/-- What the use of a shape leaves of its type's name: nothing on attributes, message parts and
where the dictionary suppresses it; the node's own name where the shape was asked of a typedef. -/
def adaptNames (dictionary : Dictionary) (definition : String) (typeOf : Reference)
    (isPart : Bool) (s : Schema) : Schema :=
  let suppressed := (dictionary.entryOf? definition).any (·.suppressXsiType)
  let s : Schema :=
    if s.isAttribute || isPart || suppressed then { s with keywords := withoutXsiType s.keywords }
    else s
  if s.keywords.uniqueName.isSome && dictionary.isKind typeOf.name .typedef then
    { s with keywords.uniqueName := some definition }
  else s

def expand (dictionary : Dictionary) (maxDepth : Nat) (graph : Definitions) (p : Position)
    (s : Schema) (typeOf : Reference) : Except Error Schema := do
  let location := p.location
  let first ← graph.resolve typeOf location
  let descendants := s.keywords.descendants.or first.keywords.descendants
  let shape ← follow graph location maxDepth maxDepth ⟨typeOf, first, descendants⟩
  let isPart := s.keywords.forPart.any Json.isTruthy
  let copy := adaptNames dictionary p.definition typeOf isPart (copyShape s shape.target)
  if dictionary.unions && copy.keywords.polymorphic.any Json.isTruthy then
    let members := shape.reference :: shape.descendants.getD []
    return asUnion copy members (← mapping graph location true [] members)
  else return copy

/-- Notes in the state that something was expanded. -/
def after (dictionary : Dictionary) (maxDepth : Nat) (graph : Definitions) (p : Position)
    (s : Schema) : ExceptT Error (StateM Bool) Schema := do
  match s.keywords.typeOf with
  | none => return s
  | some typeOf =>
    let expanded ← expand dictionary maxDepth graph p s typeOf
    set true
    return expanded

/-- Copies may hold `typeOf` again; walks until nothing is left, over at most `rounds` further
rounds that expand something. -/
def expandAll (dictionary : Dictionary) (maxDepth : Nat) :
    Nat → Document → Document × Except Error Unit
  | rounds, d =>
    let ((d, result), expanded) := (d.walkAfterM (after dictionary maxDepth)).run false
    match result, expanded, rounds with
    | .error e, _, _ => (d, .error e)
    | .ok _, false, _ => (d, .ok ())
    | .ok _, true, 0 => (d, .error (.depthExceeded d.flavor.root maxDepth))
    | .ok _, true, rounds + 1 => expandAll dictionary maxDepth rounds d

/-- Once the unions are written out, no definition is marked polymorphic any more. -/
def run (dictionary : Dictionary) (options : Options) (d : Document) : Outcome :=
  let (d, result) := expandAll dictionary options.maxDepth options.maxDepth d
  match result with
  | .error e => (d, .error e)
  | .ok _ =>
    if dictionary.unions then
      let definitions : Definitions :=
        d.definitions.mapValues fun s => { s with keywords.polymorphic := none }
      Document.unreported { d with definitions }
    else d.unreported

end SchemaGraph.TypeExpansion
