import SchemaGraph.Pass.Basic

/- XML annotations: every node learns its namespace from the nearest enclosing annotation, and
   annotations that nobody reads are removed. -/
namespace SchemaGraph.XmlHints

/-- The annotation that a node has on the way down. Arrays and references inherit nothing. -/
def hint (enclosing : List (Option Xml)) (s : Schema) : Option Xml :=
  match s.keywords.xml with
  | some x => some { x with uri := some (x.uri.getD "") }
  | none =>
    if s.children.items.isNone && s.keywords.reference.isNone then
      (enclosing.findSome? id).map Xml.inherited
    else none

/-- Annotations are read on definitions, on properties and on the items of arrays, on arrays only
when they have a name. -/
def isRead (p : Position) (s : Schema) : Bool :=
  (p.isRoot || p.parentKey? == some "properties" || p.key? == some "items") &&
    !(s.children.items.isSome && s.keywords.xml.any (·.name.isNone))

def visitor (pure : Bool) : Visitor Id where
  before p s := { s with keywords.xml := hint p.enclosing s }
  after p s := if pure && !isRead p s then { s with keywords.xml := none } else s

def run (pure : Bool) (d : Document) : Outcome :=
  Document.unreported { d with definitions := d.definitions.change d.flavor (visitor pure) }

/-- A short name for no namespace says nothing on a node of a simple type. -/
def dropEmptyQualifier (_ : Position) (s : Schema) : Schema :=
  let isSimple := s.children.properties.isNone &&
    s.keywords.type.any fun type => type != "object" && type != "array"
  if isSimple then
    { s with
      keywords.xml := s.keywords.xml.map fun x =>
        if x.qualifier = some "" ∧ x.uri = some "" then { x with qualifier := none } else x }
  else s

def dropEmptyQualifiers (d : Document) : Outcome := (d.changeAfter dropEmptyQualifier).unreported

end SchemaGraph.XmlHints
