import SchemaGraph.Pass.Squash
import SchemaGraph.Options

/- Restrictions of complex content. A restriction inherits the attributes of its bases and none of
   their elements, so an object with those attributes takes the place of the base reference. -/
namespace SchemaGraph.Restriction

/-- The mark of a property that the restriction takes away. -/
def prohibited : String := "x-prohibited"

/-- Adds the attributes that the restriction does not declare itself. -/
def collect (restricted attributes properties : Table Schema) : Table Schema :=
  properties.foldl (fun t (key, s) =>
    if s.isAttribute && !restricted.has key then t.put key s else t) attributes

/-- The attributes of one base: its own, then those of its inline members. -/
def collectBase (restricted attributes : Table Schema) (base : Schema) : Table Schema :=
  let own := match base.children.properties with
    | some properties => collect restricted attributes properties
    | none => attributes
  (base.children.allOf.getD []).foldl (fun t member =>
    match member.keywords.reference, member.children.properties with
    | none, some properties => collect restricted t properties
    | _, _ => t) own

/-- The base of a base is the last reference among its members. -/
def nextBase? (base : Schema) : Option Reference :=
  (base.children.allOf.getD []).foldl (fun next member => member.keywords.reference.or next) none

/-- The attributes along a chain of at most `depth` bases; a missing base ends the chain. -/
def attributes? (graph : Definitions) (restricted : Table Schema) :
    Nat → Reference → Table Schema → Option (Table Schema)
  | 0, _, _ => none
  | depth + 1, r, found =>
    match graph.get? r.name with
    | none => some found
    | some base =>
      let found := collectBase restricted found base
      match nextBase? base with
      | none => some found
      | some next => attributes? graph restricted depth next found

def isKept (s : Schema) : Bool := !(s.keywords.extra.get? prohibited).any Json.isTruthy

/-- The content keeps what is not prohibited. -/
def restrictContent (content : Schema) : Schema :=
  { content with
    children.properties := content.children.properties.map (List.filter fun e => isKept e.2) }

/-- What stands in place of the base reference. -/
def inherited (content : Schema) (attributes : Table Schema) : Schema :=
  { keywords := { xml := content.keywords.xml, type := some "object" }
    children := { properties := some attributes } }

/-- Resolves a restriction; a node without a base reference and content loses just its mark. -/
def after (maxDepth : Nat) (graph : Definitions) (p : Position) (s : Schema) :
    ExceptT Error (StateM Nat) Schema := do
  if s.keywords.complexRestriction.isNone then return s
  modify (· + 1)
  let s : Schema := { s with keywords.complexRestriction := none }
  match s.children.allOf with
  | some (base :: content :: rest) =>
    match base.keywords.reference with
    | none => return s
    | some r =>
      match attributes? graph (content.children.properties.getD []) maxDepth r [] with
      | none => throw (.depthExceeded p.location maxDepth)
      | some attributes =>
        let members := inherited content attributes :: restrictContent content :: rest
        return { s with children.allOf := some members }
  | _ => return s

/-- Resolves all restrictions and, if there was any, squashes what they left. -/
def run (options : Options) (d : Document) : Outcome :=
  let ((d, result), found) := (d.walkAfterM (after options.maxDepth)).run 0
  match result with
  | .error e => (d, .error e)
  | .ok _ => if found = 0 then d.unreported else Squash.run d

end SchemaGraph.Restriction
