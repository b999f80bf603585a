import SchemaGraph.Inlining
import SchemaGraph.Pass.Basic

/- Inlining the definitions of attributes where they are used, and removing them. -/
namespace SchemaGraph.Attributes

def after (attributes : List String) (graph : Definitions) (p : Position) (s : Schema) :
    Except Error Schema :=
  match s.keywords.reference with
  | some r =>
    if r.tail.isEmpty && attributes.contains r.name then graph.overlay r s p.location else .ok s
  | none => .ok s

def run (d : Document) : Outcome :=
  let attributes := (d.definitions.filter fun entry => entry.2.isAttribute).map Prod.fst
  if attributes.isEmpty then d.unreported else
  let (d, result) := d.walkAfter (after attributes)
  match result with
  | .error e => (d, .error e)
  | .ok _ =>
    let definitions : Definitions := d.definitions.filter fun e => !attributes.contains e.1
    let removed := d.definitions.keys.filter attributes.contains
    ({ d with definitions }, .ok { removed })

end SchemaGraph.Attributes
