import SchemaGraph.Walk
import SchemaGraph.Schema.Merge

/- Replacing references by what they refer to. Inlined content may hold references again; a chain of
inlinings is followed up to a bound. -/
namespace SchemaGraph

namespace Definitions

/-- What the reference of a node refers to, laid over the rest of the node. -/
def overlay (graph : Definitions) (r : Reference) (s : Schema) (location : String) :
    Except Error Schema := do
  let target ← graph.resolve r location
  return target.onto { s with keywords.reference := none }

end Definitions

namespace Inlining

/-- A child with its own inlining, which runs only when it is asked for. -/
abbrev Child := Schema × (Unit → Except Error Schema)

def runList (list : Option (List Child)) : Except Error (Option (List Schema)) :=
  walkOption (·.mapM fun child => child.2 ()) list

/-- Inlines along items and compositions. A node that is a reference is left to `deeper`; the inside
of an object stays as it is. -/
def inlineNode (deeper : Reference → Schema → Except Error Schema) (k : Keywords)
    (c : Children Child) (_ : Unit) : Except Error Schema :=
  let node : Schema := ⟨k, c.map Prod.fst⟩
  match k.reference with
  | some r => deeper r node
  | none =>
    if node.isObject then .ok node else do
      let items ← walkOption (fun child : Child => child.2 ()) c.items
      let allOf ← runList c.allOf
      let oneOf ← runList c.oneOf
      let anyOf ← runList c.anyOf
      return { node with
        children.items := items, children.allOf := allOf, children.oneOf := oneOf,
        children.anyOf := anyOf }

/-- Inlines with at most `budget` inlinings in a chain; one more is the error of `max`. -/
def inlineWithin (graph : Definitions) (location : String) (max : Nat) :
    Nat → Schema → Except Error Schema
  | 0, s => s.para (inlineNode fun r _ => do
      let _ ← graph.resolve r location
      throw (.depthExceeded location max)) ()
  | budget + 1, s => s.para (inlineNode fun r node => do
      inlineWithin graph location max budget (← graph.overlay r node location)) ()

/-- Inlines every reference on the way from a node to its primitive content. -/
def inlineReferences (graph : Definitions) (location : String) (maxDepth : Nat) (s : Schema) :
    Except Error Schema :=
  inlineWithin graph location maxDepth maxDepth s

end Inlining
end SchemaGraph
