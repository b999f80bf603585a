import SchemaGraph.Document
import SchemaGraph.Report
import SchemaGraph.Walk

/- A pass changes the document. What it leaves is there also when it fails. -/
namespace SchemaGraph

/-- The document that a pass leaves, with its report or its error. -/
abbrev Outcome := Document × Except Error Report

namespace Document

def unreported (d : Document) : Outcome := (d, .ok {})

/-- Changes every node after the nodes below it. -/
def changeAfter (after : Position → Schema → Schema) (d : Document) : Document :=
  let visitor : Visitor Id := ⟨fun _ s => s, after⟩
  { d with definitions := d.definitions.change d.flavor visitor }

section
variable {m : Type → Type} [Monad m]

/-- Walks every definition with hooks that run after the nodes below, see the graph, may fail and
have effects of their own. -/
def walkAfterM (after : Definitions → Position → Schema → ExceptT Error m Schema) (d : Document) :
    m (Document × Except Error Unit) := do
  let visitor (graph : Definitions) : Visitor (ExceptT Error m) := .ofAfter (after graph)
  let (definitions, result) ← d.definitions.walk d.flavor 0 visitor
  return ({ d with definitions }, result)

end

/-- Walks every definition with hooks that see the graph and may fail. -/
def walkAfter (after : Definitions → Position → Schema → Except Error Schema) (d : Document) :
    Document × Except Error Unit :=
  Id.run (d.walkAfterM fun graph p s => ExceptT.mk (pure (after graph p s)))

/-- A walk as a pass that reports nothing. -/
def walkPass (after : Definitions → Position → Schema → Except Error Schema) (d : Document) :
    Outcome :=
  let (d, result) := d.walkAfter after
  (d, result.map fun _ => {})

end Document
end SchemaGraph
