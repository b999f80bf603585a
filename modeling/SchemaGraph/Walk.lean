import SchemaGraph.Schema.Basic

/- Walking the definitions. A visitor meets every node before and after the nodes below it; it may
   replace the node each time, and the children that it adds before are walked. The walk enters
   properties, items and the members of compositions, not `not` and not additional properties. -/
namespace SchemaGraph

/-- Where a visitor is. -/
structure Position where
  flavor : Flavor
  definition : String
  /-- The segments back from the node to the definition. -/
  trail : List String := []
  /-- The XML annotations of the enclosing nodes, the nearest first. -/
  enclosing : List (Option Xml) := []

namespace Position

/-- The segments from the definition to the node. -/
def path (p : Position) : List String := p.trail.reverse

def isRoot (p : Position) : Bool := p.trail.isEmpty

/-- The last segment: a keyword, a property's name or an index. -/
def key? (p : Position) : Option String := p.trail.head?

/-- The segment before the last. -/
def parentKey? (p : Position) : Option String := p.trail.tail.head?

def location (p : Position) : String :=
  Pointer.render (p.flavor.segments ++ p.definition :: p.path)

def child (p : Position) (xml : Option Xml) (segments : List String) : Position :=
  { p with trail := segments.reverse ++ p.trail, enclosing := xml :: p.enclosing }

end Position

structure Visitor (m : Type → Type) where
  before : Position → Schema → m Schema
  after : Position → Schema → m Schema

namespace Visitor
variable {m : Type → Type} [Monad m]

/-- A visitor that meets every node after the nodes below it. -/
def ofAfter (after : Position → Schema → m Schema) : Visitor m := ⟨fun _ s => pure s, after⟩

end Visitor

section
variable {m : Type → Type} [Monad m] {α β : Type}

def walkMembers (visit : List String → α → m β) (keyword : String) : Nat → List α → m (List β)
  | _, [] => pure []
  | i, value :: rest => do
    let value ← visit [keyword, toString i] value
    return value :: (← walkMembers visit keyword (i + 1) rest)

def walkProperties (visit : List String → α → m β) : Table α → m (Table β)
  | [] => pure []
  | (key, value) :: rest => do
    let value ← visit ["properties", key] value
    return (key, value) :: (← walkProperties visit rest)

def walkOption (visit : α → m β) : Option α → m (Option β)
  | none => pure none
  | some value => do return some (← visit value)

/-- Visits the children that a walk enters, with the segments that lead to them. -/
def Children.walk (visit : List String → α → m α) (c : Children α) : m (Children α) := do
  let properties ← walkOption (walkProperties visit) c.properties
  let items ← walkOption (visit ["items"]) c.items
  let allOf ← walkOption (walkMembers visit "allOf" 0) c.allOf
  let oneOf ← walkOption (walkMembers visit "oneOf" 0) c.oneOf
  let anyOf ← walkOption (walkMembers visit "anyOf" 0) c.anyOf
  return { c with properties, items, allOf, oneOf, anyOf }

/-- Walks a node and at most `levels` levels of nodes, its own included. -/
def Schema.walk (v : Visitor m) : Nat → Position → Schema → m Schema
  | 0, _, s => pure s
  | levels + 1, p, s => do
    let s ← v.before p s
    let children ← s.children.walk fun segments child =>
      Schema.walk v levels (p.child s.keywords.xml segments) child
    v.after p { s with children }

/-- Walks the entries after the finished ones; a failed walk leaves its root and all later ones as
they were. -/
def Definitions.walkFrom (flavor : Flavor) (growth : Nat)
    (visitor : Definitions → Visitor (ExceptT Error m)) (finished : Definitions) :
    Definitions → m (Definitions × Except Error Unit)
  | [] => pure (finished, .ok ())
  | (name, root) :: rest => do
    let graph := finished ++ (name, root) :: rest
    let levels := root.levels + growth
    match ← (root.walk (visitor graph) levels { flavor, definition := name }).run with
    | .ok root => walkFrom flavor growth visitor (finished ++ [(name, root)]) rest
    | .error e => pure (graph, .error e)

/-- Walks every definition in order. The visitor of a root sees the graph with the roots before it
in their final form, itself and the later ones in the form they came in. `growth` bounds the levels
that the visitor adds below a root. -/
def Definitions.walk (flavor : Flavor) (growth : Nat)
    (visitor : Definitions → Visitor (ExceptT Error m)) (definitions : Definitions) :
    m (Definitions × Except Error Unit) :=
  walkFrom flavor growth visitor [] definitions

end

/-- Walks every definition with a visitor that needs neither the graph nor a failure. -/
def Definitions.change (flavor : Flavor) (visitor : Visitor Id) (definitions : Definitions) :
    Definitions :=
  definitions.map fun (name, root) =>
    (name, root.walk visitor root.levels { flavor, definition := name })

end SchemaGraph
