import SchemaGraph.Pass.Squash

/- Folding repeating groups: an anonymous array around a composition goes, and its bounds are
   multiplied into the properties of the composition, each of which becomes an array. Content behind
   references is copied. A chain of references longer than the graph has nodes is a cycle. -/
namespace SchemaGraph.Repetition

/-- How often something occurs; no maximum means unbounded. -/
structure Bounds where
  min : Nat
  max : Option Nat
  deriving DecidableEq, Repr

def maxBound : Nat := Nat.pow 2 64 - 1

/-- The product of two bounds, at most the largest bound. -/
def times (a b : Nat) : Nat := min (a * b) maxBound

/-- Bounds as they are read: a maximum of zero is none. -/
def nonzero (bound : Option Nat) : Option Nat := bound.filter (· != 0)

def listed : Json → List Json
  | .arr items => items
  | value => [value]

/-- The hints of the outer group before those of the inner one. -/
def joinGroups (outer inner : Option Json) : Option Json :=
  match inner with
  | none => outer
  | some inner => some (.arr ((outer.map listed).getD [] ++ listed inner))

/-- An array inside the group occurs as often as both say. -/
def boundArray (group : Option Json) (b : Bounds) (k : Keywords) : Keywords :=
  let minItems := match nonzero k.minItems with
    | some n => if times n b.min = 0 then none else some (times n b.min)
    | none => none
  let maxItems := match nonzero k.maxItems with
    | some n => b.max.map (times n)
    | none => k.maxItems
  { k with
    minItems, maxItems
    group := if b.max = some 1 then k.group else joinGroups group k.group }

/-- What stays fixed while a group is folded. -/
structure Setting where
  graph : Definitions
  group : Option Json
  location : String

/-- A property that is no array becomes one. -/
def wrap (g : Setting) (b : Bounds) (property : Schema) : Except Error Schema := do
  let target ← g.graph.deref property g.location
  return {
    keywords := {
      xml := target.keywords.xml, type := some "array", group := g.group,
      minItems := if b.min = 0 then none else some b.min, maxItems := b.max }
    children := { items := some property } }

/-- A child beside the folding of its content. -/
abbrev Child := Schema × (Bounds → Except Error Schema)

def boundProperty (g : Setting) (visit : Child → Bounds → Except Error Schema) (b : Bounds)
    (required : List String) (entry : String × Child) : Except Error (String × Schema) := do
  let own : Bounds := ⟨if required.contains entry.1 then b.min else 0, b.max⟩
  let property := entry.2.1
  if property.isArray then return (entry.1, ← visit entry.2 own)
  else if b.max = some 1 then return (entry.1, property)
  else return (entry.1, ← wrap g own property)

/-- Folds the bounds into the members of a node's composition. -/
def boundMembers (visit : Child → Bounds → Except Error Schema) (k : Keywords)
    (c : Children Child) (b : Bounds) : Except Error Schema :=
  let node : Schema := ⟨k, c.map Prod.fst⟩
  match c.oneOf, c.allOf with
  | some members, _ =>
    return { node with children.oneOf := some (← members.mapM (visit · b)) }
  | none, some members =>
    return { node with children.allOf := some (← members.mapM (visit · b)) }
  | none, none => return node

/-- Folds the bounds into the node itself when it is an array, and into its properties when it is
not. -/
def boundContent (g : Setting) (visit : Child → Bounds → Except Error Schema)
    (properties : Option (Table Child)) (b : Bounds) (node : Schema) : Except Error Schema :=
  let k := node.keywords
  if node.isArray then return { node with keywords := boundArray g.group b k }
  else match properties with
    | none => return node
    | some properties => do
      let properties ← properties.mapM (boundProperty g visit b (k.required.getD []))
      let required := if b.min = 0 then none else k.required
      return { node with children.properties := some properties, keywords.required := required }

def boundNode (g : Setting) (visit : Child → Bounds → Except Error Schema) (k : Keywords)
    (c : Children Child) (b : Bounds) : Except Error Schema := do
  boundContent g visit c.properties b (← boundMembers visit k c b)

/-- Folds the bounds into the content of a node, whatever reference it carries itself; nodes below
that are references are replaced by what they refer to. -/
def fold (g : Setting) : Nat → Schema → Bounds → Except Error Schema
  | 0, _, _ => .error (.depthExceeded g.location 0)
  | hops + 1, s, b =>
    let visit (child : Child) (b : Bounds) : Except Error Schema :=
      match child.1.keywords.reference with
      | none => child.2 b
      | some r => do fold g hops (← g.graph.resolve r g.location) b
    s.para (boundNode g visit) b

/-- The number of nodes in the graph. -/
def nodes (graph : Definitions) : Nat := graph.values.foldl (fun n s => n + s.size) 0

/-- A repeating group becomes its content, with the bounds of the group folded in. -/
def unfoldGroup (graph : Definitions) (p : Position) (slot : Schema) : Except Error Schema :=
  match slot.isRepeatingGroup, slot.children.items with
  | true, some items => do
    let g : Setting := ⟨graph, slot.keywords.group, p.location⟩
    let bounds : Bounds := ⟨slot.keywords.minItems.getD 0, nonzero slot.keywords.maxItems⟩
    fold g (nodes graph + 1) (← graph.deref items g.location) bounds
  | _, _ => .ok slot

def after (graph : Definitions) (p : Position) (s : Schema) : Except Error Schema := do
  match s.children.allOf, s.children.oneOf with
  | some members, _ =>
    return { s with children.allOf := some (← members.mapM (unfoldGroup graph p)) }
  | none, some members =>
    return { s with children.oneOf := some (← members.mapM (unfoldGroup graph p)) }
  | none, none => return s

def run (d : Document) : Outcome := d.walkPass after

end SchemaGraph.Repetition
