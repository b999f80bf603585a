import SchemaGraph.Hierarchy
import SchemaGraph.Options
import SchemaGraph.Pass.Basic

/- Pruning: only definitions that the operations need are kept. A definition needs those that it
   refers to; a polymorphic one that it uses as a value is needed with all its extensions, a base
   without them. Kept names are marked, and every marked name is traversed once. -/
namespace SchemaGraph.Pruning

def security : String := "Security"

def headerSuffix : List Char := "_Header".toList

/-- Needed without being referenced by a definition. -/
def isRoot (keepRootElements : Bool) (fromPaths : Table Usage) (name : String) (s : Schema) :
    Bool :=
  name == security || headerSuffix.isSuffixOf name.toList || fromPaths.has name ||
    (keepRootElements && s.keywords.xml.any (·.name.isSome))

def roots (keepRootElements : Bool) (d : Document) : List String :=
  let fromPaths := (d.paths?.map Json.usage).getD []
  (d.definitions.filter fun (name, s) => isRoot keepRootElements fromPaths name s).map Prod.fst

def isPolymorphic (definitions : Definitions) (name : String) : Bool :=
  (definitions.get? name).any fun s => s.keywords.polymorphic.any Json.isTruthy

/-- What is known of a kept name. -/
structure Mark where
  /-- What the definition needs is marked. -/
  traversed : Bool := false
  /-- The extensions of the definition are marked, or those of one that it extends. -/
  extended : Bool := false
  deriving DecidableEq, Repr

abbrev Marks := Table Mark

namespace Marks

def enter (marks : Marks) (name : String) : Marks := marks.putNew name {}

def mark (marks : Marks) (name : String) : Mark := (marks.get? name).getD {}

def traverse (marks : Marks) (name : String) : Marks :=
  marks.put name { marks.mark name with traversed := true }

def extend (marks : Marks) (name : String) : Marks :=
  marks.put name { marks.mark name with extended := true }

/-- The first name that was not traversed. -/
def next? (marks : Marks) : Option String :=
  (marks.find? fun entry => !entry.2.traversed).map Prod.fst

/-- Marks a definition that is referenced, given how it is used. -/
def use (definitions : Definitions) (marks : Marks) (target : String × Usage) : Marks :=
  let marks := marks.enter target.1
  if target.2.substitutable = 0 || (marks.mark target.1).extended ||
      !isPolymorphic definitions target.1 then marks
  else (definitions.extensions target.1).foldl extend (marks.extend target.1)

/-- Marks what a definition needs. -/
def visit (definitions : Definitions) (marks : Marks) (name : String) : Marks :=
  match definitions.get? name with
  | some s => s.usage.foldl (use definitions) (marks.traverse name)
  | none => marks.traverse name

def sweep (definitions : Definitions) : Nat → Marks → Marks
  | 0, marks => marks
  | rounds + 1, marks =>
    match marks.next? with
    | some name => sweep definitions rounds (marks.visit definitions name)
    | none => marks

end Marks

/-- Every name that can be marked: those of the definitions and those that they refer to. -/
def mentioned (definitions : Definitions) : List String :=
  definitions.keys ++
    (definitions.values.flatMap Schema.occurrences).map fun o => o.reference.name

/-- Traverses marked names until none is left. Every name is traversed at most once. -/
def needed (definitions : Definitions) (roots : List String) : Marks :=
  Marks.sweep definitions (mentioned definitions).length (roots.foldl Marks.enter [])

def run (options : Options) (d : Document) : Outcome :=
  let kept := needed d.definitions (roots options.keepRootElements d)
  let removed := d.definitions.keys.filter fun name => !kept.has name
  let definitions : Definitions := d.definitions.filter fun entry => kept.has entry.1
  ({ d with definitions }, .ok { removed })

end SchemaGraph.Pruning
