import SchemaGraph.Pass.Basic
import SchemaGraph.Inlining
import SchemaGraph.Lexical
import SchemaGraph.Options

/- Typing defaults and enumerations. On a node without type of its own the values move down to the
   first primitive schema below it, its references being inlined. -/
namespace SchemaGraph.Defaults

/-- The first member that was updated takes its new form. -/
def updateMember : List (Schema × Option Schema) → Option (List Schema)
  | [] => none
  | (_, some updated) :: rest => some (updated :: rest.map Prod.fst)
  | (s, none) :: rest => (updateMember rest).map (s :: ·)

/-- Updates the first schema with a primitive type: items of arrays are followed, objects have none,
compositions without type are searched member by member. -/
def updatePrimitive? (f : Schema → Schema) : Schema → Option Schema :=
  Schema.para fun k c =>
    let node : Schema := ⟨k, c.map Prod.fst⟩
    match k.type with
    | some "array" =>
      (c.items.bind Prod.snd).map fun items => { node with children.items := some items }
    | some "object" => none
    | some _ => some (f node)
    | none =>
      match c.anyOf, c.oneOf, c.allOf with
      | some list, _, _ => (updateMember list).map fun l => { node with children.anyOf := some l }
      | none, some list, _ =>
        (updateMember list).map fun l => { node with children.oneOf := some l }
      | none, none, some list =>
        (updateMember list).map fun l => { node with children.allOf := some l }
      | none, none, none => none

/-- Gives a node values of its own type. -/
def place (default : Option Json) (enum : Option (List Json)) (s : Schema) : Schema :=
  let convert := Lexical.convert (s.keywords.type.getD "")
  { s with
    keywords.default := (default.map convert).or s.keywords.default
    keywords.enum := (enum.map (List.map convert)).or s.keywords.enum }

def after (maxDepth : Nat) (graph : Definitions) (p : Position) (s : Schema) :
    Except Error Schema :=
  let hasDefault := s.keywords.default.any Json.isTruthy
  if !hasDefault && s.keywords.enum.isNone then .ok s
  else if s.keywords.type.isSome then
    .ok (place (if hasDefault then s.keywords.default else none) s.keywords.enum s)
  else do
    let s ← Inlining.inlineReferences graph p.location maxDepth s
    let bare : Schema := { s with keywords.default := none, keywords.enum := none }
    let default := if hasDefault then s.keywords.default else none
    return (updatePrimitive? (place default s.keywords.enum) bare).getD bare

def run (options : Options) (d : Document) : Outcome := d.walkPass (after options.maxDepth)

end SchemaGraph.Defaults
