import SchemaGraph.Pass.Basic

/- Turning choices, compositions `oneOf` without discriminator, into optional `allOf` content. -/
namespace SchemaGraph.Choice

def withoutMinItems (s : Schema) : Schema := { s with keywords.minItems := none }

/-- The content of a branch is optional: its properties need not occur, through any number of
`allOf` levels. -/
def relax : Schema → Schema :=
  Schema.para fun k c =>
    let node : Schema := ⟨k, c.map Prod.fst⟩
    let node : Schema := { node with children.allOf := c.allOf.map (List.map Prod.snd) }
    match node.children.properties with
    | some properties =>
      { node with
        children.properties := some (Table.mapValues withoutMinItems properties)
        keywords.required := none }
    | none => node

def after (_ : Position) (s : Schema) : Schema :=
  if s.keywords.discriminator.isSome then s else
  match s.children.oneOf with
  | none => s
  | some branches =>
    { s with
      children.oneOf := none
      children.allOf := some (s.children.allOf.getD [] ++ branches.map relax) }

def run (d : Document) : Outcome := (d.changeAfter after).unreported

end SchemaGraph.Choice
