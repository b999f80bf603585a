import SchemaGraph.Pass.Basic
import SchemaGraph.Schema.Merge

/- Replacing `anyOf` by the best type that its members have in common. -/
namespace SchemaGraph.AnyOf

/-- The constraints that are approximated. -/
structure Common where
  type : Option String
  format : Option String
  enum : Option (List Json)

def Common.ofMember (k : Keywords) : Common := ⟨k.type, k.format, k.enum⟩

/-- The values of both lists, the first list before the new ones. -/
def unionValues (values more : List Json) : List Json :=
  more.foldl (fun l v => if l.any (v.equiv ·) then l else l ++ [v]) values

/-- Members that disagree leave an unconstrained string; a member without enumeration ends it. -/
def Common.join (c : Common) (k : Keywords) : Common :=
  let c : Common :=
    if c.type = k.type ∧ c.format = k.format then c else ⟨some "string", none, none⟩
  { c with enum := match c.enum, k.enum with
      | some values, some more => some (unionValues values more)
      | _, _ => none }

def common? : List Schema → Option Common
  | [] => none
  | first :: rest =>
    some (rest.foldl (fun c s => c.join s.keywords) (.ofMember first.keywords))

/-- A member that is a reference, with what it refers to laid over it. -/
def resolveMember (graph : Definitions) (p : Position) (member : Schema) :
    Except Error Schema :=
  match member.keywords.reference with
  | none => .ok member
  | some r => do
    let target ← graph.resolve r p.location
    return target.onto { member with keywords.reference := none }

/-- Where the members have nothing in common, the node's own keywords stay. -/
def collapse (s : Schema) (c : Common) : Schema :=
  { s with
    keywords.type := c.type.or s.keywords.type
    keywords.format := c.format.or s.keywords.format
    keywords.enum := c.enum.or s.keywords.enum }

def after (graph : Definitions) (p : Position) (s : Schema) : Except Error Schema :=
  match s.children.anyOf with
  | none => .ok s
  | some members => do
    let members ← members.mapM (resolveMember graph p)
    let s : Schema := { s with children.anyOf := none }
    return match common? members with
      | some c => collapse s c
      | none => s

def run (d : Document) : Outcome := d.walkPass after

end SchemaGraph.AnyOf
