import SchemaGraph.Pass.Basic
import SchemaGraph.Schema.Merge

/- Squashing `allOf`: members that say nothing go, members that only wrap an `allOf` are replaced by
   its members, and members that can stand in their parent are merged into it. -/
namespace SchemaGraph

namespace Schema

/-- An array of a composition: a sequence or choice that repeats as a whole. -/
def isRepeatingGroup (s : Schema) : Bool :=
  s.isArray && s.children.items.any fun items =>
    items.children.allOf.isSome || items.children.oneOf.isSome

def isUntypedOrObject (s : Schema) : Bool := s.keywords.type.isNone || s.isObject

def isInlineObject (s : Schema) : Bool :=
  s.keywords.reference.isNone && s.children.items.isNone && s.children.allOf.isNone &&
    s.children.oneOf.isNone && s.children.anyOf.isNone && s.isUntypedOrObject

end Schema

namespace Squash

/-- What stands in place of a member. -/
def splice (member : Schema) : List Schema :=
  if member.keywords.reference.isSome then [member]
  else if member.isVacuous then []
  else match member.children.allOf with
    | some inner =>
      let rest : Schema := { member with children.allOf := none }
      if rest.isVacuous then inner else [member]
    | none => [member]

def union (names more : List String) : List String :=
  more.foldl (fun l name => if l.contains name then l else l ++ [name]) names

def mergeProperties (parent : Option (Table Schema)) : Option (Table Schema) → Option (Table Schema)
  | none => parent
  | some properties => some (properties.foldl (fun t (key, s) => t.putNew key s) (parent.getD []))

def mergeRequired (parent : Option (List String)) : Option (List String) → Option (List String)
  | none => parent
  | some required => some (union (parent.getD []) required)

/-- The parent's keywords win; properties and required names are joined, the parent's first. -/
def mergeMember (parent member : Schema) : Schema :=
  let properties := mergeProperties parent.children.properties member.children.properties
  let required := mergeRequired parent.keywords.required member.keywords.required
  let parent : Schema :=
    { parent with children.properties := properties, keywords.required := required }
  let rest : Schema := { member with children.properties := none, keywords.required := none }
  parent.onto rest

/-- A parent without type of its own, or of the same type, takes over an only member that is neither
a reference nor a repeating group. -/
def isSingleInline (parent : Schema) : List Schema → Bool
  | [member] =>
    parent.keywords.reference.isNone && member.keywords.reference.isNone &&
      !member.isRepeatingGroup &&
      (parent.keywords.type.isNone || parent.keywords.type == member.keywords.type)
  | _ => false

def isOpenObject (parent : Schema) : Bool :=
  parent.keywords.reference.isNone && parent.children.items.isNone && parent.isUntypedOrObject

def squashNode (merge : Bool) (s : Schema) : Schema :=
  match s.children.allOf with
  | none => s
  | some members =>
    let parent : Schema := { s with children.allOf := none }
    let flat := members.flatMap splice
    if flat.isEmpty then parent
    else if merge && (isSingleInline parent flat ||
        (isOpenObject parent && flat.all Schema.isInlineObject)) then
      flat.foldl mergeMember parent
    else { parent with children.allOf := some flat }

/-- Under `items` an `allOf` is a repeating group, whose members stay apart. -/
def after (p : Position) (s : Schema) : Schema := squashNode (p.key? != some "items") s

def run (d : Document) : Outcome := (d.changeAfter after).unreported

end Squash
end SchemaGraph
