import SchemaGraph.Reference

/- Schemas: what a node says itself (its keywords) and the schemas below it (its children). Every
   bottom-up traversal is a `fold`; `para` also hands each child's own node to the algebra. -/
namespace SchemaGraph

/-- How a node is written in XML. -/
structure Xml where
  /-- The namespace. -/
  uri : Option String := none
  /-- The namespace's short name. -/
  qualifier : Option String := none
  name : Option String := none
  attr : Option Bool := none
  /-- Other keys, sorted. -/
  extra : Table Json := []
  deriving Inhabited

namespace Xml

def isAttribute (x : Xml) : Bool := x.attr == some true

/-- What a node takes over from an enclosing one. -/
def inherited (x : Xml) : Xml := { uri := x.uri, qualifier := x.qualifier }

end Xml

structure Discriminator where
  propertyName : Option String := none
  /-- Values of the property and the references that they select. -/
  mapping : Option (Table String) := none
  extra : Table Json := []
  deriving Inhabited

structure Keywords where
  reference : Option Reference := none
  xml : Option Xml := none
  description : Option String := none
  type : Option String := none
  format : Option String := none
  default : Option Json := none
  enum : Option (List Json) := none
  minimum : Option Json := none
  maximum : Option Json := none
  exclusiveMinimum : Option Json := none
  exclusiveMaximum : Option Json := none
  minItems : Option Nat := none
  maxItems : Option Nat := none
  pattern : Option String := none
  minLength : Option Nat := none
  maxLength : Option Nat := none
  required : Option (List String) := none
  nullable : Option Bool := none
  xNullable : Option Bool := none
  whiteSpace : Option Json := none
  fractionDigits : Option Json := none
  totalDigits : Option Json := none
  discriminator : Option Discriminator := none
  /-- Marks a definition whose extensions may stand in its place. -/
  polymorphic : Option Json := none
  xsiType : Option String := none
  xsiTypeXml : Option Xml := none
  xsiTypeAbstract : Option Json := none
  /-- The definition that a node was generated for. -/
  uniqueName : Option String := none
  group : Option Json := none
  anyType : Option Json := none
  complexRestriction : Option Json := none
  schemaNote : Option Json := none
  messages : Option Json := none
  sample : Option Json := none
  /-- The node has the shape of this definition. -/
  typeOf : Option Reference := none
  forPart : Option Json := none
  ancestor : Option Reference := none
  descendants : Option (List Reference) := none
  /-- Other keys, sorted. -/
  extra : Table Json := []
  deriving Inhabited

inductive Additional (α : Type) where
  | flag (allowed : Bool)
  | schema (value : α)

structure Children (α : Type) where
  not : Option α := none
  items : Option α := none
  properties : Option (List (String × α)) := none
  allOf : Option (List α) := none
  oneOf : Option (List α) := none
  anyOf : Option (List α) := none
  additional : Option (Additional α) := none

structure Schema where
  keywords : Keywords := {}
  children : Children Schema := {}

namespace Additional
variable {α β : Type}

def map (f : α → β) : Additional α → Additional β
  | flag allowed => flag allowed
  | schema value => schema (f value)

def schema? : Additional α → Option α
  | flag _ => none
  | schema value => some value

end Additional

namespace Children
variable {α β : Type}

def map (f : α → β) (c : Children α) : Children β where
  not := c.not.map f
  items := c.items.map f
  properties := c.properties.map (Table.mapValues f)
  allOf := c.allOf.map (List.map f)
  oneOf := c.oneOf.map (List.map f)
  anyOf := c.anyOf.map (List.map f)
  additional := c.additional.map (Additional.map f)

def isEmpty (c : Children α) : Bool :=
  c.not.isNone && c.items.isNone && c.properties.isNone && c.allOf.isNone && c.oneOf.isNone &&
    c.anyOf.isNone && c.additional.isNone

end Children

namespace Schema
variable {α β : Type}

instance : Inhabited Schema := ⟨{}⟩

mutual
/-- Replaces every node by what `f` makes of its keywords and of the results below it. -/
def fold (f : Keywords → Children β → β) : Schema → β
  | ⟨keywords, children⟩ => f keywords (foldChildren f children)

def foldChildren (f : Keywords → Children β → β) : Children Schema → Children β
  | ⟨not, items, properties, allOf, oneOf, anyOf, additional⟩ =>
    ⟨foldOption f not, foldOption f items, foldTable? f properties, foldList? f allOf,
      foldList? f oneOf, foldList? f anyOf, foldAdditional? f additional⟩

def foldOption (f : Keywords → Children β → β) : Option Schema → Option β
  | none => none
  | some s => some (fold f s)

def foldList? (f : Keywords → Children β → β) : Option (List Schema) → Option (List β)
  | none => none
  | some list => some (foldList f list)

def foldList (f : Keywords → Children β → β) : List Schema → List β
  | [] => []
  | s :: rest => fold f s :: foldList f rest

def foldTable? (f : Keywords → Children β → β) :
    Option (List (String × Schema)) → Option (List (String × β))
  | none => none
  | some table => some (foldTable f table)

def foldTable (f : Keywords → Children β → β) : List (String × Schema) → List (String × β)
  | [] => []
  | (key, s) :: rest => (key, fold f s) :: foldTable f rest

def foldAdditional? (f : Keywords → Children β → β) :
    Option (Additional Schema) → Option (Additional β)
  | none => none
  | some (.flag allowed) => some (.flag allowed)
  | some (.schema s) => some (.schema (fold f s))
end

theorem foldOption_eq (f : Keywords → Children β → β) (o : Option Schema) :
    foldOption f o = o.map (fold f) := by
  cases o <;> simp [foldOption]

theorem foldList_eq (f : Keywords → Children β → β) (l : List Schema) :
    foldList f l = l.map (fold f) := by
  induction l with
  | nil => simp [foldList]
  | cons s rest ih => simp [foldList, ih]

theorem foldTable_eq (f : Keywords → Children β → β) (t : Table Schema) :
    foldTable f t = t.mapValues (fold f) := by
  induction t with
  | nil => simp [foldTable, Table.mapValues]
  | cons entry rest ih => simp_all [foldTable, Table.mapValues]

theorem foldChildren_eq (f : Keywords → Children β → β) (c : Children Schema) :
    foldChildren f c = c.map (fold f) := by
  obtain ⟨not, items, properties, allOf, oneOf, anyOf, additional⟩ := c
  simp only [foldChildren, Children.map, foldOption_eq]
  congr 1
  · cases properties <;> simp [foldTable?, foldTable_eq]
  · cases allOf <;> simp [foldList?, foldList_eq]
  · cases oneOf <;> simp [foldList?, foldList_eq]
  · cases anyOf <;> simp [foldList?, foldList_eq]
  · rcases additional with _ | _ | _ <;> simp [foldAdditional?, Additional.map]

theorem fold_mk (f : Keywords → Children β → β) (k : Keywords) (c : Children Schema) :
    fold f ⟨k, c⟩ = f k (c.map (fold f)) := by
  rw [fold, foldChildren_eq]

/-- A fold whose algebra sees every child beside the result below it. -/
def para (f : Keywords → Children (Schema × β) → β) (s : Schema) : β :=
  (fold (fun k c => ((⟨k, c.map Prod.fst⟩ : Schema), f k c)) s).2

/-- A node that is nothing but a reference. -/
def ofReference (reference : Reference) : Schema := { keywords := { reference := some reference } }

def hasType (s : Schema) (type : String) : Bool := s.keywords.type == some type

def isArray (s : Schema) : Bool := s.hasType "array"

def isObject (s : Schema) : Bool := s.hasType "object"

def isNullable (s : Schema) : Bool :=
  s.keywords.xNullable == some true || s.keywords.nullable == some true

def isAttribute (s : Schema) : Bool := s.keywords.xml.any Xml.isAttribute

/-- The reference in the first `allOf` member: the definition that this one extends. -/
def base? (s : Schema) : Option Reference := do
  let members ← s.children.allOf
  let first ← members.head?
  first.keywords.reference

def mapBase (f : Reference → Reference) (s : Schema) : Schema :=
  match s.children.allOf with
  | some (first :: rest) =>
    let first := { first with keywords.reference := first.keywords.reference.map f }
    { s with children.allOf := some (first :: rest) }
  | _ => s

/-- The number of levels of the node and all schemas below it. -/
def levels : Schema → Nat :=
  fold fun _ c =>
    let most (l : List Nat) : Nat := l.foldl max 0
    1 + most (c.not.toList ++ c.items.toList ++ (c.properties.map Table.values).getD [] ++
      c.allOf.getD [] ++ c.oneOf.getD [] ++ c.anyOf.getD [] ++
      (c.additional.bind (·.schema?)).toList)

/-- The number of nodes, the schema itself included. -/
def size : Schema → Nat :=
  fold fun _ c =>
    (c.not.toList ++ c.items.toList ++ (c.properties.map Table.values).getD [] ++
      c.allOf.getD [] ++ c.oneOf.getD [] ++ c.anyOf.getD [] ++
      (c.additional.bind (·.schema?)).toList).foldl (· + ·) 1

/-- An index segment: digits with an optional '+'. -/
def index? (segment : String) : Option Nat :=
  let digits := match segment.toList with
    | '+' :: rest => rest
    | cs => cs
  if digits ≠ [] ∧ digits.all (fun c => '0' ≤ c && c ≤ '9') then
    some (digits.foldl (fun n c => 10 * n + (c.toNat - '0'.toNat)) 0)
  else none

/-- The node that the segments lead to. -/
def descend : List String → Schema → Option Schema
  | [], s => some s
  | "items" :: rest, s => s.children.items.bind (descend rest)
  | "not" :: rest, s => s.children.not.bind (descend rest)
  | "additionalProperties" :: rest, s =>
    (s.children.additional.bind (·.schema?)).bind (descend rest)
  | "properties" :: key :: rest, s =>
    (s.children.properties.bind (Table.get? · key)).bind (descend rest)
  | "allOf" :: i :: rest, s => (member? s.children.allOf i).bind (descend rest)
  | "oneOf" :: i :: rest, s => (member? s.children.oneOf i).bind (descend rest)
  | "anyOf" :: i :: rest, s => (member? s.children.anyOf i).bind (descend rest)
  | _, _ => none
where
  member? (list : Option (List Schema)) (i : String) : Option Schema := do
    let members ← list
    let index ← index? i
    members[index]?

end Schema

abbrev Definitions := Table Schema

namespace Definitions

/-- The node that a reference means. -/
def target? (definitions : Definitions) (reference : Reference) : Option Schema :=
  (definitions.get? reference.name).bind (Schema.descend reference.tail)

/-- The node that a reference means; `location` is where the reference stands. -/
def resolve (definitions : Definitions) (reference : Reference) (location : String) :
    Except Error Schema :=
  match definitions.target? reference with
  | some s => .ok s
  | none => .error (.unresolvedReference reference.raw location)

/-- The node itself when it is no reference, otherwise the node that it refers to. -/
def deref (definitions : Definitions) (s : Schema) (location : String) : Except Error Schema :=
  match s.keywords.reference with
  | some reference => definitions.resolve reference location
  | none => .ok s

end Definitions
end SchemaGraph
