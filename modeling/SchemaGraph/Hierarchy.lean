import SchemaGraph.Usage

/- Extension: a definition extends the one that its first `allOf` member refers to. Extension links
   may form cycles. -/
namespace SchemaGraph

namespace Definitions

/-- The definitions that extend each base, by base in the order in which the bases first occur. -/
def subtypes (definitions : Definitions) : Table (List String) :=
  definitions.foldl (fun t (name, s) =>
    match s.base? with
    | some base => t.put base.name ((t.get? base.name).getD [] ++ [name])
    | none => t) []

def ancestorsFrom (definitions : Definitions) :
    Nat → List String → Option Schema → List Reference
  | 0, _, _ => []
  | depth + 1, seen, current =>
    match current.bind Schema.base? with
    | none => []
    | some base =>
      if seen.contains base.name then []
      else base :: ancestorsFrom definitions depth (base.name :: seen) (definitions.get? base.name)

/-- The bases above a definition, the nearest first. The chain is cut before a name that it has
already and after `maxDepth` links. -/
def ancestors (definitions : Definitions) (name : String) (maxDepth : Nat) : List Reference :=
  definitions.ancestorsFrom maxDepth [name] (definitions.get? name)

/-- Extends exactly the definition, not a node inside it. -/
def Extends (s : Schema) (base : String) : Prop :=
  ∃ r, s.base? = some r ∧ r.name = base ∧ r.tail = []

def extendsBase (s : Schema) (base : String) : Bool :=
  s.base?.any fun r => r.name == base && r.tail.isEmpty

theorem extendsBase_iff (s : Schema) (base : String) :
    extendsBase s base = true ↔ Extends s base := by
  simp [extendsBase, Extends, Option.any_eq_true]

def extensionsFrom (definitions : Definitions) : Nat → List String → List String → List String
  | 0, _, _ => []
  | _ + 1, [], _ => []
  | fuel + 1, current :: pending, seen =>
    let direct : Definitions := definitions.filter fun entry => extendsBase entry.2 current
    let through : Definitions := direct.filter fun entry =>
      entry.2.keywords.polymorphic.isSome && !seen.contains entry.1
    let fresh := through.keys
    direct.keys ++ extensionsFrom definitions fuel (fresh.reverse ++ pending) (fresh ++ seen)

/-- Every definition that extends the base directly or through polymorphic extensions, the last
found polymorphic extension looked into first. Each definition waits at most once. -/
def extensions (definitions : Definitions) (base : String) : List String :=
  definitions.extensionsFrom (definitions.length + 1) [base] [base]

/-- Whether a definition extends something, or something extends it or the definition that it was
generated for. -/
def inHierarchy (definitions : Definitions) (name : String) (ancestors : List Reference)
    (usage : Table Usage) : Bool :=
  let extended (n : String) : Bool := (usage.get? n).any fun u => 0 < u.structural
  !ancestors.isEmpty || extended name ||
    ((definitions.get? name).bind (·.keywords.uniqueName)).any extended

end Definitions

/-- Whether a mark for abstract types applies: a boolean says so itself. -/
def Json.marksAbstract : Json → Bool
  | bool value => value
  | null => false
  | _ => true

/-- The name by which a document states the type of a node, qualified when it has a namespace. An
abstract type has none. -/
def Schema.xsiTypeName? (s : Schema) : Option String := do
  let name ← s.keywords.xsiType
  if s.keywords.xsiTypeAbstract.any Json.marksAbstract then none
  else match s.keywords.xsiTypeXml.bind (·.uri) with
    | some uri => if uri = "" then some name else some ("\x7b" ++ uri ++ "\x7d" ++ name)
    | none => some name

end SchemaGraph
