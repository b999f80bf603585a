import SchemaGraph.Pass.TypeExpansion
import SchemaGraph.Proofs.Distinct
import SchemaGraph.Proofs.Each

/- What one expansion of `typeOf` makes of a node, and what selects the members of a union. The
   chain of shapes is followed to its end; the mapping of a union is a list of entries put one after
   the other, the later over the earlier. -/
namespace SchemaGraph

namespace Table
variable {α : Type}

theorem mem_keys_ofList {entries : List (String × α)} {key : String} {value : α}
    (listed : (key, value) ∈ entries) : key ∈ (ofList entries).keys := by
  obtain ⟨earlier, later, rfl⟩ := List.append_of_mem listed
  rw [ofList, List.foldl_append, List.foldl_cons]
  refine List.foldlRecOn (motive := fun t : Table α => key ∈ t.keys) later _ ?_ ?_
  · exact (mem_keys_put_iff _ _ _ _).mpr (Or.inr rfl)
  · exact fun t known entry _ => (mem_keys_put_iff _ _ _ _).mpr (Or.inl known)

/-- Where all entries of a key agree, nothing is overwritten. -/
theorem get?_ofList_of_agree {entries : List (String × α)} {key : String} {value : α}
    (listed : (key, value) ∈ entries) (agree : ∀ other, (key, other) ∈ entries → other = value) :
    (ofList entries).get? key = some value := by
  obtain ⟨found, member⟩ := (mem_keys_iff _ _).mp (mem_keys_ofList listed)
  rw [get?_of_mem (distinct_ofList entries) member, agree found (mem_of_mem_ofList _ member)]

end Table

namespace TypeExpansion

/-- From the reference over the nodes that it and the shapes after it mean to the reference to the
last one, which has a shape of its own. -/
inductive Chain (graph : Definitions) : Reference → List Schema → Reference → Prop where
  | last {r : Reference} {target : Schema} (meant : graph.target? r = some target)
      (final : target.keywords.typeOf = none) : Chain graph r [target] r
  | next {r after final : Reference} {target : Schema} {targets : List Schema}
      (meant : graph.target? r = some target) (further : target.keywords.typeOf = some after)
      (rest : Chain graph after targets final) : Chain graph r (target :: targets) final

variable {graph : Definitions}

/-- Following ends with the chain, and the first extensions on the way are kept. -/
theorem chain_of_follow {location : String} {max depth : Nat} {shape found : Shape}
    (meant : graph.target? shape.reference = some shape.target)
    (followed : follow graph location max depth shape = .ok found) :
    ∃ later, Chain graph shape.reference (shape.target :: later) found.reference ∧
      graph.target? found.reference = some found.target ∧
      found.descendants = shape.descendants.or (later.findSome? (·.keywords.descendants)) := by
  fun_induction follow graph location max depth shape with
  | case1 shape own | case3 depth shape own =>
    cases followed
    exact ⟨[], .last meant own, meant, Option.or_none.symm⟩
  | case2 => cases followed
  | case4 depth shape next further ih =>
    obtain ⟨target, resolved, followed⟩ := of_bind_eq_ok followed
    have meantNext := Definitions.target?_of_resolve resolved
    obtain ⟨later, chain, meantLast, descendants⟩ := ih target meantNext followed
    refine ⟨target :: later, .next meant further chain, meantLast, ?_⟩
    rw [descendants, List.findSome?_cons, Option.or_assoc]
    cases target.keywords.descendants <;> rfl

/-- Where following starts, the node's own extensions come first. -/
def startShape (s : Schema) (typeOf : Reference) (first : Schema) : Shape :=
  ⟨typeOf, first, s.keywords.descendants.or first.keywords.descendants⟩

theorem chain_of_start {location : String} {max depth : Nat} {s first : Schema} {typeOf : Reference}
    {found : Shape} (meant : graph.target? typeOf = some first)
    (followed : follow graph location max depth (startShape s typeOf first) = .ok found) :
    ∃ targets, Chain graph typeOf targets found.reference ∧
      graph.target? found.reference = some found.target ∧ found.descendants =
        s.keywords.descendants.or (targets.findSome? (·.keywords.descendants)) := by
  obtain ⟨later, chain, meantLast, descendants⟩ := chain_of_follow meant followed
  refine ⟨first :: later, chain, meantLast, ?_⟩
  rw [descendants, startShape, List.findSome?_cons, Option.or_assoc]
  cases first.keywords.descendants <;> rfl

/-- The copy of the last shape that a node becomes, or that its union is made of. -/
def copyFor (dictionary : Dictionary) (definition : String) (s : Schema) (typeOf : Reference)
    (target : Schema) : Schema :=
  adaptNames dictionary definition typeOf (s.keywords.forPart.any Json.isTruthy)
    (copyShape s target)

/-- Whether the copy is written out as a union. -/
def IsUnion (dictionary : Dictionary) (copy : Schema) : Prop :=
  dictionary.unions = true ∧ copy.keywords.polymorphic.any Json.isTruthy = true

/-- The members of the union: the last shape and the extensions that are listed first on the way. -/
def unionMembers (s : Schema) (targets : List Schema) (final : Reference) : List Reference :=
  final :: (s.keywords.descendants.or (targets.findSome? (·.keywords.descendants))).getD []

theorem expand_of_ok {dictionary : Dictionary} {maxDepth : Nat} {p : Position} {s made : Schema}
    {typeOf : Reference} (expanded : expand dictionary maxDepth graph p s typeOf = .ok made) :
    ∃ targets final target, Chain graph typeOf targets final ∧ graph.target? final = some target ∧
      ((¬ IsUnion dictionary (copyFor dictionary p.definition s typeOf target) ∧
          made = copyFor dictionary p.definition s typeOf target) ∨
        IsUnion dictionary (copyFor dictionary p.definition s typeOf target) ∧
          ∃ t, mapping graph p.location true [] (unionMembers s targets final) = .ok t ∧
            made = asUnion (copyFor dictionary p.definition s typeOf target)
              (unionMembers s targets final) t) := by
  rw [expand] at expanded
  obtain ⟨first, resolved, expanded⟩ := of_bind_eq_ok expanded
  obtain ⟨shape, followed, expanded⟩ := of_bind_eq_ok expanded
  obtain ⟨targets, chain, meantLast, descendants⟩ :=
    chain_of_start (Definitions.target?_of_resolve resolved) followed
  refine ⟨targets, shape.reference, shape.target, chain, meantLast, ?_⟩
  rw [unionMembers, ← descendants]
  dsimp only at expanded
  split at expanded
  · rename_i union
    obtain ⟨t, mapped, made⟩ := of_bind_eq_ok expanded
    refine Or.inr ⟨Bool.and_eq_true_iff.mp union, t, mapped, ?_⟩
    exact (Except.ok.inj made).symm
  · rename_i plain
    refine Or.inl ⟨fun union => plain (Bool.and_eq_true_iff.mpr union), ?_⟩
    exact (Except.ok.inj expanded).symm

/-- What a node says of the shape that it has, and of its extensions, satisfies the predicates. -/
def ShapesIn (shape extension : Reference → Prop) (k : Keywords) : Prop :=
  (∀ r, k.typeOf = some r → shape r) ∧ ∀ l, k.descendants = some l → ∀ r ∈ l, extension r

section
variable {shape extension : Reference → Prop}

theorem every_copyFor (dictionary : Dictionary) (definition : String) {s target : Schema}
    (typeOf : Reference) (own : ∀ l, s.keywords.descendants = some l → ∀ r ∈ l, extension r)
    (inside : target.Every (ShapesIn shape extension)) :
    (copyFor dictionary definition s typeOf target).Every (ShapesIn shape extension) := by
  have descendants : ∀ l, s.keywords.descendants.or target.keywords.descendants = some l →
      ∀ r ∈ l, extension r := by
    intro l listed
    rcases Option.or_eq_some_iff.mp listed with here | ⟨_, there⟩
    · exact own l here
    · exact inside.own.2 l there
  have copied : (copyShape s target).Every (ShapesIn shape extension) := by
    rw [copyShape]
    dsimp only
    split
    · refine Schema.Every.mapBase (.mk ⟨inside.own.1, descendants⟩ inside.below) ?_
      exact fun k holds _ => holds
    · exact .mk ⟨inside.own.1, descendants⟩ inside.below
  rw [copyFor, adaptNames]
  dsimp only
  split
  · split
    · exact .mk copied.own copied.below
    · exact .mk copied.own copied.below
  · split
    · exact .mk copied.own copied.below
    · exact copied

theorem every_asUnion {s : Schema} (every : s.Every (ShapesIn shape extension))
    (members : List Reference) (t : Table String) :
    (asUnion s members t).Every (ShapesIn shape extension) := by
  refine .mk ⟨every.own.1, nofun⟩
    { every.below with allOf := nofun, anyOf := nofun, properties := nofun, oneOf := ?_ }
  rintro _ ⟨⟩
  refine List.forall_mem_map.mpr fun r _ => ?_
  exact .mk ⟨nofun, nofun⟩ (Children.each_empty _)

/-- The node that was made says of shapes and extensions what the last shape says of them, and what
the node itself says of its extensions. -/
theorem every_of_expand {dictionary : Dictionary} {maxDepth : Nat} {p : Position} {s made : Schema}
    {typeOf : Reference} (expanded : expand dictionary maxDepth graph p s typeOf = .ok made)
    (own : ∀ l, s.keywords.descendants = some l → ∀ r ∈ l, extension r)
    (inside : ∀ targets final target, Chain graph typeOf targets final →
      graph.target? final = some target → target.Every (ShapesIn shape extension)) :
    made.Every (ShapesIn shape extension) := by
  obtain ⟨targets, final, target, chain, meant, ⟨_, rfl⟩ | ⟨_, t, _, rfl⟩⟩ := expand_of_ok expanded
  · exact every_copyFor dictionary p.definition typeOf own (inside targets final target chain meant)
  · exact every_asUnion (every_copyFor dictionary p.definition typeOf own
      (inside targets final target chain meant)) _ _

end

/-- What all nodes of all definitions satisfy, the nodes that references mean satisfy. -/
theorem every_of_target? {holds : String → Keywords → Prop}
    (each : ∀ e ∈ graph, e.2.Every (holds e.1)) {r : Reference} {target : Schema}
    (meant : graph.target? r = some target) : target.Every (holds r.name) := by
  obtain ⟨root, found, inside⟩ := Option.bind_eq_some_iff.mp meant
  exact Schema.of_descend (fun _ every => every.below) r.tail (each _ (Table.mem_of_get? found))
    inside

end TypeExpansion
end SchemaGraph
