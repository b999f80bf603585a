import SchemaGraph.Proofs.Integrity
import SchemaGraph.Proofs.Marking

/- What pruning keeps, which is the least set of needed definitions, and what that set does not see.
   Value uses in operations bring no extensions along, and references outside the operations and in
   discriminator mappings bring nothing along; so extensions of what an operation uses can be lost,
   and a closed document can be left with dangling references. Both are exact conditions. That no
   name is defined twice holds of every document that is read from a text. -/
namespace SchemaGraph

/-- The references in the operations that pruning counts. -/
def Document.pathOccurrences (d : Document) : List Occurrence :=
  (d.paths?.map Json.occurrences).getD []

namespace Pruning

/-- Kept whether or not a definition refers to it. -/
def Rooted (keepRootElements : Bool) (d : Document) (name : String) : Prop :=
  ∃ s, (name, s) ∈ d.definitions ∧ (name = security ∨ headerSuffix <:+ name.toList ∨
    (∃ o ∈ d.pathOccurrences, o.reference.name = name) ∨
    (keepRootElements ∧ ∃ x, s.keywords.xml = some x ∧ x.name.isSome))

theorem mem_roots_iff (keepRootElements : Bool) (d : Document) (name : String) :
    name ∈ roots keepRootElements d ↔ Rooted keepRootElements d name := by
  have counted : Table.has ((d.paths?.map Json.usage).getD []) name ↔
      ∃ o ∈ d.pathOccurrences, o.reference.name = name := by
    rw [Table.has_iff_mem_keys, Document.pathOccurrences]
    cases d.paths? with
    | none => simp [Table.keys]
    | some value => exact Usage.mem_keys_tally_iff _ _
  simp only [roots, isRoot, List.mem_map, List.mem_filter, Bool.or_eq_true, counted, Rooted,
    Prod.exists, exists_and_right, exists_eq_right, beq_iff_eq, List.isSuffixOf_iff_suffix,
    Bool.and_eq_true, Option.any_eq_true, or_assoc]

theorem roots_known (keepRootElements : Bool) (d : Document) :
    ∀ name ∈ roots keepRootElements d, name ∈ d.definitions.keys := by
  intro name isRoot
  obtain ⟨s, member, _⟩ := (mem_roots_iff _ _ _).mp isRoot
  exact (Table.mem_keys_iff _ _).mpr ⟨s, member⟩

/-- A name that pruning keeps in the document. -/
def Kept (options : Options) (d : Document) (name : String) : Prop :=
  Needed d.definitions (Rooted options.keepRootElements d) name

theorem has_needed_roots_iff {d : Document} (distinct : d.definitions.Distinct) (options : Options)
    (name : String) :
    (needed d.definitions (roots options.keepRootElements d)).has name ↔ Kept options d name := by
  rw [has_needed_iff distinct (roots_known _ d), Kept]
  simp only [mem_roots_iff]

theorem mem_run_iff {d : Document} (distinct : d.definitions.Distinct) (options : Options)
    (name : String) (s : Schema) : (name, s) ∈ (run options d).1.definitions ↔
      (name, s) ∈ d.definitions ∧ Kept options d name := by
  rw [← has_needed_roots_iff distinct]
  simp [run]

/-- Pruning keeps exactly the least set: its members unchanged and in order, all others reported in
order. The sweep leaves nothing untraversed. -/
theorem run_keeps_least_set (options : Options) (d : Document)
    (distinct : d.definitions.Distinct) :
    ∃ kept : List String, (∀ name, name ∈ kept ↔
        Needed d.definitions (Rooted options.keepRootElements d) name) ∧
      run options d = ({ d with definitions := d.definitions.filter fun e => e.1 ∈ kept },
        .ok { removed := d.definitions.keys.filter fun name => name ∉ kept }) ∧
      (needed d.definitions (roots options.keepRootElements d)).next? = none := by
  refine ⟨(needed d.definitions (roots options.keepRootElements d)).keys, ?_, ?_, ?_⟩
  · intro name
    rw [← Table.has_iff_mem_keys]
    exact has_needed_roots_iff distinct options name
  · simp only [run, ← Table.has_iff_mem_keys, Bool.decide_eq_true, Bool.not_eq_true,
      Bool.decide_eq_false]
  · exact (audit_needed distinct (roots_known _ d)).2

def useOf (name : String) : Schema := .ofReference (.toDefinition name .definitions)

def extending (base : String) (polymorphic : Option Json) : Schema where
  keywords := { polymorphic }
  children := { allOf := some [useOf base] }

def body (name : String) : Json :=
  .obj [("in", .str "body"), ("name", .str "body"),
    ("schema", .obj [("$ref", .str ("#/definitions/" ++ name))])]

def operation (parameter : Json) : Json :=
  .obj [("/op", .obj [("post", .obj [("parameters", .arr [parameter])])])]

/-- The extensions of `Animal` form a cycle through it, `Dog` carries the mark without being
polymorphic itself, and `Orphan` refers to itself and to nothing. -/
def kennel : Document where
  raw := [("paths", operation (body "Request")), ("definitions", .null)]
  flavor := .definitions
  hasSlot := true
  definitions := [("Request", { children := { properties := some [("pet", useOf "Animal")] } }),
    ("Animal", extending "Puppy" (some (.bool true))),
    ("Dog", extending "Animal" (some (.bool false))), ("Puppy", extending "Dog" none),
    ("Orphan", { children := { items := some (useOf "Orphan"), not := some (useOf "Gone") } })]

theorem run_keeps_least_set_kennel : kennel.definitions.Distinct ∧
    (∃ kept : List String, (∀ name, name ∈ kept ↔
        Needed kennel.definitions (Rooted false kennel) name) ∧
      run {} kennel = (
        { kennel with definitions := kennel.definitions.filter fun e => e.1 ∈ kept },
        .ok { removed := kennel.definitions.keys.filter fun name => name ∉ kept }) ∧
      (needed kennel.definitions (roots false kennel)).next? = none) ∧
    (run {} kennel).1.definitions.keys = ["Request", "Animal", "Dog", "Puppy"] :=
  ⟨by decide, run_keeps_least_set {} kennel (by decide), by decide⟩

theorem mem_keys_run_iff {d : Document} (distinct : d.definitions.Distinct) (options : Options)
    (name : String) : name ∈ (run options d).1.definitions.keys ↔
      name ∈ d.definitions.keys ∧ Kept options d name := by
  simp only [Table.mem_keys_iff, mem_run_iff distinct, exists_and_right]

/-- Whatever is used as a value, in the operations or in a definition that is left, can still be any
of its extensions. -/
def DispatchComplete (before after : Document) : Prop :=
  ∀ o : Occurrence, o.structural = false → isPolymorphic before.definitions o.reference.name →
    (o ∈ before.pathOccurrences ∨ ∃ name s, (name, s) ∈ after.definitions ∧ o ∈ s.occurrences) →
    ∀ e ∈ before.definitions.extensions o.reference.name, e ∈ after.definitions.keys

theorem kept_extension {d : Document} (distinct : d.definitions.Distinct) (options : Options)
    {name : String} {s : Schema} (member : (name, s) ∈ (run options d).1.definitions)
    {o : Occurrence} (occurs : o ∈ s.occurrences) (value : o.structural = false)
    (polymorphic : isPolymorphic d.definitions o.reference.name) {e : String}
    (extension : e ∈ d.definitions.extensions o.reference.name) : Kept options d e := by
  obtain ⟨inside, kept⟩ := (mem_run_iff distinct options name s).mp member
  exact .extension kept (Table.get?_of_mem distinct inside) occurs value polymorphic extension

/-- Uses in the definitions that are left keep all extensions. Uses in the operations bring none
along: the dispatch stays complete exactly when their extensions are needed anyway. -/
theorem dispatchComplete_run_iff (options : Options) (d : Document)
    (distinct : d.definitions.Distinct) :
    (∀ name s, (name, s) ∈ (run options d).1.definitions → ∀ o ∈ s.occurrences,
      o.structural = false → isPolymorphic d.definitions o.reference.name →
      ∀ e ∈ d.definitions.extensions o.reference.name,
        e ∈ (run options d).1.definitions.keys) ∧
    (DispatchComplete d (run options d).1 ↔ ∀ o ∈ d.pathOccurrences, o.structural = false →
      isPolymorphic d.definitions o.reference.name →
      ∀ e ∈ d.definitions.extensions o.reference.name,
        Needed d.definitions (Rooted options.keepRootElements d) e) := by
  have left : ∀ name s, (name, s) ∈ (run options d).1.definitions → ∀ o ∈ s.occurrences,
      o.structural = false → isPolymorphic d.definitions o.reference.name →
      ∀ e ∈ d.definitions.extensions o.reference.name,
        e ∈ (run options d).1.definitions.keys := by
    intro name s member o occurs value polymorphic e extension
    exact (mem_keys_run_iff distinct options e).mpr
      ⟨Definitions.mem_keys_of_mem_extensions extension,
        kept_extension distinct options member occurs value polymorphic extension⟩
  refine ⟨left, ?_, ?_⟩
  · intro complete o used value polymorphic e extension
    have present := complete o value polymorphic (Or.inl used) e extension
    exact ((mem_keys_run_iff distinct options e).mp present).2
  · intro anyway o value polymorphic place e extension
    rcases place with used | ⟨name, s, member, occurs⟩
    · exact (mem_keys_run_iff distinct options e).mpr
        ⟨Definitions.mem_keys_of_mem_extensions extension,
          anyway o used value polymorphic e extension⟩
    · exact left name s member o occurs value polymorphic e extension

theorem dispatchComplete_run_iff_kennel : kennel.definitions.Distinct ∧
    (DispatchComplete kennel (run {} kennel).1 ↔ ∀ o ∈ kennel.pathOccurrences,
      o.structural = false → isPolymorphic kennel.definitions o.reference.name →
      ∀ e ∈ kennel.definitions.extensions o.reference.name,
        Needed kennel.definitions (Rooted false kennel) e) :=
  ⟨by decide, (dispatchComplete_run_iff {} kennel (by decide)).2⟩

/-- The operations use the polymorphic `Animal` themselves. -/
def petShop : Document where
  raw := [("paths", operation (body "Animal")), ("definitions", .null)]
  flavor := .definitions
  hasSlot := true
  definitions := [
    ("Animal", { keywords := { type := some "object", polymorphic := some (.bool true) } }),
    ("Dog", extending "Animal" none)]

theorem dispatch_lost_in_operations : ¬ DispatchComplete petShop (run {} petShop).1 := by
  intro complete
  have present := complete ⟨.toDefinition "Animal" .definitions, false⟩ rfl (by decide)
    (Or.inl (by decide)) "Dog" (by decide)
  exact absurd present (by decide)

theorem target?_run {d : Document} (distinct : d.definitions.Distinct) (options : Options)
    (r : Reference) : ((run options d).1.definitions.target? r).isSome ↔
      (d.definitions.target? r).isSome ∧ Kept options d r.name := by
  rw [← has_needed_roots_iff distinct, run, Definitions.target?,
    Table.get?_filter (needed d.definitions (roots options.keepRootElements d)).has]
  split
  · rename_i kept
    simp [Definitions.target?, kept]
  · rename_i lost
    simp [lost]

/-- A closed document stays closed exactly when two kinds of references, which pruning does not
follow, name definitions that are needed anyway: raw ones that are not counted in the operations,
and those in discriminator mappings of needed definitions. -/
theorem closed_run_iff (options : Options) (d : Document) (distinct : d.definitions.Distinct)
    (closed : d.Closed) :
    (run options d).1.Closed ↔
      (∀ r ∈ d.rawReferences, (¬ ∃ o ∈ d.pathOccurrences, o.reference = r) →
        Needed d.definitions (Rooted options.keepRootElements d) r.name) ∧
      ∀ name s, (name, s) ∈ d.definitions →
        Needed d.definitions (Rooted options.keepRootElements d) name →
        ∀ node ∈ s.nodes, ∀ r ∈ node.mappedReferences,
          Needed d.definitions (Rooted options.keepRootElements d) r.name := by
  rw [Document.closed_iff] at closed ⊢
  simp only [target?_run distinct]
  have raw_run : (run options d).1.rawReferences = d.rawReferences := rfl
  constructor
  · intro resolved
    refine ⟨fun r raw _ => (resolved r (Or.inr raw)).2, ?_⟩
    intro name s member needed node inside r mapped
    refine (resolved r (Or.inl ⟨name, s, (mem_run_iff distinct options name s).mpr
      ⟨member, needed⟩, node, inside, ?_⟩)).2
    exact List.mem_append.mpr (Or.inr mapped)
  · rintro ⟨elsewhere, mapped⟩ r refers
    rcases refers with ⟨name, s, member, node, inside, refers⟩ | raw
    · obtain ⟨member, kept⟩ := (mem_run_iff distinct options name s).mp member
      refine ⟨closed r (Or.inl ⟨name, s, member, node, inside, refers⟩), ?_⟩
      rcases List.mem_append.mp refers with typed | inMapping
      · obtain ⟨o, occurs, same⟩ :=
          (Schema.mem_occurrencesAt_iff s false r).mpr ⟨node, inside, typed⟩
        rw [← same]
        exact .reference kept (Table.get?_of_mem distinct member) occurs
      · exact mapped name s member kept node inside r inMapping
    · rw [raw_run] at raw
      have meant := closed r (Or.inr raw)
      refine ⟨meant, ?_⟩
      -- A counted reference makes its definition a root.
      by_cases counted : ∃ o ∈ d.pathOccurrences, o.reference = r
      · obtain ⟨o, used, same⟩ := counted
        obtain ⟨s, member⟩ := (Table.mem_keys_iff _ _).mp (Definitions.mem_keys_of_target? meant)
        exact .root ⟨s, member, Or.inr (Or.inr (Or.inl ⟨o, used, by rw [same]⟩))⟩
      · exact elsewhere r raw counted

theorem closed_run_iff_petShop : petShop.definitions.Distinct ∧ petShop.Closed ∧
    ((run {} petShop).1.Closed ↔
      (∀ r ∈ petShop.rawReferences, (¬ ∃ o ∈ petShop.pathOccurrences, o.reference = r) →
        Needed petShop.definitions (Rooted false petShop) r.name) ∧
      ∀ name s, (name, s) ∈ petShop.definitions →
        Needed petShop.definitions (Rooted false petShop) name →
        ∀ node ∈ s.nodes, ∀ r ∈ node.mappedReferences,
          Needed petShop.definitions (Rooted false petShop) r.name) :=
  ⟨by decide, rfl, closed_run_iff {} petShop (by decide) rfl⟩

/-- The operation refers to a parameter that is declared outside the operations. -/
def sharedParameter : Document where
  raw := [("paths", operation (.obj [("$ref", .str "#/parameters/body")])),
    ("parameters", .obj [("body", body "Request")]), ("definitions", .null)]
  flavor := .definitions
  hasSlot := true
  definitions := [("Request", { keywords := { type := some "object" } })]

theorem shared_parameter_left_dangling :
    sharedParameter.Closed ∧ ¬ (run {} sharedParameter).1.Closed := by
  refine ⟨rfl, ?_⟩
  intro closed
  cases closed

end Pruning
end SchemaGraph
