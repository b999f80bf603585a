import SchemaGraph.Proofs.Places
import SchemaGraph.Proofs.Typedefs

/- The names of union members when typedefs are folded. A definition that is there afterwards is one
   of the document's, under its own name or under its type's, with the same nodes at the same places.
   So the dispatch of a node changes only where it names a typedef that gives its name up, and the
   members of the unions among the definitions do not. -/
namespace SchemaGraph

theorem Schema.at?_redirect (f : Reference → Option Reference) (place : Place) (s : Schema) :
    (s.redirect f).at? place = (s.at? place).map (Keywords.redirect f) := by
  induction place generalizing s with
  | nil =>
    obtain ⟨k, c⟩ := s
    rw [redirect_mk]
    rfl
  | cons step rest ih =>
    obtain ⟨k, c⟩ := s
    rw [redirect_mk, at?, at?, Children.child?_map]
    cases c.child? step with
    | none => rfl
    | some child => exact ih child

namespace Definitions

theorem at?_rename (definitions : Definitions) (names : Renaming) (name : String) (place : Place) :
    (definitions.rename names).at? name place =
      (definitions.at? name place).map (Keywords.redirect names.apply?) := by
  rw [at?, at?, rename, Table.get?_mapValues]
  cases definitions.get? name with
  | none => rfl
  | some s => exact s.at?_redirect names.apply? place

/-- The discriminator of the node at a place. -/
def discriminator? (definitions : Definitions) (name : String) (place : Place) :
    Option Discriminator :=
  (definitions.at? name place).bind (·.discriminator)

/-- The reference in one member of the `oneOf` of the node at a place. -/
def choice? (definitions : Definitions) (name : String) (place : Place) (i : Nat) :
    Option Reference :=
  (definitions.at? name (place ++ [.oneOf i])).bind (·.reference)

theorem mem_unionMembers {definitions : Definitions} {union : String} {disc : Discriminator}
    {i : Nat} {r : Reference} (dispatches : definitions.discriminator? union [] = some disc)
    (member : definitions.choice? union [] i = some r) :
    r.name ∈ definitions.values.flatMap Typedefs.unionMembers := by
  obtain ⟨k, root, own⟩ := Option.bind_eq_some_iff.mp dispatches
  obtain ⟨s, found, root⟩ := Option.bind_eq_some_iff.mp root
  obtain rfl := Option.some.inj root
  obtain ⟨k, below, refers⟩ := Option.bind_eq_some_iff.mp member
  rw [List.nil_append, at?, found, Option.bind_some] at below
  obtain ⟨child, here, same⟩ := Option.bind_eq_some_iff.mp below
  obtain ⟨members, listed, inside⟩ := Option.bind_eq_some_iff.mp here
  obtain rfl := Option.some.inj same
  refine List.mem_flatMap.mpr ⟨s, List.mem_map.mpr ⟨_, Table.mem_of_get? found, rfl⟩, ?_⟩
  rw [Typedefs.unionMembers, own, listed, Option.isSome_some, if_pos rfl, Option.getD_some]
  exact List.mem_filterMap.mpr ⟨child, List.mem_of_getElem? inside, by rw [refers]; rfl⟩

end Definitions

namespace Typedefs

theorem get?_settle {state : Definitions × Report} {entry : String × String}
    (changes : entry.2 ≠ entry.1) (name : String) : (settle state entry).1.get? name =
      if name = entry.1 then none
      else (state.1.get? name).or (if entry.2 = name then state.1.get? entry.1 else none) := by
  cases found : state.1.get? entry.1 with
  | none =>
    rw [settle_of_get?_eq_none found]
    split
    · rename_i own
      rw [own, found]
    · simp
  | some s =>
    have erased (other : String) : (state.1.erase entry.1).get? other =
        if other = entry.1 then none else state.1.get? other := by
      have kept := Table.get?_filter (fun key => decide (key ≠ entry.1)) state.1 other
      simpa [Table.erase] using kept
    rw [settle_eq found]
    split
    · rename_i taken
      rw [Table.has, erased, if_neg changes] at taken
      dsimp only
      rw [erased]
      by_cases same : entry.2 = name
      · obtain ⟨stood, there⟩ := Option.isSome_iff_exists.mp taken
        rw [same] at there
        simp [there]
      · simp [same]
    · dsimp only
      rw [Table.get?_append, erased]
      by_cases own : name = entry.1
      · subst own
        simp [Table.get?, changes]
      · simp [Table.get?, own]

section
variable {names : Renaming} {state : Definitions × Report}

/-- Nothing that keeps its name is replaced. -/
theorem get?_foldl_settle_of_kept (changes : ∀ e ∈ names, e.2 ≠ e.1) {name : String}
    (kept : name ∉ names.keys) {s : Schema} (found : state.1.get? name = some s) :
    (names.foldl settle state).1.get? name = some s := by
  induction names generalizing state with
  | nil => exact found
  | cons entry rest ih =>
    obtain ⟨changesHere, changesLater⟩ := List.forall_mem_cons.mp changes
    obtain ⟨other, later⟩ := List.ne_and_not_mem_of_not_mem_cons kept
    apply ih changesLater later
    rw [get?_settle changesHere, if_neg other, found, Option.some_or]

/-- What is there afterwards kept its name, or gave it up for this one. -/
theorem exists_get?_of_get?_foldl_settle (distinct : names.Distinct)
    (known : ∀ e ∈ names, e.1 ∈ state.1.keys) (changes : ∀ e ∈ names, e.2 ≠ e.1) {name : String}
    {s : Schema} (found : (names.foldl settle state).1.get? name = some s) :
    state.1.get? name = some s ∨
      ∃ former, (former, name) ∈ names ∧ state.1.get? former = some s := by
  induction names generalizing state with
  | nil => exact Or.inl found
  | cons entry rest ih =>
    obtain ⟨changesHere, changesLater⟩ := List.forall_mem_cons.mp changes
    obtain ⟨knownHere, knownLater⟩ := List.forall_mem_cons.mp known
    obtain ⟨fresh, distinctRest⟩ := List.nodup_cons.mp distinct
    have settled := ih distinctRest (known_settle distinct knownHere knownLater) changesLater found
    rcases settled with stood | ⟨former, given, stood⟩
    · rw [get?_settle changesHere] at stood
      split at stood
      · cases stood
      · rcases Option.or_eq_some_iff.mp stood with before | ⟨_, taken⟩
        · exact Or.inl before
        · split at taken
          · rename_i same
            exact Or.inr ⟨entry.1, List.mem_cons.mpr (Or.inl (by rw [← same])), taken⟩
          · cases taken
    · have other : former ≠ entry.1 := by
        rintro rfl
        exact fresh (List.mem_map.mpr ⟨_, given, rfl⟩)
      obtain ⟨before, there⟩ := (Table.exists_get?_iff _ _).mpr (knownLater _ given)
      rw [get?_settle changesHere, if_neg other, there, Option.some_or, ← there] at stood
      exact Or.inr ⟨former, List.mem_cons_of_mem _ given, stood⟩

/-- A free name goes to the first typedef that asks for it. -/
theorem get?_foldl_settle_of_first {before rest : Renaming} {name type : String}
    (split : names = before ++ (name, type) :: rest) (distinct : names.Distinct)
    (known : ∀ e ∈ names, e.1 ∈ state.1.keys) (changes : ∀ e ∈ names, e.2 ≠ e.1)
    (free : state.1.get? type = none) (first : type ∉ before.values) {s : Schema}
    (found : state.1.get? name = some s) : (names.foldl settle state).1.get? type = some s := by
  subst split
  obtain ⟨knownBefore, knownRest⟩ := List.forall_mem_append.mp known
  obtain ⟨changesBefore, changesRest⟩ := List.forall_mem_append.mp changes
  obtain ⟨changesHere, changesLater⟩ := List.forall_mem_cons.mp changesRest
  rw [Table.Distinct, Table.keys_append] at distinct
  obtain ⟨distinctBefore, _, apart⟩ := List.nodup_append.mp distinct
  have given : name ∈ Table.keys ((name, type) :: rest) := List.mem_cons_self
  have waits : name ∉ before.keys := fun listed => apart _ listed _ given rfl
  have unasked : type ∉ Table.keys rest := by
    intro asked
    obtain ⟨e, member, same⟩ := List.mem_map.mp asked
    apply (Table.get?_eq_none_iff _ _).mp free
    exact same ▸ knownRest e (List.mem_cons_of_mem _ member)
  have still : (before.foldl settle state).1.get? type = none := by
    by_contra taken
    obtain ⟨other, taken⟩ := Option.ne_none_iff_exists'.mp taken
    rcases exists_get?_of_get?_foldl_settle distinctBefore knownBefore changesBefore taken with
      stood | ⟨former, asked, _⟩
    · rw [free] at stood
      cases stood
    · exact first (List.mem_map.mpr ⟨_, asked, rfl⟩)
  have there := get?_foldl_settle_of_kept changesBefore waits found
  rw [List.foldl_append, List.foldl_cons]
  apply get?_foldl_settle_of_kept changesLater unasked
  rw [get?_settle changesHere, if_neg changesHere, still, Option.none_or, if_pos rfl, there]

end

/-- The keywords without what only guided the generation. -/
def stripped (k : Keywords) : Keywords :=
  { k with ancestor := none, descendants := none, uniqueName := k.uniqueName.map typeName }

/-- What a run makes of the keywords at a place. -/
def cleaned (d : Document) (place : Place) (k : Keywords) : Keywords :=
  (if place.isEntered then stripped k else k).redirect ( Renaming.apply? (newNames d))

/-- What a run makes of the text under a mapping's key. -/
def turnedText (d : Document) (raw : String) : String :=
  Keywords.redirectText ( Renaming.apply? (newNames d)) raw

/-- What a run makes of a discriminator. -/
def turnedMapping (d : Document) (disc : Discriminator) : Discriminator :=
  { disc with mapping := disc.mapping.map (Table.mapValues (turnedText d)) }

/-- The definition of one name stands under another afterwards, every node at its place. -/
def Becomes (d : Document) (name after : String) : Prop :=
  name ∈ d.definitions.keys ∧ ∀ place, (run d).1.definitions.at? after place =
    (d.definitions.at? name place).map (cleaned d place)

section
variable {d : Document}

theorem at?_stripped (d : Document) (name : String) (place : Place) :
    (d.changeAfter strip).definitions.at? name place = (d.definitions.at? name place).map fun k =>
      if place.isEntered then stripped k else k :=
  Definitions.at?_change d.flavor (fun _ _ => stripped) d.definitions name place

theorem becomes_of_get? {name after : String} {s : Schema}
    (stands : (d.changeAfter strip).definitions.get? name = some s)
    (settled : (folded d).definitions.get? after = some s) : Becomes d name after := by
  refine ⟨?_, fun place => ?_⟩
  · rw [← keys_stripped d]
    exact (Table.exists_get?_iff _ _).mp ⟨s, stands⟩
  · have same : (folded d).definitions.at? after place =
        (d.changeAfter strip).definitions.at? name place := by
      rw [Definitions.at?, Definitions.at?, settled, stands]
    rw [run_eq, Document.rename, Definitions.at?_rename, same, at?_stripped, Option.map_map]
    rfl

theorem typeName_changes {e : String × String} (renamed : e ∈ newNames d) : e.2 ≠ e.1 := by
  obtain ⟨_, typedef, same⟩ := mem_newNames renamed
  rw [same]
  exact typeName_ne_self typedef

theorem known_newNames {e : String × String} (renamed : e ∈ newNames d) :
    e.1 ∈ (d.changeAfter strip).definitions.keys := by
  rw [keys_stripped]
  exact (mem_newNames renamed).1

theorem get?_newNames_of_not_typedef {name : String} (plain : isTypedef name = false) :
    (newNames d).get? name = none := by
  rw [Table.get?_eq_none_iff]
  intro renamed
  obtain ⟨e, member, rfl⟩ := List.mem_map.mp renamed
  rw [(mem_newNames member).2.1] at plain
  cases plain

/-- Members of the unions among the definitions keep their names. -/
theorem get?_newNames_of_member {name : String}
    (fixed : name ∈ d.definitions.values.flatMap unionMembers) : (newNames d).get? name = none := by
  rw [Table.get?_eq_none_iff]
  intro renamed
  obtain ⟨e, member, rfl⟩ := List.mem_map.mp renamed
  obtain ⟨⟨name, s⟩, _, given⟩ := List.mem_filterMap.mp member
  obtain ⟨same, _⟩ := rename_entry given
  rw [same] at fixed
  dsimp only at given
  rw [if_pos (by simp [fixed])] at given
  cases given

theorem becomes_self {name : String} (known : name ∈ d.definitions.keys)
    (kept : (newNames d).get? name = none) : Becomes d name name := by
  rw [← keys_stripped d] at known
  obtain ⟨s, stands⟩ := (Table.exists_get?_iff _ _).mpr known
  refine becomes_of_get? stands ?_
  exact get?_foldl_settle_of_kept (fun _ => typeName_changes)
    ((Table.get?_eq_none_iff _ _).mp kept) stands

theorem becomes_type (distinct : d.definitions.Distinct) {before rest : Renaming}
    {name type : String} (split : newNames d = before ++ (name, type) :: rest)
    (free : type ∉ d.definitions.keys) (first : type ∉ before.values) : Becomes d name type := by
  have given : (name, type) ∈ newNames d := by
    rw [split]
    exact List.mem_append_right _ List.mem_cons_self
  obtain ⟨s, stands⟩ := (Table.exists_get?_iff _ _).mpr (known_newNames given)
  rw [← keys_stripped d] at free
  refine becomes_of_get? stands ?_
  exact get?_foldl_settle_of_first split (distinct_newNames distinct) (fun _ => known_newNames)
    (fun _ => typeName_changes) ((Table.get?_eq_none_iff _ _).mpr free) first stands

theorem exists_becomes (distinct : d.definitions.Distinct) {after : String}
    (left : after ∈ (run d).1.definitions.keys) :
    ∃ name, Becomes d name after ∧ (after = name ∨ (newNames d).get? name = some after) := by
  have distinctNames := distinct_newNames distinct
  rw [run_eq, Document.rename, Definitions.rename, Table.keys_mapValues] at left
  obtain ⟨s, settled⟩ := (Table.exists_get?_iff _ _).mpr left
  have origin := exists_get?_of_get?_foldl_settle distinctNames (fun _ => known_newNames)
    (fun _ => typeName_changes) settled
  rcases origin with stands | ⟨former, given, stands⟩
  · exact ⟨after, becomes_of_get? stands settled, Or.inl rfl⟩
  · exact ⟨former, becomes_of_get? stands settled,
      Or.inr (Table.get?_of_mem distinctNames given)⟩

theorem reference_cleaned (place : Place) (k : Keywords) : (cleaned d place k).reference =
    k.reference.map fun r => ( Renaming.apply? (newNames d) r).getD r := by
  rw [cleaned]
  split <;> rfl

theorem discriminator_cleaned (place : Place) (k : Keywords) :
    (cleaned d place k).discriminator = k.discriminator.map (turnedMapping d) := by
  rw [cleaned]
  split <;> rfl

theorem choice?_of_becomes {name after : String} (becomes : Becomes d name after) {place : Place}
    {i : Nat} {r : Reference} (chosen : d.definitions.choice? name place i = some r)
    (kept : (newNames d).get? r.name = none) :
    (run d).1.definitions.choice? after place i = some r := by
  obtain ⟨k, member, refers⟩ := Option.bind_eq_some_iff.mp chosen
  rw [Definitions.choice?, becomes.2, member, Option.map_some, Option.bind_some,
    reference_cleaned, refers, Option.map_some, Renaming.apply?, kept]
  rfl

theorem discriminator?_of_becomes {name after : String} (becomes : Becomes d name after)
    {place : Place} {disc : Discriminator}
    (dispatches : d.definitions.discriminator? name place = some disc) :
    (run d).1.definitions.discriminator? after place = some (turnedMapping d disc) := by
  obtain ⟨k, node, own⟩ := Option.bind_eq_some_iff.mp dispatches
  rw [Definitions.discriminator?, becomes.2, node, Option.map_some, Option.bind_some,
    discriminator_cleaned, own, Option.map_some]

theorem turnedText_of_kept {raw : String}
    (kept : ∀ r, Reference.parse? raw = some r → (newNames d).get? r.name = none) :
    turnedText d raw = raw := by
  rw [turnedText, Keywords.redirectText]
  cases read : Reference.parse? raw with
  | none => rfl
  | some r =>
    rw [Option.bind_some, Renaming.apply?, kept r read]
    rfl

theorem turnedText_of_given {raw : String} {r : Reference} {type : String}
    (read : Reference.parse? raw = some r) (given : (newNames d).get? r.name = some type) :
    turnedText d raw = (r.renamed type).raw := by
  rw [turnedText, Keywords.redirectText, read, Option.bind_some, Renaming.apply?, given]
  rfl

/-- Folding typedefs and dispatch. Every definition that keeps its name stays, the first
typedef that asks for a free name takes it, and nothing else is there afterwards; names that are no
typedefs', and the members of the unions among the definitions, are kept. A node with a
discriminator, wherever its definition stands, chooses among the same kept definitions, under the
same keys: the value of a key changes only when it names a definition that gives its name up, and
then, unless the node chooses that definition, to the name of its type. -/
theorem dispatch_kept (d : Document) (distinct : d.definitions.Distinct) :
    (∀ name ∈ d.definitions.keys, (newNames d).get? name = none → Becomes d name name) ∧
    (∀ (before rest : Renaming) name type, newNames d = before ++ (name, type) :: rest →
      type ∉ d.definitions.keys → type ∉ before.values → Becomes d name type) ∧
    (∀ after ∈ (run d).1.definitions.keys, ∃ name, Becomes d name after ∧
      (after = name ∨ (newNames d).get? name = some after)) ∧
    (∀ name, isTypedef name = false → (newNames d).get? name = none) ∧
    (∀ union disc i r, d.definitions.discriminator? union [] = some disc →
      d.definitions.choice? union [] i = some r → (newNames d).get? r.name = none) ∧
    ∀ name after, Becomes d name after → ∀ place disc,
      d.definitions.discriminator? name place = some disc →
      (∀ i r, d.definitions.choice? name place i = some r → (newNames d).get? r.name = none →
        (run d).1.definitions.choice? after place i = some r) ∧
      ∃ turned, (run d).1.definitions.discriminator? after place = some turned ∧
        turned.propertyName = disc.propertyName ∧ turned.extra = disc.extra ∧
        turned.mapping.map Table.keys = disc.mapping.map Table.keys ∧
        ∀ key raw, (disc.mapping.bind (·.get? key)) = some raw →
          ((∀ r, Reference.parse? raw = some r → (newNames d).get? r.name = none) →
            (turned.mapping.bind (·.get? key)) = some raw) ∧
          ∀ r type, Reference.parse? raw = some r → (newNames d).get? r.name = some type →
            (∀ i chosen, d.definitions.choice? name place i = some chosen →
              chosen.name ≠ r.name) →
            (turned.mapping.bind (·.get? key)) = some (r.renamed type).raw := by
  refine ⟨fun name => becomes_self, fun before rest name type => becomes_type distinct,
    fun after => exists_becomes distinct, fun name => get?_newNames_of_not_typedef,
    fun union disc i r dispatches member =>
      get?_newNames_of_member (Definitions.mem_unionMembers dispatches member), ?_⟩
  intro name after becomes place disc dispatches
  refine ⟨fun i r => choice?_of_becomes becomes, _, discriminator?_of_becomes becomes dispatches,
    rfl, rfl, ?_, fun key raw mapped => ?_⟩
  · rw [turnedMapping, Option.map_map]
    exact congrArg (Option.map · disc.mapping) (funext fun t => Table.keys_mapValues _ t)
  · obtain ⟨t, mapping, found⟩ := Option.bind_eq_some_iff.mp mapped
    have turned : (turnedMapping d disc).mapping.bind (·.get? key) = some (turnedText d raw) := by
      rw [turnedMapping, mapping, Option.map_some, Option.bind_some, Table.get?_mapValues, found]
      rfl
    constructor
    · intro kept
      rw [turned, turnedText_of_kept kept]
    · intro r type read given _
      rw [turned, turnedText_of_given read given]

end

/-- A union that also maps a name to a typedef which it does not choose; the typedef is a union
itself and gives its name up for a type that is none. -/
def pets : Document where
  raw := [("definitions", .null)]
  flavor := .definitions
  hasSlot := true
  definitions :=
    let cat : Schema := .ofReference (.toDefinition "Cat" .definitions)
    let toys : Discriminator :=
      { propertyName := some "kind", mapping := some [("cat", "#/definitions/Cat")] }
    let pet : Discriminator :=
      { propertyName := some "kind"
        mapping := some [("cat", "#/definitions/Cat"), ("toy", "#/definitions/Toy_typedef_t")] }
    [("Pet", { keywords := { discriminator := some pet }, children := { oneOf := some [cat] } }),
      ("Cat", { keywords := { type := some "object" } }),
      ("Toy_typedef_t",
        { keywords := { discriminator := some toys }, children := { oneOf := some [cat] } }),
      ("Toy_type_t", { keywords := { type := some "object" } })]

theorem dispatch_kept_pets : pets.definitions.Distinct ∧
    Becomes pets "Cat" "Cat" ∧ (run pets).1.definitions.choice? "Pet" [] 0 =
      some (.toDefinition "Cat" .definitions) ∧
    ∃ turned, (run pets).1.definitions.discriminator? "Pet" [] = some turned ∧
      turned.mapping.map Table.keys = some ["cat", "toy"] ∧
      turned.mapping.bind (·.get? "cat") = some "#/definitions/Cat" ∧
      turned.mapping.bind (·.get? "toy") = some "#/definitions/Toy_type_t" := by
  have distinct : pets.definitions.Distinct := by decide
  obtain ⟨kept, _, _, plain, fixed, dispatch⟩ := dispatch_kept pets distinct
  have cat : (newNames pets).get? "Cat" = none :=
    fixed "Pet" _ 0 (.toDefinition "Cat" .definitions) rfl rfl
  have pet : Becomes pets "Pet" "Pet" := kept "Pet" (by decide) (plain "Pet" rfl)
  obtain ⟨choices, turned, dispatches, _, _, keys, values⟩ := dispatch "Pet" "Pet" pet [] _ rfl
  refine ⟨distinct, kept "Cat" (by decide) cat, choices 0 _ rfl cat, turned, dispatches, keys,
    (values "cat" _ rfl).1 ?_, (values "toy" _ rfl).2
      (.toDefinition "Toy_typedef_t" .definitions) "Toy_type_t" rfl rfl ?_⟩
  · intro r read
    obtain rfl : Reference.toDefinition "Cat" .definitions = r := Option.some.inj read
    exact cat
  · intro i chosen member
    cases i with
    | zero =>
      obtain rfl : Reference.toDefinition "Cat" .definitions = chosen := Option.some.inj member
      decide
    | succ i => cases member

/-- A mapping value that names no member is turned, and a union that is a typedef goes. -/
theorem mapping_turned_to_type :
    (pets.definitions.discriminator? "Pet" []).bind (·.mapping) =
      some [("cat", "#/definitions/Cat"), ("toy", "#/definitions/Toy_typedef_t")] ∧
    ((run pets).1.definitions.discriminator? "Pet" []).bind (·.mapping) =
      some [("cat", "#/definitions/Cat"), ("toy", "#/definitions/Toy_type_t")] ∧
    (pets.definitions.discriminator? "Toy_typedef_t" []).isSome ∧
    (run pets).1.definitions.keys = ["Pet", "Cat", "Toy_type_t"] ∧
    (run pets).1.definitions.discriminator? "Toy_type_t" [] = none := by
  exact ⟨rfl, rfl, rfl, rfl, rfl⟩

end Typedefs
end SchemaGraph
