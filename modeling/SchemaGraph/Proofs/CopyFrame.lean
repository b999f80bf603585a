import SchemaGraph.Proofs.Planning

/- What copying leaves alone. Copies are only added, at the end and each reported; of the definitions
   that were there only the roots change, each once, when its own hierarchy is copied, and no more
   than their bases. -/
namespace SchemaGraph

namespace Table

theorem get?_modify {α : Type} (t : Table α) (key : String) (f : α → α) (other : String) :
    (t.modify key f).get? other = if other = key then (t.get? other).map f else t.get? other := by
  induction t with
  | nil => simp [modify, get?]
  | cons entry rest ih =>
    obtain ⟨k, v⟩ := entry
    rw [modify] at ih
    by_cases here : k = key <;> by_cases found : k = other
    · simp [modify, get?, ← here, found]
    · simp only [modify, List.map_cons, here, if_true, get?]
      rw [here] at found
      simp only [found, if_false, ih]
    · have differs : other ≠ key := fun same => here (found.trans same)
      simp [modify, get?, found, differs]
    · simp [modify, get?, here, found, ih]

end Table

namespace HierarchyCopies

/-- Copies are added to the definitions, each with the property, and each is reported. -/
def Adds (p : String × Schema → Prop) (before after : Progress) : Prop :=
  ∃ copies : Definitions, (∀ e ∈ copies, p e) ∧
    after = (before.1 ++ copies, before.2 ++ copies.keys)

section
variable {p : String × Schema → Prop} {before middle after : Progress}

theorem Adds.refl (state : Progress) : Adds p state state := ⟨[], by simp, by simp [Table.keys]⟩

theorem Adds.trans (first : Adds p before middle) (second : Adds p middle after) :
    Adds p before after := by
  obtain ⟨copies, each, rfl⟩ := first
  obtain ⟨more, eachMore, rfl⟩ := second
  refine ⟨copies ++ more, List.forall_mem_append.mpr ⟨each, eachMore⟩, ?_⟩
  simp [Table.keys_append]

theorem Adds.get? (adds : Adds p before after) {name : String} {s : Schema}
    (stood : before.1.get? name = some s) : after.1.get? name = some s := by
  obtain ⟨copies, _, rfl⟩ := adds
  rw [Table.get?_append, stood, Option.some_or]

theorem Adds.defines (adds : Adds p before after) {name : String} (known : name ∈ before.1.keys) :
    name ∈ after.1.keys := by
  obtain ⟨copies, _, rfl⟩ := adds
  rw [Table.keys_append]
  exact List.mem_append.mpr (Or.inl known)

theorem Adds.mem_keys (adds : Adds p before after) {name : String} (member : name ∈ after.1.keys) :
    name ∈ before.1.keys ∨ ∃ e, p e ∧ e.1 = name := by
  obtain ⟨copies, each, rfl⟩ := adds
  rw [Table.keys_append, List.mem_append] at member
  refine member.imp_right fun new => ?_
  obtain ⟨e, listed, rfl⟩ := List.mem_map.mp new
  exact ⟨e, each e listed, rfl⟩

theorem Adds.created (adds : Adds p before after) : before.2 <+: after.2 := by
  obtain ⟨copies, _, rfl⟩ := adds
  exact List.prefix_append _ _

/-- Where nothing is reported, nothing was added. -/
theorem Adds.eq_of_created (adds : Adds p before after) (same : after.2 = before.2) :
    after = before := by
  obtain ⟨copies, _, rfl⟩ := adds
  have none : copies.keys = [] := List.append_right_eq_self.mp same
  obtain rfl : copies = [] := List.map_eq_nil_iff.mp none
  simp [Table.keys]

theorem adds_addCopy (state : Progress) {name : String} {copy : Schema} (holds : p (name, copy)) :
    Adds p state (addCopy state name copy) := by
  unfold addCopy
  split
  · exact .refl state
  · exact ⟨[(name, copy)], by simpa using holds, rfl⟩

end

/-- The copy of an extension. -/
def subtypeCopy (xml : Option Xml) (copy : Copy) (s : Schema) : Schema :=
  let based := s.mapBase (·.renamed copy.base)
  { based with keywords.xml := xml, keywords.uniqueName := some copy.name }

theorem base?_subtypeCopy (xml : Option Xml) (copy : Copy) (s : Schema) :
    (subtypeCopy xml copy s).base? = s.base?.map (·.renamed copy.base) := by
  rw [← s.base?_mapBase]
  rfl

section
variable {p : String × Schema → Prop} (dictionary : Dictionary) (xml : Option Xml)

theorem adds_copySubtype (state : Progress) {entry : String × Copy}
    (holds : dictionary.isKind entry.1 .element = false → ∀ s, state.1.get? entry.1 = some s →
      p (entry.2.name, subtypeCopy xml entry.2 s)) :
    Adds p state (copySubtype dictionary xml state entry) := by
  unfold copySubtype
  split
  · exact .refl state
  · rename_i noElement
    split
    · exact .refl state
    · rename_i s found
      exact adds_addCopy state (holds (by simpa using noElement) s found)

theorem adds_copySubtypes {copies : Table Copy} (state : Progress)
    (holds : ∀ entry ∈ copies, dictionary.isKind entry.1 .element = false → ∀ s,
      p (entry.2.name, subtypeCopy xml entry.2 s)) :
    Adds p state (copies.foldl (copySubtype dictionary xml) state) := by
  induction copies generalizing state with
  | nil => exact .refl state
  | cons entry rest ih =>
    obtain ⟨here, later⟩ := List.forall_mem_cons.mp holds
    have first := adds_copySubtype dictionary xml state fun noElement s _ => here noElement s
    exact first.trans (ih _ later)

theorem more_copySubtypes (copies : Table Copy) (state : Progress) :
    Adds (fun _ => True) state (copies.foldl (copySubtype dictionary xml) state) :=
  adds_copySubtypes dictionary xml state fun _ _ _ _ => trivial

theorem adds_copyAncestors (suffix : String) {ancestors : List Reference} (state : Progress)
    (holds : ∀ r ∈ ancestors, ∀ copy, p (r.name ++ suffix, copy)) :
    Adds p state (copyAncestors xml suffix ancestors state) := by
  induction ancestors generalizing state with
  | nil => exact .refl state
  | cons ancestor rest ih =>
    obtain ⟨here, later⟩ := List.forall_mem_cons.mp holds
    rw [copyAncestors_cons]
    refine Adds.trans ?_ (ih _ later)
    unfold copyAncestor
    split
    · exact .refl state
    · exact adds_addCopy state (here _)

theorem more_copyAncestors (suffix : String) (ancestors : List Reference) (state : Progress) :
    Adds (fun _ => True) state (copyAncestors xml suffix ancestors state) :=
  adds_copyAncestors xml suffix state fun _ _ _ => trivial

end

/-- Whether a definition of the name has ancestors: it extends another one. -/
def extendsOther (maxDepth : Nat) (name : String) (s : Schema) : Bool :=
  0 < maxDepth && s.base?.any fun r => r.name != name

theorem extendsOther_iff (maxDepth : Nat) (name : String) (s : Schema) :
    extendsOther maxDepth name s = true ↔
      0 < maxDepth ∧ ∃ r, s.base? = some r ∧ r.name ≠ name := by
  simp [extendsOther, Option.any_eq_true]

theorem isEmpty_ancestors {definitions : Definitions} {name : String} {s : Schema}
    (stood : definitions.get? name = some s) (maxDepth : Nat) :
    (definitions.ancestors name maxDepth).isEmpty = !extendsOther maxDepth name s := by
  have nonempty := definitions.ancestors_ne_nil_iff name maxDepth
  rw [stood, Option.bind_some, ← extendsOther_iff] at nonempty
  cases extended : extendsOther maxDepth name s with
  | true => simpa using nonempty.mpr extended
  | false =>
    rw [extended] at nonempty
    simpa using nonempty

/-- The root of a hierarchy once it is copied: it extends the copy of its base. -/
def rebased (maxDepth : Nat) (root : String) (s : Schema) : Schema :=
  if extendsOther maxDepth root s then s.mapBase (·.withSuffix (copySuffix root)) else s

section
variable (dictionary : Dictionary) (maxDepth : Nat)

/-- The copies of one hierarchy, before the root is turned to them. -/
def copyAll (copies : Table Copy) (root : String) (xml : Option Xml) (state : Progress) :
    Progress :=
  let state := copies.foldl (copySubtype dictionary xml) state
  copyAncestors xml (copySuffix root) (state.1.ancestors root maxDepth) state

theorem adds_copyAll (copies : Table Copy) (root : String) (xml : Option Xml) (state : Progress) :
    Adds (fun _ => True) state (copyAll dictionary maxDepth copies root xml state) :=
  (more_copySubtypes dictionary xml copies state).trans (more_copyAncestors xml _ _ _)

variable {plans : Table (Table Copy)} {state : Progress} {root : String}

theorem copyHierarchy_of_unplanned (unplanned : plans.get? root = none) :
    copyHierarchy dictionary plans maxDepth state root = state := by
  rw [copyHierarchy, unplanned]

theorem copyHierarchy_eq {copies : Table Copy} (planned : plans.get? root = some copies)
    {s : Schema} (stood : state.1.get? root = some s) :
    copyHierarchy dictionary plans maxDepth state root =
      let copied := copyAll dictionary maxDepth copies root s.keywords.xml state
      if extendsOther maxDepth root s then
        (copied.1.modify root (Schema.mapBase (·.withSuffix (copySuffix root))), copied.2)
      else copied := by
  have still := (more_copySubtypes dictionary s.keywords.xml copies state).get? stood
  rw [copyHierarchy, planned, stood]
  dsimp only
  rw [isEmpty_ancestors still, copyAll]
  cases extendsOther maxDepth root s <;> rfl

/-- Without a base to copy, only the extensions are copied. -/
theorem copyHierarchy_of_bare {copies : Table Copy} (planned : plans.get? root = some copies)
    {s : Schema} (stood : state.1.get? root = some s) (bare : extendsOther maxDepth root s = false) :
    copyHierarchy dictionary plans maxDepth state root =
      copies.foldl (copySubtype dictionary s.keywords.xml) state := by
  have still := (more_copySubtypes dictionary s.keywords.xml copies state).get? stood
  have none : (copies.foldl (copySubtype dictionary s.keywords.xml) state).1.ancestors root
      maxDepth = [] := by
    rw [← List.isEmpty_iff, isEmpty_ancestors still, bare]
    rfl
  rw [copyHierarchy_eq dictionary maxDepth planned stood, bare]
  dsimp only
  rw [if_neg nofun, copyAll, none]
  rfl

theorem get?_copyHierarchy_self (defined : (plans.get? root).isSome) {s : Schema}
    (stood : state.1.get? root = some s) :
    (copyHierarchy dictionary plans maxDepth state root).1.get? root =
      some (rebased maxDepth root s) := by
  obtain ⟨copies, planned⟩ := Option.isSome_iff_exists.mp defined
  have still := (adds_copyAll dictionary maxDepth copies root s.keywords.xml state).get? stood
  rw [copyHierarchy_eq dictionary maxDepth planned stood, rebased]
  dsimp only
  split
  · rw [Table.get?_modify, if_pos rfl, still, Option.map_some]
  · exact still

/-- Apart from the root, a step leaves what the copying of its hierarchy does. -/
theorem get?_copyHierarchy_eq {copies : Table Copy} (planned : plans.get? root = some copies)
    {s : Schema} (stood : state.1.get? root = some s) {name : String} (other : name ≠ root) :
    (copyHierarchy dictionary plans maxDepth state root).1.get? name =
      (copyAll dictionary maxDepth copies root s.keywords.xml state).1.get? name := by
  rw [copyHierarchy_eq dictionary maxDepth planned stood]
  dsimp only
  split
  · rw [Table.get?_modify, if_neg other]
  · rfl

variable (plans)

theorem get?_copyHierarchy_of_ne {name : String} (other : name ≠ root) {s : Schema}
    (stood : state.1.get? name = some s) :
    (copyHierarchy dictionary plans maxDepth state root).1.get? name = some s := by
  cases planned : plans.get? root with
  | none => rw [copyHierarchy_of_unplanned dictionary maxDepth planned, stood]
  | some copies =>
    cases found : state.1.get? root with
    | none => rw [copyHierarchy, planned, found, stood]
    | some t =>
      rw [get?_copyHierarchy_eq dictionary maxDepth planned found other]
      exact (adds_copyAll dictionary maxDepth copies root t.keywords.xml state).get? stood

theorem created_copyHierarchy (state : Progress) (root : String) :
    state.2 <+: (copyHierarchy dictionary plans maxDepth state root).2 := by
  cases planned : plans.get? root with
  | none => simp [copyHierarchy_of_unplanned dictionary maxDepth planned]
  | some copies =>
    cases found : state.1.get? root with
    | none => simp [copyHierarchy, planned, found]
    | some s =>
      have adds := adds_copyAll dictionary maxDepth copies root s.keywords.xml state
      rw [copyHierarchy_eq dictionary maxDepth planned found]
      dsimp only
      split
      · exact adds.created
      · exact adds.created

theorem created_copyHierarchies (roots : List String) (state : Progress) :
    state.2 <+: (roots.foldl (copyHierarchy dictionary plans maxDepth) state).2 := by
  induction roots generalizing state with
  | nil => exact List.prefix_rfl
  | cons root rest ih =>
    exact (created_copyHierarchy dictionary maxDepth plans state root).trans (ih _)

/-- Over all roots, each definition that was there changes once, if it is a root. -/
theorem get?_copyHierarchies {roots : List String} (nodup : roots.Nodup) {name : String}
    {s : Schema} (stood : state.1.get? name = some s) :
    (roots.foldl (copyHierarchy dictionary plans maxDepth) state).1.get? name =
      some (if name ∈ roots ∧ (plans.get? name).isSome then rebased maxDepth name s else s) := by
  induction roots generalizing state s with
  | nil => simpa using stood
  | cons root rest ih =>
    obtain ⟨fresh, nodupRest⟩ := List.nodup_cons.mp nodup
    rw [List.foldl_cons]
    by_cases here : name = root
    · subst here
      by_cases defined : (plans.get? name).isSome
      · have turned := get?_copyHierarchy_self dictionary maxDepth defined stood
        rw [ih nodupRest turned, if_neg (fun later => fresh later.1), if_pos (by simp [defined])]
      · have unplanned : plans.get? name = none := by simpa using defined
        rw [copyHierarchy_of_unplanned dictionary maxDepth unplanned, ih nodupRest stood]
        simp [defined]
    · have still := get?_copyHierarchy_of_ne dictionary maxDepth plans here stood
      rw [ih nodupRest still]
      simp [here]

theorem defines_copyHierarchies {roots : List String} (nodup : roots.Nodup) {name : String}
    (known : name ∈ state.1.keys) :
    name ∈ (roots.foldl (copyHierarchy dictionary plans maxDepth) state).1.keys := by
  obtain ⟨s, stood⟩ := (Table.exists_get?_iff _ _).mpr known
  exact (Table.exists_get?_iff _ _).mp
    ⟨_, get?_copyHierarchies dictionary maxDepth plans nodup stood⟩

theorem keys_copyHierarchy {copies : Table Copy} (planned : plans.get? root = some copies)
    {s : Schema} (stood : state.1.get? root = some s) :
    (copyHierarchy dictionary plans maxDepth state root).1.keys =
      (copyAll dictionary maxDepth copies root s.keywords.xml state).1.keys := by
  rw [copyHierarchy_eq dictionary maxDepth planned stood]
  dsimp only
  split
  · rw [Table.keys_modify]
  · rfl

/-- The copy of an extension that is planned is there in the end. -/
theorem mem_keys_copyHierarchies {roots : List String} (nodup : roots.Nodup) (member : root ∈ roots)
    {copies : Table Copy} (planned : plans.get? root = some copies) (known : root ∈ state.1.keys)
    {entry : String × Copy} (listed : entry ∈ copies)
    (noElement : dictionary.isKind entry.1 .element = false) (defined : entry.1 ∈ state.1.keys) :
    entry.2.name ∈ (roots.foldl (copyHierarchy dictionary plans maxDepth) state).1.keys := by
  obtain ⟨before, after, rfl⟩ := List.append_of_mem member
  obtain ⟨nodupBefore, nodupRest, _⟩ := List.nodup_append.mp nodup
  rw [List.foldl_append, List.foldl_cons]
  refine defines_copyHierarchies dictionary maxDepth plans (List.nodup_cons.mp nodupRest).2 ?_
  -- Its turn comes on a state where the root and the original are still there.
  have atRoot := defines_copyHierarchies dictionary maxDepth plans nodupBefore known
  have original := defines_copyHierarchies dictionary maxDepth plans nodupBefore defined
  obtain ⟨s, stood⟩ := (Table.exists_get?_iff _ _).mpr atRoot
  rw [keys_copyHierarchy dictionary maxDepth plans planned stood]
  exact (more_copyAncestors _ _ _ _).defines
    (mem_keys_copySubtypes dictionary s.keywords.xml listed noElement original)

end

end HierarchyCopies
end SchemaGraph
