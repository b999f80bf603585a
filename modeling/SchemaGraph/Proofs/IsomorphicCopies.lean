import SchemaGraph.Proofs.Bookkeeping
import SchemaGraph.Proofs.FreshCopies

/- Copied hierarchies look like those that they were copied from. The plans are made on the graph as
   it comes, but carried out root by root on a graph where the roots before have been turned to
   copies already. What every step keeps: a chain of bases has the length that it had, and a copy is
   named for one pair of a definition and a root. -/
namespace SchemaGraph.HierarchyCopies
open Relation (TransGen)

/-- The definition stands for the type under its own name. -/
def RootOf (definitions : Definitions) (root type : String) : Prop :=
  ∃ s, definitions.get? root = some s ∧ rootType? root s = some type

/-- What can stand above a definition while hierarchies are copied: its bases, and the copies that
are made for a base that is a root. -/
inductive Stands (definitions : Definitions) : String → String → Prop
  | above {name base : String} (below : TransGen definitions.Below name base) :
      Stands definitions name base
  | copied {name root type base : String} (rootOf : RootOf definitions root type)
      (below : TransGen definitions.Below name root) (stands : Stands definitions root base) :
      Stands definitions name (base ++ copySuffix root)

/-- A copy of the definition is made for the root. -/
inductive Copies (dictionary : Dictionary) (definitions : Definitions) (name root : String) : Prop
  | below {type : String} (rootOf : RootOf definitions root type)
      (below : TransGen definitions.Below name type)
      (noElement : dictionary.isKind name .element = false) :
      Copies dictionary definitions name root
  | above {type : String} (rootOf : RootOf definitions root type)
      (stands : Stands definitions root name) : Copies dictionary definitions name root

/-- The names of copies are those of one pair each and not in use, and no base of a root stands below
the type that the root is for. -/
structure Separate (dictionary : Dictionary) (definitions : Definitions) : Prop where
  unique : ∀ name root other root', Copies dictionary definitions name root →
    Copies dictionary definitions other root' →
    name ++ copySuffix root = other ++ copySuffix root' → name = other ∧ root = root'
  free : ∀ name root, Copies dictionary definitions name root →
    name ++ copySuffix root ∉ definitions.keys
  apart : ∀ root type, RootOf definitions root type → ∀ base,
    TransGen definitions.Below root base → ¬ TransGen definitions.Below base type

theorem mem_keys_of_transGen {definitions : Definitions} {name base : String}
    (below : TransGen definitions.Below name base) : name ∈ definitions.keys := by
  obtain ⟨_, ⟨s, member, _⟩, _⟩ := TransGen.head'_iff.mp below
  exact (Table.mem_keys_iff _ _).mpr ⟨s, member⟩

theorem Separate.below_of_stands {dictionary : Dictionary} {definitions : Definitions}
    (separate : Separate dictionary definitions) {name base : String}
    (stands : Stands definitions name base) (known : base ∈ definitions.keys) :
    TransGen definitions.Below name base := by
  cases stands with
  | above below => exact below
  | copied rootOf _ stands => exact absurd known (separate.free _ _ (.above rootOf stands))

/-- What the copying makes of the hierarchy of a root: copies of all extensions of its type that are
no elements, and a chain of copies above the root as long as its own. -/
structure Isomorphic (dictionary : Dictionary) (original : Definitions) (root type : String)
    (s : Schema) (definitions : Definitions) (t : Schema) : Prop where
  extensions : ∀ name e b, original.get? name = some e → e.base? = some b →
    TransGen original.Below name type → dictionary.isKind name .element = false →
    definitions.get? (name ++ copySuffix root) = some (subtypeCopy s.keywords.xml
      ⟨name ++ copySuffix root, if b.name = type then root else b.name ++ copySuffix root⟩ e)
  chain : ∀ refs, original.Lineage s refs → ∃ above, definitions.Lineage t above ∧
    above.length = refs.length ∧ ∀ r ∈ above, ∃ source, Copies dictionary original source root ∧
      r.name = source ++ copySuffix root ∧ ∃ copy, definitions.get? r.name = some copy ∧
        copy.keywords.xml = s.keywords.xml

/-- The state when the hierarchies of some definitions have been copied. -/
structure Copying (dictionary : Dictionary) (original : Definitions) (maxDepth : Nat)
    (done : List String) (state : Progress) : Prop where
  /-- Of the definitions that were there, only the roots changed, each in its turn. -/
  old : ∀ name s, original.get? name = some s → state.1.get? name =
    some (if name ∈ done ∧ (rootType? name s).isSome then rebased maxDepth name s else s)
  /-- Whatever else there is, is the copy of a pair. -/
  new : ∀ name ∈ state.1.keys, name ∉ original.keys → ∃ source, ∃ root ∈ done,
    Copies dictionary original source root ∧ source ++ copySuffix root = name
  /-- A chain that starts at no copied root is as long as it was. -/
  standing : ∀ name s, original.get? name = some s → name ∉ done ∨ rootType? name s = none →
    ∀ refs, original.Lineage s refs → ∃ above, state.1.Lineage s above ∧
      above.length = refs.length ∧ ∀ r ∈ above, Stands original name r.name
  /-- What was copied has the shape of what it was copied from. -/
  copied : ∀ root ∈ done, ∀ s type, original.get? root = some s → rootType? root s = some type →
    Isomorphic dictionary original root type s state.1 (rebased maxDepth root s)

section
variable {dictionary : Dictionary} {original : Definitions} {maxDepth : Nat} {done : List String}
  {state : Progress} {root : String} {s : Schema}

theorem copying_start (distinct : original.Distinct) :
    Copying dictionary original maxDepth [] (original, []) := by
  constructor
  · intro name s stood
    simpa using stood
  · intro name known unknown
    exact absurd known unknown
  · intro name s stood _ refs lineage
    refine ⟨refs, lineage, rfl, fun r member => .above ?_⟩
    exact (lineage.mem_names_iff distinct stood r.name).mp ⟨r, member, rfl⟩
  · intro root none
    cases none

/-- Nothing is done for a definition that stands for itself. -/
theorem Copying.skip (copying : Copying dictionary original maxDepth done state)
    (stood : original.get? root = some s) (noRoot : rootType? root s = none) :
    Copying dictionary original maxDepth (done ++ [root]) state := by
  have itself {t : Schema} (found : original.get? root = some t) : rootType? root t = none := by
    cases stood.symm.trans found
    exact noRoot
  constructor
  · intro name t found
    rw [copying.old name t found]
    by_cases here : name = root
    · subst here
      simp [itself found]
    · simp [here]
  · intro name known unknown
    obtain ⟨source, other, member, copies, same⟩ := copying.new name known unknown
    exact ⟨source, other, List.mem_append.mpr (Or.inl member), copies, same⟩
  · intro name t found stands
    refine copying.standing name t found (stands.imp_left fun fresh member => fresh ?_)
    exact List.mem_append.mpr (Or.inl member)
  · intro name member t type found typed
    rcases List.mem_append.mp member with before | last
    · exact copying.copied name before t type found typed
    · cases List.mem_singleton.mp last
      rw [itself found] at typed
      cases typed

/-- The names of copies for a root that is still to come are free. -/
theorem Copying.free (copying : Copying dictionary original maxDepth done state)
    (separate : Separate dictionary original) (fresh : root ∉ done) {source : String}
    (copies : Copies dictionary original source root) :
    source ++ copySuffix root ∉ state.1.keys := by
  intro taken
  obtain ⟨other, root', member, copies', same⟩ :=
    copying.new _ taken (separate.free source root copies)
  obtain ⟨_, rfl⟩ := separate.unique _ _ _ _ copies' copies same
  exact fresh member

end

theorem Isomorphic.retained {dictionary : Dictionary} {original before after : Definitions}
    (separate : Separate dictionary original) {root type : String} {s t : Schema}
    (rootOf : RootOf original root type)
    (retains : ∀ name ∉ original.keys, ∀ e, before.get? name = some e → after.get? name = some e)
    (isomorphic : Isomorphic dictionary original root type s before t) :
    Isomorphic dictionary original root type s after t := by
  constructor
  · intro name e b stood extended below noElement
    have unknown := separate.free name root (.below rootOf below noElement)
    exact retains _ unknown _ (isomorphic.extensions name e b stood extended below noElement)
  · intro refs lineage
    obtain ⟨above, chain, length, each⟩ := isomorphic.chain refs lineage
    have unknown : ∀ r ∈ above, r.name ∉ original.keys := by
      intro r member
      obtain ⟨source, copies, named, _⟩ := each r member
      exact named ▸ separate.free source root copies
    refine ⟨above, chain.retained fun r member => retains _ (unknown r member), length, ?_⟩
    intro r member
    obtain ⟨source, copies, named, copy, found, annotated⟩ := each r member
    exact ⟨source, copies, named, copy, retains _ (unknown r member) _ found, annotated⟩

/-- Below a whole chain, a root is turned to the copy of its base if it has one. -/
theorem rebased_eq {definitions : Definitions} {maxDepth : Nat} {root : String} {s : Schema}
    (stood : definitions.get? root = some s) {refs : List Reference}
    (lineage : definitions.Lineage s refs) (deep : refs.length ≤ maxDepth) :
    rebased maxDepth root s = s.mapBase (·.withSuffix (copySuffix root)) := by
  unfold rebased
  split
  · rfl
  · rename_i bare
    cases lineage with
    | top none => exact (Schema.mapBase_of_base?_eq_none none _).symm
    | @step _ _ r rest extended defined above =>
      have other := (Definitions.Lineage.step extended defined above).name_ne stood r
        List.mem_cons_self
      have positive : 0 < maxDepth := Nat.lt_of_lt_of_le (Nat.succ_pos _) deep
      exact absurd ((extendsOther_iff _ _ _).mpr ⟨positive, r, extended, other⟩) bare

/-- Whether the source of a copy has been turned already makes no difference to the copy. -/
theorem subtypeCopy_rebased (xml : Option Xml) (copy : Copy) (maxDepth : Nat) (root : String)
    (s : Schema) : subtypeCopy xml copy (rebased maxDepth root s) = subtypeCopy xml copy s := by
  unfold rebased
  split
  · rw [subtypeCopy, Schema.mapBase_mapBase]
    rfl
  · rfl

section
variable {dictionary : Dictionary} {original : Definitions} {maxDepth : Nat} {done : List String}
  {state : Progress} {root type : String} {s : Schema}
  (distinct : original.Distinct)
  (closed : ∀ name base, original.Below name base → base ∈ original.keys)
  (chains : original.ChainsWithin maxDepth) (separate : Separate dictionary original)
  (copying : Copying dictionary original maxDepth done state) (fresh : root ∉ done)
  (stood : original.get? root = some s) (typed : rootType? root s = some type)

theorem planned_root (maxDepth : Nat) (distinct : original.Distinct)
    (stood : original.get? root = some s) (typed : rootType? root s = some type) :
    (plans original maxDepth).get? root =
      some (plan original.subtypes root maxDepth type root []) := by
  rw [get?_plans distinct, stood, Option.bind_some, typed, Option.map_some]

include copying fresh stood

theorem Copying.get?_root : state.1.get? root = some s := by
  rw [copying.old root s stood, if_neg fun turned => fresh turned.1]

include distinct typed in
/-- The turn of the root adds what the copying of its hierarchy adds, and changes the root alone. -/
theorem Copying.turn :
    let copied := copyAll dictionary maxDepth (plan original.subtypes root maxDepth type root []) root
      s.keywords.xml state
    let next := copyHierarchy dictionary (plans original maxDepth) maxDepth state root
    next.1.get? root = some (rebased maxDepth root s) ∧ next.1.keys = copied.1.keys ∧
      ∀ name ≠ root, next.1.get? name = copied.1.get? name := by
  have planned := planned_root maxDepth distinct stood typed
  have here := copying.get?_root fresh stood
  refine ⟨?_, ?_, ?_⟩
  · exact get?_copyHierarchy_self dictionary maxDepth
      (Option.isSome_iff_exists.mpr ⟨_, planned⟩) here
  · exact keys_copyHierarchy dictionary maxDepth _ planned here
  · intro name other
    exact get?_copyHierarchy_eq dictionary maxDepth planned here other

include chains

/-- What is found above the root when its turn comes is the whole chain that stands there. -/
theorem Copying.ancestors {refs : List Reference} (lineage : original.Lineage s refs) :
    ∃ above, state.1.Lineage s above ∧ above.length = refs.length ∧ above.length ≤ maxDepth ∧
      (∀ r ∈ above, Stands original root r.name) ∧
      Definitions.ancestors ((plan original.subtypes root maxDepth type root []).foldl
        (copySubtype dictionary s.keywords.xml) state).1 root maxDepth = above := by
  obtain ⟨above, standing, length, stands⟩ :=
    copying.standing root s stood (Or.inl fresh) refs lineage
  have short : above.length ≤ maxDepth := by
    rw [length]
    exact chains root refs (stood ▸ lineage.ascends)
  have here := copying.get?_root fresh stood
  have adds := more_copySubtypes dictionary s.keywords.xml
    (plan original.subtypes root maxDepth type root []) state
  have standsStill := standing.retained fun _ _ _ => adds.get?
  exact ⟨above, standing, length, short, stands, standsStill.ancestors_eq (adds.get? here) short⟩

include distinct closed typed

/-- Whatever is added is the copy of a pair. -/
theorem Copying.named {name : String} (member : name ∈
      (copyAll dictionary maxDepth (plan original.subtypes root maxDepth type root []) root
        s.keywords.xml state).1.keys) :
    name ∈ state.1.keys ∨ ∃ source, Copies dictionary original source root ∧
      source ++ copySuffix root = name := by
  have rootOf : RootOf original root type := ⟨s, stood, typed⟩
  obtain ⟨refs, lineage, _⟩ := Definitions.exists_lineage closed chains stood
  obtain ⟨above, _, _, _, stands, ancestors⟩ :=
    copying.ancestors chains fresh stood lineage
  rw [copyAll, ancestors] at member
  rcases mem_keys_of_copyAncestors _ _ member with before | ⟨r, listed, same⟩
  · rcases mem_keys_of_copySubtypes _ _ before with old | ⟨entry, listed, noElement, same⟩
    · exact Or.inl old
    · have acyclic := Definitions.not_transGen_self distinct closed chains type
      obtain ⟨below, _, _, planned⟩ := plannedBelow_plan acyclic maxDepth entry listed
      rw [planned] at same
      exact Or.inr ⟨entry.1, .below rootOf below noElement, same⟩
  · exact Or.inr ⟨r.name, .above rootOf (stands r listed), same⟩

include separate

/-- The planned copies are made, each from its definition as it stood at the start. -/
theorem Copying.extension {name : String} {e : Schema} {b : Reference}
    (found : original.get? name = some e) (extended : e.base? = some b)
    (below : TransGen original.Below name type)
    (noElement : dictionary.isKind name .element = false) :
    ((plan original.subtypes root maxDepth type root []).foldl
      (copySubtype dictionary s.keywords.xml) state).1.get? (name ++ copySuffix root) =
      some (subtypeCopy s.keywords.xml
        ⟨name ++ copySuffix root, if b.name = type then root else b.name ++ copySuffix root⟩ e) := by
  obtain ⟨steps, refs, climbs, ascends, length⟩ := exists_climbs distinct below
  have within : steps < maxDepth := by
    have short := chains name refs ascends
    omega
  obtain ⟨copy, listed⟩ : ∃ copy, (name, copy) ∈
      plan original.subtypes root maxDepth type root [] :=
    (Table.mem_keys_iff _ _).mp (mem_keys_plan_of_climbs climbs within root [])
  -- The plan names the only base that the definition has.
  have acyclic := Definitions.not_transGen_self distinct closed chains type
  obtain ⟨_, base, ⟨e', member, b', extended', named⟩, planned⟩ :=
    plannedBelow_plan acyclic maxDepth _ listed
  cases (Table.get?_of_mem distinct member).symm.trans found
  cases extended.symm.trans extended'
  subst named
  have free := copying.free separate fresh (.below ⟨s, stood, typed⟩ below noElement)
  have made := get?_copySubtypes dictionary s.keywords.xml
    (nodup_names_plan original root type maxDepth) listed (by rw [planned]; exact free) noElement
    (copying.old name e found)
  dsimp only at planned made
  rw [planned] at made
  rw [made]
  by_cases turned : name ∈ done ∧ (rootType? name e).isSome
  · rw [if_pos turned, subtypeCopy_rebased]
  · rw [if_neg turned]

/-- The names of extensions and of bases have different copies, as no base stands below the type. -/
theorem Copying.free_above {base : String} (stands : Stands original root base) :
    base ++ copySuffix root ∉ ((plan original.subtypes root maxDepth type root []).foldl
      (copySubtype dictionary s.keywords.xml) state).1.keys := by
  intro taken
  have rootOf : RootOf original root type := ⟨s, stood, typed⟩
  rcases mem_keys_of_copySubtypes dictionary s.keywords.xml taken with old | planned
  · exact copying.free separate fresh (.above rootOf stands) old
  · obtain ⟨entry, listed, _, same⟩ := planned
    have acyclic := Definitions.not_transGen_self distinct closed chains type
    obtain ⟨below, _, _, named⟩ := plannedBelow_plan acyclic maxDepth entry listed
    rw [named, String.append_left_inj] at same
    rw [same] at below
    cases stands with
    | above above => exact separate.apart root type rootOf _ above below
    | copied rootOf' _ stands' =>
      exact separate.free _ _ (.above rootOf' stands') (mem_keys_of_transGen below)

/-- Above the root, the copies of its bases follow the chain as it stands when its turn comes. -/
theorem Copying.chain {refs : List Reference} (lineage : original.Lineage s refs) :
    ∃ above, state.1.Lineage s above ∧ above.length = refs.length ∧
      (∀ r ∈ above, Stands original root r.name) ∧
      (copyAll dictionary maxDepth (plan original.subtypes root maxDepth type root []) root
        s.keywords.xml state).1.Lineage (rebased maxDepth root s)
          (above.map (·.withSuffix (copySuffix root))) ∧
      ∀ r ∈ above, ∃ copy,
        (copyAll dictionary maxDepth (plan original.subtypes root maxDepth type root []) root
          s.keywords.xml state).1.get? (r.name ++ copySuffix root) = some copy ∧
        copy.keywords.xml = s.keywords.xml := by
  obtain ⟨above, standing, length, short, stands, ancestors⟩ :=
    copying.ancestors chains fresh stood lineage
  have adds := more_copySubtypes dictionary s.keywords.xml
    (plan original.subtypes root maxDepth type root []) state
  have here := copying.get?_root fresh stood
  have free := fun r member => copying.free_above distinct closed chains separate fresh stood typed
    (stands r member)
  have turned : (rebased maxDepth root s).base? =
      s.base?.map (·.withSuffix (copySuffix root)) := by
    rw [rebased_eq here standing short, s.base?_mapBase]
  obtain ⟨chain, annotated⟩ := lineage_copyAncestors s.keywords.xml (copySuffix root)
    (standing.retained fun _ _ _ => adds.get?) free turned
  rw [copyAll, ancestors]
  exact ⟨above, standing, length, stands, chain, annotated⟩

/-- The hierarchy of the root is copied before the root is turned to it. -/
theorem Copying.isomorphic : Isomorphic dictionary original root type s
    (copyAll dictionary maxDepth (plan original.subtypes root maxDepth type root []) root
      s.keywords.xml state).1 (rebased maxDepth root s) := by
  have rootOf : RootOf original root type := ⟨s, stood, typed⟩
  constructor
  · intro name e b found extended below noElement
    refine (more_copyAncestors _ _ _ _).get? ?_
    exact copying.extension distinct closed chains separate fresh stood typed found extended below
      noElement
  · intro refs lineage
    obtain ⟨above, _, length, stands, chain, annotated⟩ :=
      copying.chain distinct closed chains separate fresh stood typed lineage
    refine ⟨_, chain, by rw [List.length_map, length], ?_⟩
    intro r member
    obtain ⟨source, listed, rfl⟩ := List.mem_map.mp member
    obtain ⟨copy, found, xml⟩ := annotated source listed
    exact ⟨source.name, .above rootOf (stands source listed), rfl, copy, found, xml⟩

/-- Chains that come through the root go on with the copies of its bases, which stand in for as many
definitions. -/
theorem Copying.standing_step {name : String} {t : Schema} (found : original.get? name = some t)
    (stands : name ∉ done ∨ rootType? name t = none) {refs : List Reference}
    (lineage : original.Lineage t refs) : ∃ above,
    Definitions.Lineage
      (copyHierarchy dictionary (plans original maxDepth) maxDepth state root).1 t above ∧
    above.length = refs.length ∧ ∀ r ∈ above, Stands original name r.name := by
  have rootOf : RootOf original root type := ⟨s, stood, typed⟩
  have here := copying.get?_root fresh stood
  have known : root ∈ original.keys := (Table.exists_get?_iff _ _).mp ⟨s, stood⟩
  obtain ⟨turned, _, beside⟩ := copying.turn distinct fresh stood typed
  have adds := adds_copyAll dictionary maxDepth
    (plan original.subtypes root maxDepth type root []) root s.keywords.xml state
  obtain ⟨refsRoot, lineageRoot, _⟩ := Definitions.exists_lineage closed chains stood
  obtain ⟨above, standing, _, standsRoot, chain, _⟩ :=
    copying.chain distinct closed chains separate fresh stood typed lineageRoot
  obtain ⟨before, standingBefore, length, standsBefore⟩ :=
    copying.standing name t found stands refs lineage
  have chainAfter : Definitions.Lineage
      (copyHierarchy dictionary (plans original maxDepth) maxDepth state root).1
      (rebased maxDepth root s) (above.map (·.withSuffix (copySuffix root))) := by
    refine chain.retained fun r member e defined => ?_
    obtain ⟨source, listed, rfl⟩ := List.mem_map.mp member
    have unknown := separate.free source.name root (.above rootOf (standsRoot source listed))
    have other : source.name ++ copySuffix root ≠ root := fun same => by
      rw [same] at unknown
      exact unknown known
    exact (beside _ other).trans defined
  obtain ⟨after, lineageAfter, same, each⟩ := Definitions.Lineage.redirected
    (adds.get? here) (standing.retained fun _ _ _ => adds.get?) turned chainAfter
    (List.length_map _) (fun other e differs defined => (beside other differs).trans defined)
    (standingBefore.retained fun _ _ _ => adds.get?)
  refine ⟨after, lineageAfter, same.trans length, fun r member => ?_⟩
  rcases each r member with old | ⟨⟨passed, inside, named⟩, new⟩
  · exact standsBefore r old
  · obtain ⟨source, listed, rfl⟩ := List.mem_map.mp new
    have below := separate.below_of_stands (named ▸ standsBefore passed inside) known
    exact .copied rootOf below (standsRoot source listed)

/-- The next root is copied. -/
theorem Copying.step : Copying dictionary original maxDepth (done ++ [root])
    (copyHierarchy dictionary (plans original maxDepth) maxDepth state root) := by
  have rootOf : RootOf original root type := ⟨s, stood, typed⟩
  have known : root ∈ original.keys := (Table.exists_get?_iff _ _).mp ⟨s, stood⟩
  obtain ⟨turned, keys, beside⟩ := copying.turn distinct fresh stood typed
  have stays {name : String} (other : name ≠ root) {t : Schema}
      (found : state.1.get? name = some t) :=
    get?_copyHierarchy_of_ne dictionary maxDepth (plans original maxDepth) other found
  have unlike {name : String} (unknown : name ∉ original.keys) : name ≠ root :=
    fun same => unknown (same ▸ known)
  have isomorphic := copying.isomorphic distinct closed chains separate fresh stood typed
  constructor
  · intro name t found
    by_cases same : name = root
    · subst same
      cases stood.symm.trans found
      rw [turned, if_pos ⟨by simp, Option.isSome_iff_exists.mpr ⟨type, typed⟩⟩]
    · rw [stays same (copying.old name t found)]
      simp [same]
  · intro name member unknown
    rw [keys] at member
    rcases copying.named distinct closed chains fresh stood typed member with before | new
    · obtain ⟨source, other, inside, copies, same⟩ := copying.new name before unknown
      exact ⟨source, other, List.mem_append.mpr (Or.inl inside), copies, same⟩
    · obtain ⟨source, copies, same⟩ := new
      exact ⟨source, root, by simp, copies, same⟩
  · intro name t found stands refs lineage
    have otherwise : name ∉ done ∨ rootType? name t = none :=
      stands.imp_left fun fresh member => fresh (List.mem_append.mpr (Or.inl member))
    exact copying.standing_step distinct closed chains separate fresh stood typed found otherwise
      lineage
  · intro other member t type' found typed'
    rcases List.mem_append.mp member with before | last
    · refine (copying.copied other before t type' found typed').retained separate
        ⟨t, found, typed'⟩ ?_
      intro name unknown e defined
      exact stays (unlike unknown) defined
    · cases List.mem_singleton.mp last
      cases stood.symm.trans found
      cases typed.symm.trans typed'
      refine isomorphic.retained separate rootOf ?_
      intro name unknown e defined
      exact (beside name (unlike unknown)).trans defined

end

section
variable {dictionary : Dictionary} {original : Definitions} {maxDepth : Nat}

/-- One root after the other. -/
theorem Copying.steps (distinct : original.Distinct)
    (closed : ∀ name base, original.Below name base → base ∈ original.keys)
    (chains : original.ChainsWithin maxDepth) (separate : Separate dictionary original)
    {done roots : List String} (nodup : (done ++ roots).Nodup)
    (known : ∀ root ∈ roots, root ∈ original.keys) {state : Progress}
    (copying : Copying dictionary original maxDepth done state) :
    Copying dictionary original maxDepth (done ++ roots)
      (roots.foldl (copyHierarchy dictionary (plans original maxDepth) maxDepth) state) := by
  induction roots generalizing done state with
  | nil =>
    rw [List.append_nil]
    exact copying
  | cons root rest ih =>
    obtain ⟨here, later⟩ := List.forall_mem_cons.mp known
    obtain ⟨s, stood⟩ := (Table.exists_get?_iff _ _).mpr here
    have fresh : root ∉ done := fun member =>
      (List.nodup_append.mp nodup).2.2 root member root List.mem_cons_self rfl
    have next : Copying dictionary original maxDepth (done ++ [root])
        (copyHierarchy dictionary (plans original maxDepth) maxDepth state root) := by
      cases typed : rootType? root s with
      | none =>
        have unplanned : (plans original maxDepth).get? root = none := by
          rw [get?_plans distinct, stood, Option.bind_some, typed, Option.map_none]
        rw [copyHierarchy_of_unplanned dictionary maxDepth unplanned]
        exact copying.skip stood typed
      | some type => exact copying.step distinct closed chains separate fresh stood typed
    rw [List.append_cons] at nodup ⊢
    exact ih nodup later next

theorem copying_all (distinct : original.Distinct)
    (closed : ∀ name base, original.Below name base → base ∈ original.keys)
    (chains : original.ChainsWithin maxDepth) (separate : Separate dictionary original) :
    Copying dictionary original maxDepth original.keys (original.keys.foldl
      (copyHierarchy dictionary (plans original maxDepth) maxDepth) (original, [])) := by
  have nodup : ([] ++ original.keys).Nodup := distinct
  exact (copying_start distinct).steps distinct closed chains separate nodup fun _ => id

end

section
variable {dictionary : Dictionary} {options : Options} {d : Document}

/-- What the definition of a root becomes. -/
def rerooted (root : String) (s : Schema) : Schema := s.mapBase (·.withSuffix (copySuffix root))

/-- Under separate names and without replaced elements, the run copies all extensions of the type of
each root, and its bases above it, and changes nothing but the bases of the roots. -/
theorem isomorphic_copies (distinct : d.definitions.Distinct) (closed : d.Closed)
    (chains : d.definitions.ChainsWithin options.maxDepth)
    (few : copiesFor (plans d.definitions options.maxDepth) d.definitions options.maxDepth
      (elements dictionary options d).keys ≤ threshold)
    (separate : Separate dictionary d.definitions) : ∃ out warnings created,
    run dictionary options d = ({ d with definitions := out }, .ok { warnings, created }) ∧
    (∀ root s type, d.definitions.get? root = some s → rootType? root s = some type →
      (∀ name e b, d.definitions.get? name = some e → e.base? = some b →
        TransGen d.definitions.Below name type → dictionary.isKind name .element = false →
          name ++ copySuffix root ∈ created ∧
          out.get? (name ++ copySuffix root) = some (subtypeCopy s.keywords.xml
            ⟨name ++ copySuffix root, if b.name = type then root else b.name ++ copySuffix root⟩
            e)) ∧
      out.get? root = some (rerooted root s) ∧
      ∃ before after, d.definitions.Lineage s before ∧ out.Lineage (rerooted root s) after ∧
        d.definitions.ancestors root options.maxDepth = before ∧
        out.ancestors root options.maxDepth = after ∧ after.length = before.length ∧
        ∀ r ∈ after, ∃ source copy, r.name = source ++ copySuffix root ∧
          out.get? r.name = some copy ∧ copy.keywords.xml = s.keywords.xml) ∧
    ∀ name s, d.definitions.get? name = some s → rootType? name s = none →
      out.get? name = some s := by
  have known := d.mem_keys_of_below closed
  have kept : (replaced dictionary options d).2 = [] := by
    simp only [replaced, if_neg (Nat.not_lt.mpr few)]
  obtain ⟨left, warnings, reported⟩ := run_of_kept kept
  have copying := copying_all distinct known chains separate
  have reports : Copied d.definitions.keys (d.definitions, []) := (List.append_nil _).symm
  replace reports := reports.copyHierarchies dictionary (plans d.definitions options.maxDepth)
    options.maxDepth d.definitions.keys
  generalize d.definitions.keys.foldl (copyHierarchy dictionary (plans d.definitions
    options.maxDepth) options.maxDepth) (d.definitions, []) = state at left reported copying reports
  refine ⟨state.1, warnings, state.2, Prod.ext left reported, ?_, ?_⟩
  · intro root s type stood typed
    have rootOf : RootOf d.definitions root type := ⟨s, stood, typed⟩
    have listed : root ∈ d.definitions.keys := (Table.exists_get?_iff _ _).mp ⟨s, stood⟩
    obtain ⟨before, lineage, short⟩ := Definitions.exists_lineage known chains stood
    have isomorphic := copying.copied root listed s type stood typed
    have found := copying.old root s stood
    rw [if_pos ⟨listed, Option.isSome_iff_exists.mpr ⟨type, typed⟩⟩] at found
    rw [rebased_eq stood lineage short] at isomorphic found
    obtain ⟨after, chain, length, each⟩ := isomorphic.chain before lineage
    refine ⟨?_, found, before, after, lineage, chain, lineage.ancestors_eq stood short,
      chain.ancestors_eq found (length ▸ short), length, ?_⟩
    · intro name e b defined extended below noElement
      have made := isomorphic.extensions name e b defined extended below noElement
      refine ⟨?_, made⟩
      have present := (Table.exists_get?_iff _ _).mp ⟨_, made⟩
      rw [reports] at present
      exact (List.mem_append.mp present).resolve_left
        (separate.free name root (.below rootOf below noElement))
    · intro r member
      obtain ⟨source, _, named, copy, defined, annotated⟩ := each r member
      exact ⟨source, copy, named, defined, annotated⟩
  · intro name s stood noRoot
    rw [copying.old name s stood, noRoot]
    simp

end

/-- `Envelope` stands for a type that nothing extends. `Message` extends it and stands for `Base`. -/
def letters : Document where
  raw := [("definitions", .null)]
  flavor := .definitions
  hasSlot := true
  definitions := [
    ("Frame", { keywords := { type := some "object" } }),
    ("Envelope", { extending "Frame" with keywords := { uniqueName := some "EnvelopeType" } }),
    ("Message", { extending "Envelope" with
      keywords := { uniqueName := some "Base", xml := some { uri := some "urn:mail" } } }),
    ("Base", { keywords := { type := some "object" } }), ("Special", extending "Base"),
    ("Detailed", extending "Special")]

theorem rootOf_letters {root type : String} (rootOf : RootOf letters.definitions root type) :
    (root, type) ∈ [("Envelope", "EnvelopeType"), ("Message", "Base")] := by
  obtain ⟨s, stood, typed⟩ := rootOf
  have each : ∀ e ∈ letters.definitions, ∀ type ∈ rootType? e.1 e.2,
      (e.1, type) ∈ [("Envelope", "EnvelopeType"), ("Message", "Base")] := by decide
  exact each _ (Table.mem_of_get? stood) type typed

/-- Every name with all names that may stand above it. -/
def lettersAbove : List (String × String) :=
  [("Envelope", "Frame"), ("Message", "Envelope"), ("Message", "Frame"), ("Special", "Base"),
    ("Detailed", "Special"), ("Detailed", "Base"), ("Message", "Frame_for_Envelope")]

theorem transGen_letters {name base : String}
    (below : TransGen letters.definitions.Below name base) : (name, base) ∈ lettersAbove.take 6 := by
  have edges : ∀ e ∈ letters.definitions, ∀ r ∈ e.2.base?,
      (e.1, r.name) ∈ lettersAbove.take 6 ∧
        ∀ p ∈ lettersAbove.take 6, p.1 = r.name → (e.1, p.2) ∈ lettersAbove.take 6 := by decide
  induction below using TransGen.head_induction_on with
  | single edge =>
    obtain ⟨s, member, r, extended, rfl⟩ := edge
    exact (edges _ member r extended).1
  | head edge _ ih =>
    obtain ⟨s, member, r, extended, rfl⟩ := edge
    exact (edges _ member r extended).2 _ ih rfl

theorem stands_letters {name base : String} (stands : Stands letters.definitions name base) :
    (name, base) ∈ lettersAbove := by
  have copies : ∀ below ∈ lettersAbove.take 6, ∀ root ∈ [("Envelope", "EnvelopeType"),
      ("Message", "Base")], below.2 = root.1 → ∀ p ∈ lettersAbove, p.1 = root.1 →
        (below.1, p.2 ++ copySuffix root.1) ∈ lettersAbove := by decide
  induction stands with
  | above below => exact List.mem_of_mem_take (transGen_letters below)
  | copied rootOf below _ ih =>
    exact copies _ (transGen_letters below) _ (rootOf_letters rootOf) rfl _ ih rfl

theorem separate_letters : Separate {} letters.definitions := by
  -- The pairs of which copies may be made.
  let pairs := [("Frame", "Envelope"), ("Envelope", "Message"), ("Frame", "Message"),
    ("Frame_for_Envelope", "Message"), ("Special", "Message"), ("Detailed", "Message")]
  have listed {name root : String} (copies : Copies {} letters.definitions name root) :
      (name, root) ∈ pairs := by
    have below : ∀ p ∈ lettersAbove.take 6, ∀ root ∈ [("Envelope", "EnvelopeType"),
        ("Message", "Base")], p.2 = root.2 → (p.1, root.1) ∈ pairs := by decide
    have above : ∀ p ∈ lettersAbove, ∀ root ∈ [("Envelope", "EnvelopeType"), ("Message", "Base")],
        p.1 = root.1 → (p.2, root.1) ∈ pairs := by decide
    cases copies with
    | below rootOf extension _ =>
      exact below _ (transGen_letters extension) _ (rootOf_letters rootOf) rfl
    | above rootOf stands => exact above _ (stands_letters stands) _ (rootOf_letters rootOf) rfl
  constructor
  · intro name root other root' copies copies' same
    have different : ∀ p ∈ pairs, ∀ q ∈ pairs,
        p.1 ++ copySuffix p.2 = q.1 ++ copySuffix q.2 → p.1 = q.1 ∧ p.2 = q.2 := by decide
    exact different _ (listed copies) _ (listed copies') same
  · intro name root copies
    have free : ∀ p ∈ pairs, p.1 ++ copySuffix p.2 ∉ letters.definitions.keys := by decide
    exact free _ (listed copies)
  · intro root type rootOf base above below
    have apart : ∀ root ∈ [("Envelope", "EnvelopeType"), ("Message", "Base")],
        ∀ p ∈ lettersAbove.take 6, p.1 = root.1 → (p.2, root.2) ∉ lettersAbove.take 6 := by decide
    exact apart _ (rootOf_letters rootOf) _ (transGen_letters above) rfl (transGen_letters below)

theorem isomorphic_copies_letters : letters.definitions.Distinct ∧ letters.Closed ∧
    letters.definitions.ChainsWithin ({} : Options).maxDepth ∧
    copiesFor (plans letters.definitions ({} : Options).maxDepth) letters.definitions
      ({} : Options).maxDepth (elements {} {} letters).keys ≤ threshold ∧
    Separate {} letters.definitions ∧ ∃ out warnings created,
      run {} {} letters = ({ letters with definitions := out }, .ok { warnings, created }) ∧
      "Detailed_for_Message" ∈ created ∧ (out.ancestors "Message" 64).length = 2 := by
  have distinct : letters.definitions.Distinct := by decide
  have chains : letters.definitions.ChainsWithin ({} : Options).maxDepth := by
    refine Definitions.chainsWithin_of_rank (fun name => letters.definitions.keys.idxOf name)
      (by decide) fun name => ?_
    exact List.idxOf_le_length.trans (by decide)
  have few : copiesFor (plans letters.definitions ({} : Options).maxDepth) letters.definitions
      ({} : Options).maxDepth (elements {} {} letters).keys ≤ threshold := by decide
  obtain ⟨out, warnings, created, ran, roots, _⟩ :=
    @isomorphic_copies {} {} letters distinct rfl chains few separate_letters
  obtain ⟨extensions, _, before, after, _, _, was, found, length, _⟩ :=
    roots "Message" _ "Base" rfl rfl
  have special : letters.definitions.Below "Special" "Base" :=
    ⟨extending "Base", Table.mem_of_get? rfl, _, rfl, rfl⟩
  have detailed : letters.definitions.Below "Detailed" "Special" :=
    ⟨extending "Special", Table.mem_of_get? rfl, _, rfl, rfl⟩
  refine ⟨distinct, rfl, chains, few, separate_letters, out, warnings, created, ran, ?_, ?_⟩
  · exact (extensions "Detailed" _ _ rfl rfl (.head detailed (.single special)) rfl).1
  · rw [found, length, ← was]
    rfl

end SchemaGraph.HierarchyCopies
