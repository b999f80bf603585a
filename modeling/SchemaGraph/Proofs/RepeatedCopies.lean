import SchemaGraph.Proofs.Bookkeeping
import SchemaGraph.Proofs.CopyFrame

/- Copying what has been copied. A second run does nothing exactly when the first one left the graph
   complete: no element is to be replaced, all that is planned is there, and no root has a base of its
   own. A root that has one keeps having one, the copy that it was turned to, so it is copied for
   anew on every run. -/
namespace SchemaGraph.HierarchyCopies

/-- Turning a root to a copy of its base changes it. -/
theorem extendsOther_of_rebased {maxDepth : Nat} {root : String} {s : Schema}
    (same : rebased maxDepth root s = s) : extendsOther maxDepth root s = false := by
  cases extended : extendsOther maxDepth root s with
  | false => rfl
  | true =>
    rw [rebased, if_pos extended] at same
    have bases := congrArg Schema.base? same
    rw [Schema.base?_mapBase] at bases
    obtain ⟨_, r, based, _⟩ := (extendsOther_iff _ _ _).mp extended
    rw [based, Option.map_some] at bases
    have name : r.name ++ copySuffix root = r.name :=
      congrArg Reference.name (Option.some.inj bases)
    simp [copySuffix] at name

section
variable {dictionary : Dictionary} {plans : Table (Table Copy)} {maxDepth : Nat}

/-- No extension is copied when all copies are there. -/
theorem copySubtypes_eq_self {xml : Option Xml} {state : Progress} {copies : Table Copy}
    (copied : ∀ entry ∈ copies, dictionary.isKind entry.1 .element = false →
      entry.1 ∈ state.1.keys → entry.2.name ∈ state.1.keys) :
    copies.foldl (copySubtype dictionary xml) state = state := by
  refine List.foldlRecOn (motive := fun state' => state' = state) copies _ rfl ?_
  rintro _ rfl entry listed
  unfold copySubtype
  split
  · rfl
  · rename_i noElement
    split
    · rfl
    · rename_i t found
      have defined := (Table.exists_get?_iff _ _).mp ⟨t, found⟩
      have there := copied entry listed (by simpa using noElement) defined
      exact if_pos ((Table.has_iff_mem_keys _ _).mpr there)

/-- A step changes nothing when all planned copies are there and the root has no base to be copied. -/
theorem copyHierarchy_eq_self_iff {state : Progress} {root : String} {copies : Table Copy}
    (planned : plans.get? root = some copies) {s : Schema} (stood : state.1.get? root = some s) :
    copyHierarchy dictionary plans maxDepth state root = state ↔
      (∀ entry ∈ copies, dictionary.isKind entry.1 .element = false → entry.1 ∈ state.1.keys →
        entry.2.name ∈ state.1.keys) ∧ extendsOther maxDepth root s = false := by
  constructor
  · intro same
    have after := get?_copyHierarchy_self dictionary maxDepth
      (Option.isSome_iff_exists.mpr ⟨copies, planned⟩) stood
    rw [same, stood] at after
    have settled := extendsOther_of_rebased (Option.some.inj after).symm
    refine ⟨?_, settled⟩
    intro entry listed noElement defined
    have none := (copyHierarchy_of_bare dictionary maxDepth planned stood settled).symm.trans same
    have copied := mem_keys_copySubtypes dictionary s.keywords.xml listed noElement defined
    rwa [none] at copied
  · intro ⟨copied, settled⟩
    rw [copyHierarchy_of_bare dictionary maxDepth planned stood settled,
      copySubtypes_eq_self copied]

/-- What one step changes, later steps do not take back: definitions change once, and what was
reported stays reported. -/
theorem copyHierarchy_eq_self_of_later {root : String} {rest : List String} (fresh : root ∉ rest)
    (nodup : rest.Nodup) {state : Progress}
    (same : rest.foldl (copyHierarchy dictionary plans maxDepth)
      (copyHierarchy dictionary plans maxDepth state root) = state) :
    copyHierarchy dictionary plans maxDepth state root = state := by
  cases planned : plans.get? root with
  | none => exact copyHierarchy_of_unplanned dictionary maxDepth planned
  | some copies =>
    cases stood : state.1.get? root with
    | none => rw [copyHierarchy, planned, stood]
    | some s =>
      have turned := get?_copyHierarchy_self dictionary maxDepth
        (Option.isSome_iff_exists.mpr ⟨copies, planned⟩) stood
      have last := get?_copyHierarchies dictionary maxDepth plans nodup turned
      rw [same, stood, if_neg fun later => fresh later.1] at last
      have settled := extendsOther_of_rebased (Option.some.inj last).symm
      have before := created_copyHierarchy dictionary maxDepth plans state root
      have after := created_copyHierarchies dictionary maxDepth plans rest
        (copyHierarchy dictionary plans maxDepth state root)
      rw [same] at after
      have created := (before.eq_of_length_le after.length_le).symm
      rw [copyHierarchy_eq dictionary maxDepth planned stood, settled] at created ⊢
      exact (adds_copyAll dictionary maxDepth copies root _ state).eq_of_created created

theorem copyHierarchies_eq_self_iff {roots : List String} (nodup : roots.Nodup)
    (state : Progress) : roots.foldl (copyHierarchy dictionary plans maxDepth) state = state ↔
      ∀ root ∈ roots, copyHierarchy dictionary plans maxDepth state root = state := by
  induction roots with
  | nil => simp
  | cons root rest ih =>
    obtain ⟨fresh, nodupRest⟩ := List.nodup_cons.mp nodup
    rw [List.foldl_cons, List.forall_mem_cons]
    constructor
    · intro same
      have here := copyHierarchy_eq_self_of_later fresh nodupRest same
      rw [here] at same
      exact ⟨here, (ih nodupRest).mp same⟩
    · intro ⟨here, later⟩
      rw [here]
      exact (ih nodupRest).mpr later

end

section
variable (dictionary : Dictionary) (options : Options) (d : Document)

/-- Copying leaves the document alone and reports neither copies nor removals. -/
def Idle : Prop :=
  (run dictionary options d).1 = d ∧ ∃ warnings, (run dictionary options d).2 = .ok { warnings }

/-- No element is replaced, all that is planned is there, and no root has a base to be copied. -/
structure Complete : Prop where
  kept : (replaced dictionary options d).2 = []
  copied : ∀ root copies, (plans d.definitions options.maxDepth).get? root = some copies →
    ∀ entry ∈ copies, dictionary.isKind entry.1 .element = false →
      entry.2.name ∈ d.definitions.keys
  detached : ∀ root s, d.definitions.get? root = some s →
    root ∈ (plans d.definitions options.maxDepth).keys → extendsOther options.maxDepth root s = false

variable {dictionary options d}

theorem get?_of_planned (distinct : d.definitions.Distinct) {maxDepth : Nat} {root : String}
    {copies : Table Copy} (planned : (plans d.definitions maxDepth).get? root = some copies) :
    ∃ s, d.definitions.get? root = some s ∧ ∃ type, rootType? root s = some type ∧
      copies = plan d.definitions.subtypes root maxDepth type root [] := by
  rw [get?_plans distinct] at planned
  obtain ⟨type, typed, rfl⟩ := Option.map_eq_some_iff.mp planned
  obtain ⟨s, found, typed⟩ := Option.bind_eq_some_iff.mp typed
  exact ⟨s, found, type, typed, rfl⟩

/-- A run is idle when it removes nothing and every step is. -/
theorem idle_iff_steps (distinct : d.definitions.Distinct) :
    Idle dictionary options d ↔ (replaced dictionary options d).2 = [] ∧
      ∀ root ∈ d.definitions.keys, copyHierarchy dictionary (plans d.definitions options.maxDepth)
        options.maxDepth (d.definitions, []) root = (d.definitions, []) := by
  have steps := @copyHierarchies_eq_self_iff dictionary (plans d.definitions options.maxDepth)
    options.maxDepth _ distinct (d.definitions, [])
  constructor
  · intro ⟨same, _, idle⟩
    obtain ⟨_, reported⟩ := report_run dictionary options d
    have kept : (replaced dictionary options d).2 = [] :=
      congrArg Report.removed (Except.ok.inj (reported.symm.trans idle))
    obtain ⟨left, _, reported⟩ := run_of_kept kept
    have created := congrArg Report.created (Except.ok.inj (reported.symm.trans idle))
    have definitions := congrArg Document.definitions (left.symm.trans same)
    exact ⟨kept, steps.mp (Prod.ext definitions created)⟩
  · intro ⟨kept, each⟩
    obtain ⟨left, warnings, reported⟩ := run_of_kept kept
    rw [steps.mpr each] at left reported
    exact ⟨left, warnings, reported⟩

/-- Copying is idle exactly on what is complete. -/
theorem idle_iff_complete (distinct : d.definitions.Distinct) :
    Idle dictionary options d ↔ Complete dictionary options d := by
  rw [idle_iff_steps distinct]
  constructor
  · intro ⟨kept, each⟩
    have settled {root : String} {copies : Table Copy}
        (planned : (plans d.definitions options.maxDepth).get? root = some copies) {s : Schema}
        (stood : d.definitions.get? root = some s) :=
      (copyHierarchy_eq_self_iff planned stood).mp
        (each root ((Table.exists_get?_iff _ _).mp ⟨s, stood⟩))
    refine ⟨kept, ?_, ?_⟩
    · intro root copies planned entry listed noElement
      obtain ⟨s, stood, _⟩ := get?_of_planned distinct planned
      have defined := (planned_of_get? planned entry listed).defined
      exact (settled planned stood).1 entry listed noElement defined
    · intro root s stood listed
      obtain ⟨copies, planned⟩ := (Table.exists_get?_iff _ _).mpr listed
      exact (settled planned stood).2
  · intro complete
    refine ⟨complete.kept, ?_⟩
    intro root known
    cases planned : (plans d.definitions options.maxDepth).get? root with
    | none => exact copyHierarchy_of_unplanned dictionary options.maxDepth planned
    | some copies =>
      obtain ⟨s, stood⟩ := (Table.exists_get?_iff _ _).mpr known
      refine (copyHierarchy_eq_self_iff planned stood).mpr ⟨?_, ?_⟩
      · intro entry listed noElement _
        exact complete.copied root copies planned entry listed noElement
      · exact complete.detached root s stood ((Table.exists_get?_iff _ _).mp ⟨copies, planned⟩)

theorem rootType?_rebased (maxDepth : Nat) (root : String) (s : Schema) :
    rootType? root (rebased maxDepth root s) = rootType? root s := by
  unfold rebased
  split
  · rw [rootType?, Schema.keywords_mapBase, rootType?]
  · rfl

/-- The suffix makes the base another one once more. -/
theorem extendsOther_rebased {maxDepth : Nat} {root : String} {s : Schema}
    (extended : extendsOther maxDepth root s = true) :
    extendsOther maxDepth root (rebased maxDepth root s) = true := by
  rw [rebased, if_pos extended]
  obtain ⟨deep, r, based, _⟩ := (extendsOther_iff _ _ _).mp extended
  refine (extendsOther_iff _ _ _).mpr ⟨deep, r.withSuffix (copySuffix root), ?_, ?_⟩
  · rw [Schema.base?_mapBase, based, Option.map_some]
  · intro same
    have length := congrArg String.length (show r.name ++ ("_for_" ++ root) = root from same)
    simp only [String.length_append] at length
    have five : "_for_".length = 5 := rfl
    omega

/-- What the copying leaves of a definition that was not removed. -/
theorem get?_run (distinct : d.definitions.Distinct) {name : String} {s : Schema}
    (stood : (replaced dictionary options d).1.definitions.get? name = some s) :
    (run dictionary options d).1.definitions.get? name =
      some (if ((plans d.definitions options.maxDepth).get? name).isSome then
        rebased options.maxDepth name s else s) := by
  have known := (Table.exists_get?_iff _ _).mp ⟨s, stood⟩
  rw [run_eq]
  dsimp only
  rw [get?_copyHierarchies _ _ _ (distinct_replaced distinct) stood]
  simp only [known, true_and]

/-- A root that extends another definition still does, and is turned to one more copy. -/
theorem not_idle_of_extendsOther (distinct : d.definitions.Distinct) {root : String} {s : Schema}
    (stood : (replaced dictionary options d).1.definitions.get? root = some s)
    (typed : (rootType? root s).isSome) (extended : extendsOther options.maxDepth root s = true) :
    ¬ Idle dictionary options (run dictionary options d).1 := by
  have distinctOut := distinct_run dictionary options distinct
  rw [idle_iff_complete distinctOut]
  intro complete
  obtain ⟨after, found, typedAfter, extendedAfter⟩ : ∃ after,
      (run dictionary options d).1.definitions.get? root = some after ∧
      (rootType? root after).isSome ∧ extendsOther options.maxDepth root after = true := by
    refine ⟨_, get?_run distinct stood, ?_⟩
    split
    · rw [rootType?_rebased]
      exact ⟨typed, extendsOther_rebased extended⟩
    · exact ⟨typed, extended⟩
  obtain ⟨type, typedAfter⟩ := Option.isSome_iff_exists.mp typedAfter
  have planned := get?_plans distinctOut options.maxDepth root
  rw [found, Option.bind_some, typedAfter, Option.map_some] at planned
  have detached := complete.detached root after found ((Table.exists_get?_iff _ _).mp ⟨_, planned⟩)
  exact Bool.noConfusion (extendedAfter.symm.trans detached)

end

/-- No copy is to extend the type of a root, or a definition that is planned for one. -/
def Apart (dictionary : Dictionary) (options : Options) (d : Document) : Prop :=
  ∀ root copies, (plans d.definitions options.maxDepth).get? root = some copies →
    ∀ entry ∈ copies, dictionary.isKind entry.1 .element = false →
      ∀ e ∈ d.definitions, ∀ type, rootType? e.1 e.2 = some type → entry.2.base ≠ type ∧
        entry.2.base ∉ (plan d.definitions.subtypes e.1 options.maxDepth type e.1 []).keys

section
variable {dictionary : Dictionary} {options : Options} {d : Document}

/-- What copies of extensions are like: no roots, and extending what was planned. -/
structure Made (dictionary : Dictionary) (options : Options) (d : Document)
    (e : String × Schema) : Prop where
  noRoot : rootType? e.1 e.2 = none
  based : ∀ r, e.2.base? = some r → ∃ root copies,
    (plans d.definitions options.maxDepth).get? root = some copies ∧ ∃ entry ∈ copies,
      dictionary.isKind entry.1 .element = false ∧ r.name = entry.2.base

theorem adds_copyHierarchies
    (roots : ∀ e ∈ d.definitions, (rootType? e.1 e.2).isSome →
      extendsOther options.maxDepth e.1 e.2 = false) (distinct : d.definitions.Distinct) :
    Adds (Made dictionary options d) (d.definitions, []) (d.definitions.keys.foldl
      (copyHierarchy dictionary (plans d.definitions options.maxDepth) options.maxDepth)
      (d.definitions, [])) := by
  refine List.foldlRecOn (motive := Adds (Made dictionary options d) (d.definitions, [])) _ _
    (.refl _) fun state adds root known => adds.trans ?_
  cases planned : (plans d.definitions options.maxDepth).get? root with
  | none =>
    rw [copyHierarchy_of_unplanned dictionary options.maxDepth planned]
    exact .refl state
  | some copies =>
    obtain ⟨s, stood, type, typed, _⟩ := get?_of_planned distinct planned
    have still : state.1.get? root = some s := adds.get? stood
    have bare := roots _ (Table.mem_of_get? stood) (Option.isSome_iff_exists.mpr ⟨type, typed⟩)
    rw [copyHierarchy_of_bare dictionary options.maxDepth planned still bare]
    refine adds_copySubtypes dictionary s.keywords.xml state ?_
    intro entry listed noElement t
    constructor
    · simp [rootType?, subtypeCopy]
    · intro r based
      rw [base?_subtypeCopy] at based
      obtain ⟨_, _, rfl⟩ := Option.map_eq_some_iff.mp based
      exact ⟨root, copies, planned, entry, listed, noElement, rfl⟩

/-- Copies that are apart from the roots change no plan. -/
theorem plans_append (apart : Apart dictionary options d) {more : Definitions}
    (made : ∀ e ∈ more, Made dictionary options d e) :
    plans (d.definitions ++ more) options.maxDepth = plans d.definitions options.maxDepth := by
  have noRoot : more.filterMap (fun entry => (rootType? entry.1 entry.2).map fun type =>
      (entry.1, plan (Definitions.subtypes (d.definitions ++ more)) entry.1 options.maxDepth type
        entry.1 [])) = [] := by
    refine List.filterMap_eq_nil_iff.mpr fun e member => ?_
    rw [(made e member).noRoot, Option.map_none]
  rw [plans_eq, plans_eq, List.filterMap_append, noRoot, List.append_nil]
  refine List.filterMap_congr fun entry member => ?_
  cases typed : rootType? entry.1 entry.2 with
  | none => rfl
  | some type =>
    rw [Option.map_some, Option.map_some]
    refine congrArg (fun copies => some (entry.1, copies)) (plan_congr _ _ _ fun name reached => ?_)
    have none : more.filter (fun e => e.2.base?.any fun r => r.name == name) = [] := by
      refine List.filter_eq_nil_iff.mpr fun e listed => ?_
      intro extends_
      obtain ⟨r, based, same⟩ : ∃ r, e.2.base? = some r ∧ r.name = name := by
        simpa [Option.any_eq_true] using extends_
      obtain ⟨root, copies, planned, copy, inPlan, noElement, named⟩ := (made e listed).based r based
      obtain ⟨notType, notPlanned⟩ :=
        apart root copies planned copy inPlan noElement entry member type typed
      rw [← named, same] at notType notPlanned
      exact reached.elim notType notPlanned
    rw [Definitions.subtypes_eq, Definitions.subtypes_eq, List.filter_append, none, List.append_nil]

theorem complete_again (distinct : d.definitions.Distinct)
    (bare : ∀ e ∈ d.definitions, (rootType? e.1 e.2).isSome →
      extendsOther options.maxDepth e.1 e.2 = false)
    (kept : (replaced dictionary options d).2 = [])
    (keptAgain : (replaced dictionary options (run dictionary options d).1).2 = [])
    (apart : Apart dictionary options d) :
    Complete dictionary options (run dictionary options d).1 := by
  obtain ⟨left, _⟩ := run_of_kept kept
  obtain ⟨more, made, added⟩ := adds_copyHierarchies bare distinct
  have definitions : (run dictionary options d).1.definitions = d.definitions ++ more := by
    rw [left]
    exact congrArg Prod.fst added
  have samePlans : plans (run dictionary options d).1.definitions options.maxDepth =
      plans d.definitions options.maxDepth := by
    rw [definitions]
    exact plans_append apart made
  constructor
  · exact keptAgain
  · intro root copies planned entry listed noElement
    rw [samePlans] at planned
    obtain ⟨s, stood, _⟩ := get?_of_planned distinct planned
    have known := (Table.exists_get?_iff _ _).mp ⟨s, stood⟩
    have original := (planned_of_get? planned entry listed).defined
    rw [left]
    exact mem_keys_copyHierarchies dictionary options.maxDepth _ distinct known planned known listed
      noElement original
  · intro root s found listed
    rw [samePlans] at listed
    obtain ⟨copies, planned⟩ := (Table.exists_get?_iff _ _).mpr listed
    obtain ⟨t, stood, type, typed, _⟩ := get?_of_planned distinct planned
    rw [definitions, Table.get?_append, stood, Option.some_or] at found
    cases found
    exact bare _ (Table.mem_of_get? stood) (Option.isSome_iff_exists.mpr ⟨type, typed⟩)

/-- Copying again is idle exactly when the first run left everything complete. It is not when a root
extends another definition; it is when no root does, no element is replaced, and no copy comes to
stand below the type of a root. -/
theorem copied_again_iff (dictionary : Dictionary) (options : Options) (d : Document)
    (distinct : d.definitions.Distinct) :
    (Idle dictionary options (run dictionary options d).1 ↔
      Complete dictionary options (run dictionary options d).1) ∧
    (∀ root s, (replaced dictionary options d).1.definitions.get? root = some s →
      (rootType? root s).isSome → extendsOther options.maxDepth root s = true →
        ¬ Idle dictionary options (run dictionary options d).1) ∧
    ((∀ e ∈ d.definitions, (rootType? e.1 e.2).isSome →
        extendsOther options.maxDepth e.1 e.2 = false) →
      (replaced dictionary options d).2 = [] →
      (replaced dictionary options (run dictionary options d).1).2 = [] →
      Apart dictionary options d → Idle dictionary options (run dictionary options d).1) := by
  have distinctOut := distinct_run dictionary options distinct
  have exactly : Idle dictionary options (run dictionary options d).1 ↔
      Complete dictionary options (run dictionary options d).1 := idle_iff_complete distinctOut
  refine ⟨exactly, ?_, ?_⟩
  · intro root s stood typed extended
    exact not_idle_of_extendsOther distinct stood typed extended
  · intro bare kept keptAgain apart
    exact exactly.mpr (complete_again distinct bare kept keptAgain apart)

end

/-- `Order` stands for a type that nothing extends, and extends `Record` itself. -/
def orders : Document where
  raw := [("definitions", .null)]
  flavor := .definitions
  hasSlot := true
  definitions := [
    ("Order", { extending "Record" with keywords := { uniqueName := some "OrderType" } }),
    ("Record", { keywords := { type := some "object" } })]

theorem copied_again_iff_messages : messages.definitions.Distinct ∧
    (∀ e ∈ messages.definitions, (rootType? e.1 e.2).isSome →
      extendsOther ({} : Options).maxDepth e.1 e.2 = false) ∧
    (replaced {} {} messages).2 = [] ∧ (replaced {} {} (run {} {} messages).1).2 = [] ∧
    Apart {} {} messages ∧ Idle {} {} (run {} {} messages).1 := by
  have bare : ∀ e ∈ messages.definitions, (rootType? e.1 e.2).isSome →
      extendsOther ({} : Options).maxDepth e.1 e.2 = false := by decide
  have apart : Apart {} {} messages := by
    have each : ∀ planned ∈ plans messages.definitions ({} : Options).maxDepth,
        ∀ entry ∈ planned.2, ∀ e ∈ messages.definitions, ∀ type ∈ rootType? e.1 e.2,
          entry.2.base ≠ type ∧ entry.2.base ∉ (plan messages.definitions.subtypes e.1
            ({} : Options).maxDepth type e.1 []).keys := by decide
    intro root copies planned entry listed _ e member type typed
    exact each _ (Table.mem_of_get? planned) entry listed e member type typed
  exact ⟨by decide, bare, rfl, rfl, apart,
    (copied_again_iff {} {} messages (by decide)).2.2 bare rfl rfl apart⟩

theorem acyclic_orders (name : String) : ¬ Relation.TransGen orders.definitions.Below name name := by
  have only {lower upper : String} (below : orders.definitions.Below lower upper) :
      lower = "Order" ∧ upper = "Record" := by
    obtain ⟨s, member, r, based, rfl⟩ := below
    rcases List.mem_cons.mp member with here | later
    · cases here
      cases based
      exact ⟨rfl, rfl⟩
    · cases List.mem_singleton.mp later
      cases based
  intro circle
  obtain ⟨_, first, _⟩ := Relation.TransGen.head'_iff.mp circle
  obtain ⟨_, _, last⟩ := Relation.TransGen.tail'_iff.mp circle
  exact absurd ((only first).1.symm.trans (only last).2) (by decide)

/-- `Record` is copied under one more name, and `Order` is turned to that copy. -/
theorem copies_not_idle : orders.definitions.Distinct ∧
    (∀ name, ¬ Relation.TransGen orders.definitions.Below name name) ∧
    ¬ Idle {} {} (run {} {} orders).1 := by
  refine ⟨by decide, acyclic_orders, ?_⟩
  exact @not_idle_of_extendsOther {} {} orders (by decide) "Order" _ rfl rfl rfl

end SchemaGraph.HierarchyCopies
