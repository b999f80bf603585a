import Mathlib.Logic.Relation
import SchemaGraph.Proofs.HierarchyCopies

/- What is planned for a root. The plan goes down from the type that the root stands for, over the
   table of extensions alone: it has an entry for every definition that is reached within the depth,
   and the entry of each names the copy of its base, or the root in place of the type. -/
namespace SchemaGraph

namespace Definitions

/-- The definitions that extend a base, in their order. -/
theorem subtypes_eq (definitions : Definitions) (base : String) :
    (definitions.subtypes.get? base).getD [] = Table.keys
      (definitions.filter fun entry => entry.2.base?.any fun r => r.name == base) := by
  induction definitions using List.reverseRecOn with
  | nil => rfl
  | append_singleton definitions entry ih =>
    obtain ⟨name, s⟩ := entry
    rw [subtypes_concat, List.filter_append, Table.keys_append, ← ih]
    cases extended : s.base? with
    | none => simp [extended, Table.keys]
    | some r =>
      dsimp only
      rw [Table.get?_put]
      by_cases same : r.name = base <;> simp [same, extended, Table.keys]

end Definitions

namespace HierarchyCopies

/-- The type that a definition stands for under its own name. -/
def rootType? (name : String) (s : Schema) : Option String :=
  s.keywords.uniqueName.filter fun type => type ≠ name

theorem plans_eq (definitions : Definitions) (maxDepth : Nat) :
    plans definitions maxDepth = definitions.filterMap fun entry =>
      (rootType? entry.1 entry.2).map fun type =>
        (entry.1, plan definitions.subtypes entry.1 maxDepth type entry.1 []) := by
  unfold plans
  refine List.filterMap_congr fun entry _ => ?_
  obtain ⟨name, s⟩ := entry
  cases unique : s.keywords.uniqueName with
  | none => simp [rootType?, unique]
  | some type => by_cases itself : type = name <;> simp [rootType?, unique, itself]

theorem get?_plans {definitions : Definitions} (distinct : definitions.Distinct) (maxDepth : Nat)
    (root : String) : (plans definitions maxDepth).get? root =
      ((definitions.get? root).bind (rootType? root)).map fun type =>
        plan definitions.subtypes root maxDepth type root [] := by
  rw [plans_eq]
  generalize definitions.subtypes = subtypes
  induction definitions with
  | nil => rfl
  | cons entry rest ih =>
    obtain ⟨name, s⟩ := entry
    obtain ⟨fresh, distinctRest⟩ := List.nodup_cons.mp distinct
    have later := ih distinctRest
    by_cases here : name = root
    · subst here
      have absent : Table.get? rest name = none := (Table.get?_eq_none_iff rest name).mpr fresh
      cases type : rootType? name s with
      | none => simpa [List.filterMap_cons, type, Table.get?, absent] using later
      | some type' => simp [type, Table.get?]
    · cases type : rootType? name s with
      | none => simpa [List.filterMap_cons, type, Table.get?, here] using later
      | some type' => simpa [List.filterMap_cons, type, Table.get?, here] using later

section
variable (subtypes : Table (List String)) (root : String)

theorem plan_succ (depth : Nat) (base newBase : String) (copies : Table Copy) :
    plan subtypes root (depth + 1) base newBase copies =
      ((subtypes.get? base).getD []).foldl (fun copies subtype =>
        plan subtypes root depth subtype (subtype ++ copySuffix root)
          (copies.put subtype ⟨subtype ++ copySuffix root, newBase⟩)) copies := rfl

/-- A plan is followed entry by entry: what holds before and is kept by every entry that is put holds
of the plan. -/
theorem plan_induction (motive : Table Copy → Prop) (reached : String → String → Prop)
    (put : ∀ base newBase subtype copies, reached base newBase →
      subtype ∈ (subtypes.get? base).getD [] → motive copies →
      motive (copies.put subtype ⟨subtype ++ copySuffix root, newBase⟩))
    (down : ∀ base newBase subtype, reached base newBase →
      subtype ∈ (subtypes.get? base).getD [] → reached subtype (subtype ++ copySuffix root))
    (depth : Nat) {base newBase : String} (here : reached base newBase) {copies : Table Copy}
    (start : motive copies) : motive (plan subtypes root depth base newBase copies) := by
  induction depth generalizing base newBase copies with
  | zero => exact start
  | succ depth ih =>
    rw [plan_succ]
    refine List.foldlRecOn _ _ start fun more held subtype listed => ?_
    exact ih (down base newBase subtype here listed) (put base newBase subtype more here listed held)

theorem distinct_plan (depth : Nat) (base newBase : String) {copies : Table Copy}
    (distinct : copies.Distinct) : (plan subtypes root depth base newBase copies).Distinct :=
  plan_induction subtypes root Table.Distinct (fun _ _ => True)
    (fun _ _ subtype _ _ _ distinct => Table.distinct_put distinct subtype _)
    (fun _ _ _ _ _ => trivial) depth trivial distinct

/-- What is planned stays planned. -/
theorem mem_keys_plan (depth : Nat) (base newBase : String) {copies : Table Copy} {name : String}
    (known : name ∈ copies.keys) : name ∈ (plan subtypes root depth base newBase copies).keys :=
  plan_induction subtypes root (fun copies => name ∈ Table.keys copies) (fun _ _ => True)
    (fun _ _ _ _ _ _ known => (Table.mem_keys_put_iff _ _ _ _).mpr (Or.inl known))
    (fun _ _ _ _ _ => trivial) depth trivial known

theorem mem_keys_foldl_plan (depth : Nat) (newBase : String) (listed : List String)
    {copies : Table Copy} {name : String} (known : name ∈ copies.keys) :
    name ∈ (listed.foldl (fun copies subtype =>
      plan subtypes root depth subtype (subtype ++ copySuffix root)
        (copies.put subtype ⟨subtype ++ copySuffix root, newBase⟩)) copies).keys :=
  List.foldlRecOn (motive := fun copies => name ∈ Table.keys copies) listed _ known
    fun _ known _ _ => mem_keys_plan subtypes root depth _ _
      ((Table.mem_keys_put_iff _ _ _ _).mpr (Or.inl known))

/-- A plan depends on the extensions of the base and of what is planned alone. -/
theorem plan_congr {more : Table (List String)} (depth : Nat) {base newBase : String}
    {copies : Table Copy} (same : ∀ name,
      name = base ∨ name ∈ (plan subtypes root depth base newBase copies).keys →
        (more.get? name).getD [] = (subtypes.get? name).getD []) :
    plan more root depth base newBase copies = plan subtypes root depth base newBase copies := by
  induction depth generalizing base newBase copies with
  | zero => rfl
  | succ depth ih =>
    have here := same base (Or.inl rfl)
    rw [plan_succ] at same ⊢
    rw [plan_succ, here]
    generalize (subtypes.get? base).getD [] = listed at same ⊢
    induction listed generalizing copies with
    | nil => rfl
    | cons subtype rest ihRest =>
      rw [List.foldl_cons] at same ⊢
      rw [List.foldl_cons]
      have below : ∀ name, name = subtype ∨ name ∈ (plan subtypes root depth subtype
          (subtype ++ copySuffix root)
          (copies.put subtype ⟨subtype ++ copySuffix root, newBase⟩)).keys →
          (more.get? name).getD [] = (subtypes.get? name).getD [] := by
        intro name planned
        refine same name (Or.inr (mem_keys_foldl_plan subtypes root depth newBase rest ?_))
        rcases planned with rfl | planned
        · exact mem_keys_plan subtypes root depth _ _
            ((Table.mem_keys_put_iff _ _ _ _).mpr (Or.inr rfl))
        · exact planned
      rw [ih below]
      exact ihRest same

end

section
variable {definitions : Definitions} {root type : String}

/-- The entry of a plan for a definition that stands below the type: it names the copy, and what the
copy is to extend, the root itself for the direct extensions of the type. -/
def PlannedBelow (definitions : Definitions) (root type : String) (entry : String × Copy) : Prop :=
  Relation.TransGen definitions.Below entry.1 type ∧ ∃ base, definitions.Below entry.1 base ∧
    entry.2 = ⟨entry.1 ++ copySuffix root, if base = type then root else base ++ copySuffix root⟩

theorem plannedBelow_plan (acyclic : ¬ Relation.TransGen definitions.Below type type)
    (depth : Nat) : ∀ entry ∈ plan definitions.subtypes root depth type root [],
      PlannedBelow definitions root type entry := by
  refine plan_induction definitions.subtypes root
    (fun copies => ∀ entry ∈ copies, PlannedBelow definitions root type entry)
    (fun base newBase => Relation.ReflTransGen definitions.Below base type ∧
      newBase = if base = type then root else base ++ copySuffix root)
    ?_ ?_ depth ⟨.refl, (if_pos rfl).symm⟩ (by simp)
  · intro base newBase subtype copies ⟨above, named⟩ listed planned entry member
    have below := (definitions.mem_subtypes_iff base subtype).mp listed
    rcases Table.mem_of_mem_put member with old | rfl
    · exact planned entry old
    · exact ⟨.head' below above, base, below, by rw [named]⟩
  · intro base newBase subtype ⟨above, _⟩ listed
    have below : Relation.TransGen definitions.Below subtype type :=
      .head' ((definitions.mem_subtypes_iff base subtype).mp listed) above
    have other : subtype ≠ type := fun same => acyclic (same ▸ below)
    exact ⟨below.to_reflTransGen, (if_neg other).symm⟩

theorem nodup_names_plan (definitions : Definitions) (root type : String) (depth : Nat) :
    ((plan definitions.subtypes root depth type root []).map (·.2.name)).Nodup := by
  have start : Planned definitions root [] := fun _ none => absurd none List.not_mem_nil
  have planned := (@planned_plan definitions root depth type root [] start (Or.inl rfl)).1
  have names : (plan definitions.subtypes root depth type root []).map (·.2.name) =
      (plan definitions.subtypes root depth type root []).keys.map (· ++ copySuffix root) := by
    rw [Table.keys, List.map_map]
    exact List.map_congr_left fun entry listed => (planned entry listed).named
  rw [names]
  have distinct : Table.Distinct (plan definitions.subtypes root depth type root []) :=
    distinct_plan definitions.subtypes root depth type root List.nodup_nil
  exact List.Nodup.map (fun a b same => (String.append_left_inj _).mp same) distinct

/-- So many extension links lead from the name up to the base. -/
def Climbs (definitions : Definitions) : Nat → String → String → Prop
  | 0, name, base => name = base
  | steps + 1, name, base => ∃ next, Climbs definitions steps name next ∧ definitions.Below next base

theorem Climbs.head {steps : Nat} {name next base : String} (below : definitions.Below name next)
    (climbs : Climbs definitions steps next base) : Climbs definitions (steps + 1) name base := by
  induction steps generalizing base with
  | zero => exact ⟨name, rfl, climbs ▸ below⟩
  | succ steps ih =>
    obtain ⟨last, before, above⟩ := climbs
    exact ⟨last, ih before, above⟩

theorem exists_climbs (distinct : definitions.Distinct) {name base : String}
    (below : Relation.TransGen definitions.Below name base) : ∃ steps refs,
      Climbs definitions (steps + 1) name base ∧
      definitions.Ascends (definitions.get? name) refs ∧ refs.length = steps + 1 := by
  induction below using Relation.TransGen.head_induction_on with
  | @single name below =>
    have ⟨s, member, r, extended, _⟩ := below
    have stood := Table.get?_of_mem distinct member
    refine ⟨0, [r], ⟨name, rfl, below⟩, ⟨?_, trivial⟩, rfl⟩
    rw [stood, Option.bind_some, extended]
  | @head name next below _ ih =>
    have ⟨s, member, r, extended, named⟩ := below
    have stood := Table.get?_of_mem distinct member
    obtain ⟨steps, refs, climbs, ascends, length⟩ := ih
    refine ⟨steps + 1, r :: refs, climbs.head below, ⟨?_, named ▸ ascends⟩, ?_⟩
    · rw [stood, Option.bind_some, extended]
    · rw [List.length_cons, length]

/-- What stands below the type within the depth is planned. -/
theorem mem_keys_plan_of_climbs {steps depth : Nat} {name base : String}
    (climbs : Climbs definitions (steps + 1) name base) (within : steps < depth)
    (newBase : String) (copies : Table Copy) :
    name ∈ (plan definitions.subtypes root depth base newBase copies).keys := by
  induction steps generalizing depth base newBase copies with
  | zero =>
    obtain ⟨next, rfl, below⟩ := climbs
    obtain ⟨depth, rfl⟩ : ∃ more, depth = more + 1 := ⟨depth - 1, by omega⟩
    have listed := (definitions.mem_subtypes_iff base name).mpr below
    obtain ⟨before, after, split⟩ := List.append_of_mem listed
    rw [plan_succ, split, List.foldl_append, List.foldl_cons]
    refine mem_keys_foldl_plan _ root depth newBase after (mem_keys_plan _ root depth _ _ ?_)
    exact (Table.mem_keys_put_iff _ _ _ _).mpr (Or.inr rfl)
  | succ steps ih =>
    obtain ⟨next, climbs, below⟩ := climbs
    obtain ⟨depth, rfl⟩ : ∃ more, depth = more + 1 := ⟨depth - 1, by omega⟩
    have listed := (definitions.mem_subtypes_iff base next).mpr below
    obtain ⟨before, after, split⟩ := List.append_of_mem listed
    rw [plan_succ, split, List.foldl_append, List.foldl_cons]
    exact mem_keys_foldl_plan _ root depth newBase after (ih climbs (by omega) _ _)

end

end HierarchyCopies
end SchemaGraph
