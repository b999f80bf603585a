import Mathlib.Order.Bounds.Basic
import SchemaGraph.Proofs.NilFrame

/- Nil spreads over whole trees of extensions. The rounds of spreading come to an end, and what they
   end with is the least set that holds what the sites ask for and is closed under the hierarchy. A
   closed set holds all definitions of a tree or none of them, and so do the two sets together. -/
namespace SchemaGraph

namespace Definitions
variable {definitions : Definitions}

/-- With every name, the set holds its direct extensions and its ancestors. -/
structure HierarchyClosed (definitions : Definitions) (maxDepth : Nat) (names : Set String) :
    Prop where
  subtypes : ∀ name ∈ names, ∀ other ∈ (definitions.subtypes.get? name).getD [], other ∈ names
  ancestors : ∀ name ∈ names, ∀ r ∈ definitions.ancestors name maxDepth, r.name ∈ names

/-- The definition extends the base, which need not be defined. -/
def BasedOn (definitions : Definitions) (name base : String) : Prop :=
  ∃ r, (definitions.get? name).bind Schema.base? = some r ∧ r.name = base

/-- The names are joined by extensions, in whichever direction. -/
abbrev SameTree (definitions : Definitions) : String → String → Prop :=
  Relation.EqvGen definitions.BasedOn

theorem BasedOn.below {name base : String} (based : definitions.BasedOn name base) :
    definitions.Below name base := by
  obtain ⟨r, extended, named⟩ := based
  obtain ⟨s, found, based⟩ := Option.bind_eq_some_iff.mp extended
  exact ⟨s, Table.mem_of_get? found, r, based, named⟩

section
variable {maxDepth : Nat} {names : Set String} (closed : definitions.HierarchyClosed maxDepth names)
  (deep : 0 < maxDepth)
include closed deep

/-- A definition that extends itself has no ancestors, but then there is nothing to show. -/
theorem HierarchyClosed.base_mem_iff {name base : String} (based : definitions.BasedOn name base) :
    base ∈ names ↔ name ∈ names := by
  constructor
  · intro member
    exact closed.subtypes base member name ((mem_subtypes_iff _ _ _).mpr based.below)
  · intro member
    obtain ⟨r, extended, named⟩ := based
    by_cases itself : r.name = name
    · rwa [← named, itself]
    · have nonempty := (ancestors_ne_nil_iff definitions name maxDepth).mpr
        ⟨deep, r, extended, itself⟩
      have above := mem_ancestors_of_base extended nonempty
      exact named ▸ closed.ancestors name member r above

theorem HierarchyClosed.mem_iff_of_sameTree {name other : String}
    (joined : definitions.SameTree name other) : name ∈ names ↔ other ∈ names := by
  induction joined with
  | rel name base based => exact (closed.base_mem_iff deep based).symm
  | refl name => rfl
  | symm name other _ ih => exact ih.symm
  | trans first middle last _ _ before after => exact before.trans after

end
end Definitions

namespace NilSplit

section
variable (definitions : Definitions) (maxDepth : Nat)

theorem hierarchyClosed_iff (names : Set String) :
    definitions.HierarchyClosed maxDepth names ↔
      ∀ name ∈ names, ∀ other, Spreads definitions maxDepth name other → other ∈ names := by
  constructor
  · intro closed name member other spreads
    rcases spreads with below | ⟨r, above, rfl⟩
    · exact closed.subtypes name member other ((Definitions.mem_subtypes_iff _ _ _).mpr below)
    · exact closed.ancestors name member r above
  · intro closed
    constructor
    · intro name member other extends_
      exact closed name member other (Or.inl ((Definitions.mem_subtypes_iff _ _ _).mp extends_))
    · intro name member r above
      exact closed name member r.name (Or.inr ⟨r, above, rfl⟩)

variable {names : List String} (nodup : names.Nodup)
include nodup

/-- Spreading ends with the least closed set that holds the given names. -/
theorem isLeast_spread : IsLeast
    {closed : Set String | (∀ name ∈ names, name ∈ closed) ∧
      definitions.HierarchyClosed maxDepth closed}
    {name | name ∈ spread definitions maxDepth names} := by
  obtain ⟨kept, spreads⟩ := spread_closed definitions maxDepth nodup
  constructor
  · exact ⟨kept, (hierarchyClosed_iff definitions maxDepth _).mpr spreads⟩
  · intro closed ⟨given, hierarchy⟩ name member
    obtain ⟨start, asked, reached⟩ := (mem_spread_iff definitions maxDepth nodup name).mp member
    induction reached with
    | refl => exact given start asked
    | tail _ step ih =>
      have before := (mem_spread_iff definitions maxDepth nodup _).mpr ⟨start, asked, ‹_›⟩
      exact (hierarchyClosed_iff definitions maxDepth closed).mp hierarchy _ (ih before) _ step

theorem spreadOnce_spread :
    spreadOnce (related definitions definitions.subtypes maxDepth)
      (spread definitions maxDepth names) = spread definitions maxDepth names := by
  obtain ⟨_, spreads⟩ := spread_closed definitions maxDepth nodup
  refine spreadOnce_eq_self _ (nodup_spread maxDepth nodup) ?_
  intro name member other step
  exact spreads name member other ((mem_related_iff _ _ _ _).mp step)

/-- From some round on nothing changes any more. -/
theorem exists_rounds_spread : ∃ enough ≤ 2 * definitions.length + 1, ∀ rounds, enough ≤ rounds →
    (spreadOnce (related definitions definitions.subtypes maxDepth))^[rounds] names =
      spread definitions maxDepth names := by
  obtain ⟨enough, few, reached⟩ := spreadWithin_eq_iterate
    (related definitions definitions.subtypes maxDepth) (2 * definitions.length + 1) names
  refine ⟨enough, few, ?_⟩
  intro rounds more
  obtain ⟨idle, rfl⟩ := Nat.exists_eq_add_of_le more
  have fixed := spreadOnce_spread definitions maxDepth nodup
  rw [Nat.add_comm, Function.iterate_add_apply, ← reached]
  exact Function.iterate_fixed fixed idle

end

/-- What the sites ask for is spread in rounds over both sets until neither changes, which takes at
most one round more than there are names to add. Each set is then the least closed one, and so the
definitions of a tree are all split or none is. -/
theorem split_whole_trees (options : Options) (d : Document) (deep : 0 < options.maxDepth) :
    let round := spreadOnce (related d.definitions d.definitions.subtypes options.maxDepth)
    ((d.walkAfterM collect).run {}).2 = demand d ∧
    (∃ rounds ≤ 2 * d.definitions.length + 1,
      round^[rounds] (demand d).nillable = nillableNames options d ∧
      round^[rounds] (demand d).plain = plainNames options d) ∧
    round (nillableNames options d) = nillableNames options d ∧
    round (plainNames options d) = plainNames options d ∧
    IsLeast {names : Set String | (∀ name ∈ (demand d).nillable, name ∈ names) ∧
        d.definitions.HierarchyClosed options.maxDepth names}
      {name | name ∈ nillableNames options d} ∧
    IsLeast {names : Set String | (∀ name ∈ (demand d).plain, name ∈ names) ∧
        d.definitions.HierarchyClosed options.maxDepth names}
      {name | name ∈ plainNames options d} ∧
    (∀ name other, d.definitions.SameTree name other →
      (name ∈ splitNames options d ↔ other ∈ splitNames options d)) ∧
    ∀ report, (run options d).2 = .ok report →
      report.created = (splitNames options d).map (· ++ suffix) := by
  intro round
  obtain ⟨nodupNillable, nodupPlain⟩ := nodup_demand d
  have leastNillable := isLeast_spread d.definitions options.maxDepth nodupNillable
  have leastPlain := isLeast_spread d.definitions options.maxDepth nodupPlain
  refine ⟨?_, ?_, spreadOnce_spread _ _ nodupNillable, spreadOnce_spread _ _ nodupPlain,
    leastNillable, leastPlain, ?_, ?_⟩
  · rw [walk_collect]
  · obtain ⟨first, few, nillable⟩ := exists_rounds_spread d.definitions options.maxDepth nodupNillable
    obtain ⟨second, few', plain⟩ := exists_rounds_spread d.definitions options.maxDepth nodupPlain
    exact ⟨max first second, by omega, nillable _ (by omega), plain _ (by omega)⟩
  · intro name other joined
    rw [mem_splitNames_iff, mem_splitNames_iff]
    have nillable := leastNillable.1.2.mem_iff_of_sameTree deep joined
    have plain := leastPlain.1.2.mem_iff_of_sameTree deep joined
    exact and_congr nillable plain
  · intro report ran
    obtain ⟨_, rfl, _⟩ := run_of_ok ran
    rfl

/-- `Base` may be nil, and an extension of an extension of it is used without nil. -/
def family : Document where
  raw := [("definitions", .null)]
  flavor := .definitions
  hasSlot := true
  definitions := [
    ("Base", object), ("Ext", { children := { allOf := some [useOf "Base" none, object] } }),
    ("Leaf", { children := { allOf := some [useOf "Ext" none, object] } }),
    ("Holder", { children := { properties := some [
      ("a", useOf "Base" (some true)), ("b", useOf "Leaf" none)] } })]

theorem split_whole_trees_family : 0 < ({ maxDepth := 1 } : Options).maxDepth ∧
    family.definitions.SameTree "Base" "Leaf" ∧
    "Base" ∈ splitNames { maxDepth := 1 } family ∧
    "Leaf" ∈ splitNames { maxDepth := 1 } family := by
  have lower : family.definitions.BasedOn "Ext" "Base" := ⟨_, rfl, rfl⟩
  have upper : family.definitions.BasedOn "Leaf" "Ext" := ⟨_, rfl, rfl⟩
  have joined : family.definitions.SameTree "Base" "Leaf" :=
    .symm _ _ (.trans _ _ _ (.rel _ _ upper) (.rel _ _ lower))
  obtain ⟨_, _, _, _, _, _, trees, _⟩ :=
    split_whole_trees { maxDepth := 1 } family (by decide)
  have base : "Base" ∈ splitNames { maxDepth := 1 } family := by decide
  exact ⟨by decide, joined, base, (trees _ _ joined).mp base⟩

end NilSplit
end SchemaGraph
