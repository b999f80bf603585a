import Mathlib.Data.List.Induction
import SchemaGraph.Hierarchy

/- Extension links in both directions: the table of extensions lists exactly the definitions that
   have a base, and the ancestors of a definition are a chain of bases that starts at its own. -/
namespace SchemaGraph

namespace Schema

theorem base?_mapBase (f : Reference → Reference) (s : Schema) :
    (s.mapBase f).base? = s.base?.map f := by
  obtain ⟨k, c⟩ := s
  cases members : c.allOf with
  | none => simp [mapBase, base?, members]
  | some l => cases l <;> simp [mapBase, base?, members]

theorem keywords_mapBase (f : Reference → Reference) (s : Schema) :
    (s.mapBase f).keywords = s.keywords := by
  unfold mapBase
  split <;> rfl

end Schema

namespace Definitions

/-- The base of the definition is in the definition `base`, which need not be there. -/
def Below (definitions : Definitions) (name base : String) : Prop :=
  ∃ s, (name, s) ∈ definitions ∧ ∃ r, s.base? = some r ∧ r.name = base

theorem subtypes_concat (definitions : Definitions) (name : String) (s : Schema) :
    subtypes (definitions ++ [(name, s)]) = match s.base? with
      | some base => definitions.subtypes.put base.name
          ((definitions.subtypes.get? base.name).getD [] ++ [name])
      | none => definitions.subtypes := by
  rw [subtypes, List.foldl_append]
  rfl

theorem mem_subtypes_iff (definitions : Definitions) (base name : String) :
    name ∈ (definitions.subtypes.get? base).getD [] ↔ definitions.Below name base := by
  rw [Below]
  induction definitions using List.reverseRecOn with
  | nil => simp [subtypes, Table.get?]
  | append_singleton definitions entry ih =>
    obtain ⟨last, s⟩ := entry
    rw [subtypes_concat]
    simp only [List.mem_append, List.mem_singleton, Prod.mk.injEq, or_and_right, exists_or, ← ih,
      and_assoc, exists_and_left, exists_eq_left]
    cases extended : s.base? with
    | none => simp
    | some r =>
      dsimp only
      rw [Table.get?_put]
      by_cases same : r.name = base <;> simp [same]

/-- Each reference is the base of the definition before it. -/
def Ascends (definitions : Definitions) : Option Schema → List Reference → Prop
  | _, [] => True
  | current, r :: rest =>
    current.bind Schema.base? = some r ∧ Ascends definitions (definitions.get? r.name) rest

/-- What holds of all bases holds of a chain of them. -/
theorem Ascends.each {definitions : Definitions} {p : Reference → Prop} {current : Option Schema}
    {ancestors : List Reference} (ascends : definitions.Ascends current ancestors)
    (here : ∀ s, current = some s → ∀ r, s.base? = some r → p r)
    (each : ∀ e ∈ definitions, ∀ r, e.2.base? = some r → p r) : ∀ r ∈ ancestors, p r := by
  induction ancestors generalizing current with
  | nil => simp
  | cons first rest ih =>
    obtain ⟨based, above⟩ := ascends
    obtain ⟨s, defined, based⟩ := Option.bind_eq_some_iff.mp based
    refine List.forall_mem_cons.mpr ⟨here s defined first based, ?_⟩
    exact ih above fun s found => each _ (Table.mem_of_get? found)

theorem ascends_ancestorsFrom (definitions : Definitions) (depth : Nat) (seen : List String)
    (current : Option Schema) :
    definitions.Ascends current (definitions.ancestorsFrom depth seen current) := by
  induction depth generalizing seen current with
  | zero => trivial
  | succ depth ih =>
    rw [ancestorsFrom]
    split
    · trivial
    · rename_i base found
      split
      · trivial
      · exact ⟨found, ih _ _⟩

theorem ascends_ancestors (definitions : Definitions) (name : String) (maxDepth : Nat) :
    definitions.Ascends (definitions.get? name) (definitions.ancestors name maxDepth) :=
  ascends_ancestorsFrom definitions maxDepth [name] (definitions.get? name)

/-- The chain is empty without a base, on a definition that extends itself, and at depth zero. -/
theorem ancestors_ne_nil_iff (definitions : Definitions) (name : String) (maxDepth : Nat) :
    definitions.ancestors name maxDepth ≠ [] ↔
      0 < maxDepth ∧ ∃ r, (definitions.get? name).bind Schema.base? = some r ∧ r.name ≠ name := by
  cases maxDepth with
  | zero => simp [ancestors, ancestorsFrom]
  | succ depth =>
    rw [ancestors, ancestorsFrom]
    split
    · rename_i none
      simp [none]
    · rename_i base found
      by_cases itself : base.name = name <;> simp [found, itself]

theorem mem_ancestors_of_base {definitions : Definitions} {name : String} {maxDepth : Nat}
    {r : Reference} (found : (definitions.get? name).bind Schema.base? = some r)
    (nonempty : definitions.ancestors name maxDepth ≠ []) :
    r ∈ definitions.ancestors name maxDepth := by
  have chain := definitions.ascends_ancestors name maxDepth
  cases ancestors : definitions.ancestors name maxDepth with
  | nil => exact absurd ancestors nonempty
  | cons first rest =>
    rw [ancestors] at chain
    have same : first = r := Option.some.inj (chain.1.symm.trans found)
    exact same ▸ List.mem_cons_self

/-- The base of each definition. All of the hierarchy depends on these alone. -/
def bases (definitions : Definitions) : Table (Option Reference) :=
  definitions.mapValues Schema.base?

theorem get?_bases (definitions : Definitions) (name : String) :
    definitions.bases.get? name = (definitions.get? name).map Schema.base? :=
  Table.get?_mapValues _ _ _

section
variable {before after : Definitions} (same : after.bases = before.bases)
include same

theorem keys_of_bases : after.keys = before.keys := by
  rw [← Table.keys_mapValues Schema.base? after, ← Table.keys_mapValues Schema.base? before]
  exact congrArg Table.keys same

theorem base?_of_bases (name : String) :
    (after.get? name).bind Schema.base? = (before.get? name).bind Schema.base? := by
  have found := congrArg (Table.get? · name) same
  simp only [get?_bases] at found
  have joined := congrArg (Option.bind · id) found
  simpa only [Option.bind_map, Function.comp_def, id] using joined

theorem subtypes_of_bases : after.subtypes = before.subtypes := by
  have onBases (definitions : Definitions) : definitions.subtypes =
      definitions.bases.foldl (fun t (name, base?) => match base? with
        | some base => Table.put t base.name ((Table.get? t base.name).getD [] ++ [name])
        | none => t) [] := by
    rw [bases, Table.mapValues, List.foldl_map]
    rfl
  rw [onBases after, onBases before, same]

theorem ancestors_of_bases (name : String) (maxDepth : Nat) :
    after.ancestors name maxDepth = before.ancestors name maxDepth := by
  have chain (depth : Nat) (seen : List String) (current later : Option Schema)
      (based : current.bind Schema.base? = later.bind Schema.base?) :
      after.ancestorsFrom depth seen current = before.ancestorsFrom depth seen later := by
    induction depth generalizing seen current later with
    | zero => rfl
    | succ depth ih =>
      rw [ancestorsFrom, ancestorsFrom, based]
      split
      · rfl
      · rename_i base _
        rw [ih _ _ _ (base?_of_bases same base.name)]
  exact chain maxDepth [name] _ _ (base?_of_bases same name)

end

end Definitions
end SchemaGraph
