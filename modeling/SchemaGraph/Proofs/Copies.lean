import SchemaGraph.Pass.HierarchyCopies
import SchemaGraph.Proofs.Each
import SchemaGraph.Proofs.Hierarchy

/- Definitions to which copies are added. What was defined stays as it was, so the chain of bases
   above a definition is copied as it stood before, and every copied base is there in the end. -/
namespace SchemaGraph

namespace Definitions

/-- Copies were added to the definitions: those that were there stay, and when their references
satisfy the predicate, so do those of the copies. -/
structure Extended (p : Reference → Prop) (before after : Definitions) : Prop where
  retains : ∀ name s, before.get? name = some s → after.get? name = some s
  distinct : before.Distinct → after.Distinct
  each : (∀ e ∈ before, e.2.Each p) → ∀ e ∈ after, e.2.Each p

variable {p : Reference → Prop} {before middle after : Definitions}

theorem Extended.refl (definitions : Definitions) : Extended p definitions definitions :=
  ⟨fun _ _ found => found, id, id⟩

theorem Extended.trans (first : Extended p before middle) (second : Extended p middle after) :
    Extended p before after :=
  ⟨fun name s found => second.retains name s (first.retains name s found),
    fun distinct => second.distinct (first.distinct distinct),
    fun each => second.each (first.each each)⟩

theorem Extended.defines (extended : Extended p before after) {name : String}
    (defined : name ∈ before.keys) : name ∈ after.keys := by
  obtain ⟨s, found⟩ := (Table.exists_get?_iff _ _).mpr defined
  exact (Table.exists_get?_iff _ _).mp ⟨s, extended.retains name s found⟩

/-- A chain of bases stays one when definitions are added. -/
theorem Ascends.extended (extended : Extended p before after) {current later : Option Schema}
    (stays : ∀ s, current = some s → later = some s) {ancestors : List Reference}
    (ascends : before.Ascends current ancestors) : after.Ascends later ancestors := by
  induction ancestors generalizing current later with
  | nil => trivial
  | cons r rest ih =>
    obtain ⟨based, above⟩ := ascends
    obtain ⟨s, defined, based⟩ := Option.bind_eq_some_iff.mp based
    rw [stays s defined]
    exact ⟨based, ih (extended.retains r.name) above⟩

end Definitions

namespace HierarchyCopies
open Definitions (Extended)

variable {p : Reference → Prop}

theorem extended_addCopy (state : Progress) (name : String) {copy : Schema}
    (each : (∀ e ∈ state.1, e.2.Each p) → copy.Each p) :
    Extended p state.1 (addCopy state name copy).1 := by
  rw [addCopy]
  split
  · exact .refl _
  · rename_i free
    refine ⟨fun other s found => ?_, fun distinct => ?_, fun inside e member => ?_⟩
    · rw [Table.get?_append, found, Option.some_or]
    · rw [Table.has_iff_mem_keys] at free
      rw [Table.Distinct, Table.keys_append]
      refine List.nodup_append.mpr ⟨distinct, by simp [Table.keys], fun a known b last same => ?_⟩
      rw [same, List.mem_singleton.mp last] at known
      exact free known
    · rcases List.mem_append.mp member with old | new
      · exact inside e old
      · rw [List.mem_singleton.mp new]
        exact each inside

theorem mem_keys_addCopy (state : Progress) (name : String) (copy : Schema) :
    name ∈ (addCopy state name copy).1.keys := by
  rw [addCopy]
  split
  · rename_i taken
    exact (Table.has_iff_mem_keys _ _).mp taken
  · simp [Table.keys]

section
variable (dictionary : Dictionary) (xml : Option Xml)

theorem extended_copySubtype (state : Progress) {entry : String × Copy}
    (turns : ∀ r, p r → p (r.renamed entry.2.base)) :
    Extended p state.1 (copySubtype dictionary xml state entry).1 := by
  rw [copySubtype]
  split
  · exact .refl _
  · split
    · exact .refl _
    · rename_i s found
      refine extended_addCopy state _ fun each => ?_
      have original := each _ (Table.mem_of_get? found)
      have copy : (s.mapBase (·.renamed entry.2.base)).Each p :=
        original.mapBase fun r based => turns r (original.base r based)
      exact .mk { copy.own with } copy.below

theorem extended_copySubtypes (copies : Table Copy)
    (turns : ∀ e ∈ copies, ∀ r, p r → p (r.renamed e.2.base)) (state : Progress) :
    Extended p state.1 (copies.foldl (copySubtype dictionary xml) state).1 := by
  induction copies generalizing state with
  | nil => exact .refl _
  | cons entry rest ih =>
    obtain ⟨first, others⟩ := List.forall_mem_cons.mp turns
    exact (extended_copySubtype dictionary xml state first).trans (ih others _)

/-- Whatever is defined and no element is copied, or its copy was there already. -/
theorem mem_keys_copySubtypes {copies : Table Copy} {state : Progress} {entry : String × Copy}
    (planned : entry ∈ copies) (noElement : dictionary.isKind entry.1 .element = false)
    (defined : entry.1 ∈ state.1.keys) :
    entry.2.name ∈ (copies.foldl (copySubtype dictionary xml) state).1.keys := by
  have anything (rest : Table Copy) (state : Progress) :=
    extended_copySubtypes (p := fun _ => True) dictionary xml rest
      (fun _ _ _ _ => trivial) state
  induction copies generalizing state with
  | nil => simp at planned
  | cons first rest ih =>
    rw [List.foldl_cons]
    rcases List.mem_cons.mp planned with here | later
    · refine (anything rest _).defines ?_
      obtain ⟨s, found⟩ := (Table.exists_get?_iff _ _).mpr defined
      rw [← here, copySubtype, noElement]
      simp only [Bool.false_eq_true, if_false, found]
      exact mem_keys_addCopy _ _ _
    · exact ih later ((anything [first] state).defines defined)

end

section
variable (xml : Option Xml) (suffix : String)

/-- The state after the copy of one base; `rest` are the bases above it. -/
def copyAncestor (rest : List Reference) (ancestor : Reference) (state : Progress) : Progress :=
  match state.1.get? ancestor.name with
  | none => state
  | some s =>
    let copy := if rest.isEmpty then s else s.mapBase (·.withSuffix suffix)
    addCopy state (ancestor.name ++ suffix)
      { copy with
        keywords.xml := xml
        keywords.uniqueName := copy.keywords.uniqueName.map (· ++ suffix) }

theorem copyAncestors_cons (ancestor : Reference) (rest : List Reference) (state : Progress) :
    copyAncestors xml suffix (ancestor :: rest) state =
      copyAncestors xml suffix rest (copyAncestor xml suffix rest ancestor state) := rfl

theorem extended_copyAncestor {state : Progress} {ancestor : Reference} {rest : List Reference}
    (above : state.1.Ascends (state.1.get? ancestor.name) rest)
    (turns : ∀ r ∈ rest, p (r.withSuffix suffix)) :
    Extended p state.1 (copyAncestor xml suffix rest ancestor state).1 := by
  rw [copyAncestor]
  split
  · exact .refl _
  · rename_i s found
    refine extended_addCopy state _ fun each => ?_
    have original := each _ (Table.mem_of_get? found)
    have copy : (if rest.isEmpty then s else s.mapBase (·.withSuffix suffix)).Each p := by
      split
      · exact original
      · refine original.mapBase fun r based => ?_
        cases rest with
        | nil => rename_i more; simp at more
        | cons next _ =>
          -- The chain goes on with the very base that is renamed.
          have same : r = next := by
            rw [found] at above
            exact Option.some.inj (based.symm.trans above.1)
          exact same ▸ turns next List.mem_cons_self
    exact .mk { copy.own with } copy.below

theorem mem_keys_copyAncestor {state : Progress} {ancestor : Reference} (rest : List Reference)
    (defined : ancestor.name ∈ state.1.keys) :
    ancestor.name ++ suffix ∈ (copyAncestor xml suffix rest ancestor state).1.keys := by
  obtain ⟨s, found⟩ := (Table.exists_get?_iff _ _).mpr defined
  rw [copyAncestor, found]
  exact mem_keys_addCopy _ _ _

theorem extended_copyAncestors {ancestors : List Reference} {state : Progress}
    {current : Option Schema} (ascends : state.1.Ascends current ancestors)
    (turns : ∀ r ∈ ancestors, p (r.withSuffix suffix)) :
    Extended p state.1 (copyAncestors xml suffix ancestors state).1 := by
  induction ancestors generalizing state current with
  | nil => exact .refl _
  | cons ancestor rest ih =>
    rw [copyAncestors_cons]
    have others := (List.forall_mem_cons.mp turns).2
    have first := extended_copyAncestor xml suffix ascends.2 others
    exact first.trans (ih (ascends.2.extended first (first.retains ancestor.name)) others)

theorem mem_keys_copyAncestors {ancestors : List Reference} {state : Progress}
    {current : Option Schema} (ascends : state.1.Ascends current ancestors) {ancestor : Reference}
    (member : ancestor ∈ ancestors) (defined : ancestor.name ∈ state.1.keys) :
    ancestor.name ++ suffix ∈ (copyAncestors xml suffix ancestors state).1.keys := by
  induction ancestors generalizing state current with
  | nil => simp at member
  | cons first rest ih =>
    rw [copyAncestors_cons]
    have extended := extended_copyAncestor (p := fun _ => True) xml suffix ascends.2
      fun _ _ => trivial
    have above := ascends.2.extended extended (extended.retains first.name)
    rcases List.mem_cons.mp member with rfl | later
    · exact (extended_copyAncestors (p := fun _ => True) xml suffix above
        fun _ _ => trivial).defines (mem_keys_copyAncestor xml suffix rest defined)
    · exact ih above later (extended.defines defined)

end

end HierarchyCopies
end SchemaGraph
