import SchemaGraph.Proofs.CopyFrame
import SchemaGraph.Proofs.Lineage

/- The copies of one hierarchy when their names are free. Then every copy that is asked for is made:
   each extension as it is planned, and above the root a chain of copies that follows its own. -/
namespace SchemaGraph

namespace Schema

theorem mapBase_mapBase (f g : Reference → Reference) (s : Schema) :
    (s.mapBase f).mapBase g = s.mapBase fun r => g (f r) := by
  obtain ⟨k, c⟩ := s
  cases members : c.allOf with
  | none => simp [mapBase, members]
  | some l => cases l <;> simp [mapBase, members, Function.comp_def]

theorem mapBase_of_base?_eq_none {s : Schema} (none : s.base? = none) (f : Reference → Reference) :
    s.mapBase f = s := by
  obtain ⟨k, c⟩ := s
  cases members : c.allOf with
  | none => simp [mapBase, members]
  | some l =>
    cases l with
    | nil => simp [mapBase, members]
    | cons first rest =>
      obtain ⟨own, below⟩ := first
      have unreferring : own.reference = Option.none := by simpa [base?, members] using none
      have same : { own with reference := own.reference.map f } = own := by
        rw [unreferring, Option.map_none, ← unreferring]
      simp only [mapBase, members, same]
      rw [← members]

end Schema

namespace HierarchyCopies

theorem addCopy_of_free {state : Progress} {name : String} (free : name ∉ state.1.keys)
    (copy : Schema) : addCopy state name copy = (state.1 ++ [(name, copy)], state.2 ++ [name]) := by
  rw [addCopy, if_neg]
  rwa [Table.has_iff_mem_keys]

theorem keys_addCopy_of_free {state : Progress} {name : String} (free : name ∉ state.1.keys)
    (copy : Schema) : (addCopy state name copy).1.keys = state.1.keys ++ [name] := by
  rw [addCopy_of_free free, Table.keys_append]
  rfl

theorem get?_addCopy_of_free {state : Progress} {name : String} (free : name ∉ state.1.keys)
    (copy : Schema) : (addCopy state name copy).1.get? name = some copy := by
  have absent := (Table.get?_eq_none_iff _ _).mpr free
  rw [addCopy_of_free free, Table.get?_append, absent, Option.none_or, Table.get?, if_pos rfl]

section
variable (dictionary : Dictionary) (xml : Option Xml) {copies : Table Copy}

/-- The names that copying extensions adds are those of planned copies. -/
theorem mem_keys_of_copySubtypes {state : Progress} {name : String}
    (member : name ∈ (copies.foldl (copySubtype dictionary xml) state).1.keys) :
    name ∈ state.1.keys ∨ ∃ entry ∈ copies,
      dictionary.isKind entry.1 .element = false ∧ entry.2.name = name := by
  have adds := adds_copySubtypes (p := fun e => ∃ entry ∈ copies,
    dictionary.isKind entry.1 .element = false ∧ entry.2.name = e.1) dictionary xml state
    fun entry listed noElement _ => ⟨entry, listed, noElement, rfl⟩
  refine (adds.mem_keys member).imp_right ?_
  rintro ⟨e, planned, rfl⟩
  exact planned

/-- An extension with a free name is copied as it stands when its turn comes, which is as it stood
before. -/
theorem get?_copySubtypes {state : Progress} (nodup : (copies.map (·.2.name)).Nodup)
    {entry : String × Copy} (listed : entry ∈ copies) (free : entry.2.name ∉ state.1.keys)
    (noElement : dictionary.isKind entry.1 .element = false) {s : Schema}
    (stood : state.1.get? entry.1 = some s) :
    (copies.foldl (copySubtype dictionary xml) state).1.get? entry.2.name =
      some (subtypeCopy xml entry.2 s) := by
  obtain ⟨before, after, rfl⟩ := List.append_of_mem listed
  rw [List.map_append, List.map_cons] at nodup
  obtain ⟨_, _, apart⟩ := List.nodup_append.mp nodup
  rw [List.foldl_append, List.foldl_cons]
  refine (more_copySubtypes dictionary xml after _).get? ?_
  have still := (more_copySubtypes dictionary xml before state).get? stood
  have freeStill : entry.2.name ∉ (before.foldl (copySubtype dictionary xml) state).1.keys := by
    intro taken
    rcases mem_keys_of_copySubtypes dictionary xml taken with old | ⟨other, inside, _, same⟩
    · exact free old
    · exact apart _ (List.mem_map_of_mem inside) _ List.mem_cons_self same
  rw [copySubtype, noElement, if_neg Bool.false_ne_true, still]
  exact get?_addCopy_of_free freeStill _

end

section
variable (xml : Option Xml) (suffix : String)

/-- The copy of a base. The last one in the chain extends nothing that was copied. -/
def ancestorCopy (last : Bool) (s : Schema) : Schema :=
  let copy := if last then s else s.mapBase (·.withSuffix suffix)
  { copy with
    keywords.xml := xml
    keywords.uniqueName := copy.keywords.uniqueName.map (· ++ suffix) }

theorem base?_ancestorCopy (last : Bool) (s : Schema) (top : last = true → s.base? = none) :
    (ancestorCopy xml suffix last s).base? = s.base?.map (·.withSuffix suffix) := by
  cases last with
  | true =>
    have none := top rfl
    rw [none, Option.map_none, ← none]
    rfl
  | false =>
    rw [← s.base?_mapBase]
    rfl

theorem copyAncestor_of_get? {state : Progress} {ancestor : Reference} {s : Schema}
    (defined : state.1.get? ancestor.name = some s) (rest : List Reference) :
    copyAncestor xml suffix rest ancestor state =
      addCopy state (ancestor.name ++ suffix) (ancestorCopy xml suffix rest.isEmpty s) := by
  rw [copyAncestor, defined]
  rfl

theorem mem_keys_of_copyAncestors {ancestors : List Reference} {state : Progress} {name : String}
    (member : name ∈ (copyAncestors xml suffix ancestors state).1.keys) :
    name ∈ state.1.keys ∨ ∃ r ∈ ancestors, r.name ++ suffix = name := by
  have adds := adds_copyAncestors (p := fun e => ∃ r ∈ ancestors, r.name ++ suffix = e.1) xml suffix
    state fun r listed _ => ⟨r, listed, rfl⟩
  refine (adds.mem_keys member).imp_right ?_
  rintro ⟨e, named, rfl⟩
  exact named

/-- Over a whole chain with free names, the copies are a chain of their own: what extends the copy of
the first base has the copies of all bases above it, each with the given annotation. -/
theorem lineage_copyAncestors {state : Progress} {s : Schema} {refs : List Reference}
    (lineage : state.1.Lineage s refs) (free : ∀ r ∈ refs, r.name ++ suffix ∉ state.1.keys)
    {t : Schema} (turned : t.base? = s.base?.map (·.withSuffix suffix)) :
    (copyAncestors xml suffix refs state).1.Lineage t (refs.map (·.withSuffix suffix)) ∧
    ∀ r ∈ refs, ∃ copy, (copyAncestors xml suffix refs state).1.get? (r.name ++ suffix) = some copy ∧
      copy.keywords.xml = xml := by
  induction refs generalizing state s t with
  | nil =>
    cases lineage with
    | top none =>
      rw [none, Option.map_none] at turned
      exact ⟨.top turned, by simp⟩
  | cons r rest ih =>
    cases lineage with
    | @step _ base _ _ extended defined above =>
    obtain ⟨freeHere, freeLater⟩ := List.forall_mem_cons.mp free
    let copy := ancestorCopy xml suffix rest.isEmpty base
    have adds : Adds (fun _ => True) state (addCopy state (r.name ++ suffix) copy) :=
      adds_addCopy state trivial
    have made := get?_addCopy_of_free freeHere copy
    have keys := keys_addCopy_of_free freeHere copy
    rw [copyAncestors_cons, copyAncestor_of_get? xml suffix defined]
    generalize addCopy state (r.name ++ suffix) copy = next at adds made keys ⊢
    have freeNext : ∀ other ∈ rest, other.name ++ suffix ∉ next.1.keys := by
      intro other member
      rw [keys, List.mem_append, List.mem_singleton, String.append_left_inj, not_or]
      exact ⟨freeLater other member, above.name_ne defined other member⟩
    have top : rest.isEmpty = true → base.base? = none := by
      intro last
      obtain rfl := List.isEmpty_iff.mp last
      cases above with
      | top none => exact none
    obtain ⟨chain, annotated⟩ := ih (above.retained fun _ _ _ => adds.get?) freeNext
      (base?_ancestorCopy xml suffix rest.isEmpty base top)
    have kept := (more_copyAncestors xml suffix rest next).get? made
    rw [extended, Option.map_some] at turned
    refine ⟨.step turned kept chain, ?_⟩
    refine List.forall_mem_cons.mpr ⟨⟨_, kept, rfl⟩, annotated⟩

end

end HierarchyCopies
end SchemaGraph
