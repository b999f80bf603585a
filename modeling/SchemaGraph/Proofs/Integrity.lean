import SchemaGraph.Proofs.Nodes

/- Closed documents in terms of names. The references of a document are those of the nodes of its
   definitions and those in its raw part; where all of them are plain, the document is closed when
   they name definitions. -/
namespace SchemaGraph

namespace Document

/-- The references in the raw part. -/
def rawReferences (d : Document) : List Reference :=
  (d.raw.flatMap fun (key, value) => value.placedReferences [key]).map Prod.fst

/-- The document refers by `r`, in its definitions or in its raw part. -/
def Refers (d : Document) (r : Reference) : Prop :=
  (∃ name s, (name, s) ∈ d.definitions ∧ ∃ node ∈ s.nodes, r ∈ node.allReferences) ∨
    r ∈ d.rawReferences

theorem refers_iff (d : Document) (r : Reference) :
    d.Refers r ↔ ∃ place, (r, place) ∈ d.placedReferences := by
  simp only [placedReferences, List.mem_append, exists_or]
  refine or_congr ?_ ?_
  · constructor
    · rintro ⟨name, s, member, inside⟩
      obtain ⟨place, found⟩ := (Schema.mem_placedReferences_iff s
        (name :: d.flavor.segments.reverse) r).mpr inside
      exact ⟨place, List.mem_flatMap.mpr ⟨(name, s), member, found⟩⟩
    · rintro ⟨place, found⟩
      obtain ⟨⟨name, s⟩, member, found⟩ := List.mem_flatMap.mp found
      exact ⟨name, s, member, (Schema.mem_placedReferences_iff _ _ _).mp ⟨place, found⟩⟩
  · simp [rawReferences]

theorem closed_iff (d : Document) :
    d.Closed ↔ ∀ r, d.Refers r → (d.definitions.target? r).isSome := by
  simp only [Closed, danglingReferences, List.filterMap_eq_nil_iff, refers_iff]
  constructor
  · rintro resolved r ⟨place, found⟩
    have checked := resolved _ found
    rw [Definitions.check?] at checked
    split at checked
    · rename_i s meant
      simp [meant]
    · simp at checked
  · rintro resolved ⟨r, place⟩ found
    obtain ⟨s, meant⟩ := Option.isSome_iff_exists.mp (resolved r ⟨place, found⟩)
    simp [Definitions.check?, meant]

end Document

namespace Definitions

theorem mem_keys_of_target? {definitions : Definitions} {r : Reference}
    (meant : (definitions.target? r).isSome) : r.name ∈ definitions.keys := by
  rw [← Table.has_iff_mem_keys, Table.has]
  rw [target?] at meant
  exact Option.isSome_of_isSome_bind meant

end Definitions
end SchemaGraph
