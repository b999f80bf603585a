import SchemaGraph.Proofs.Renaming

/- The three traversals of the references in a schema. Listing them, redirecting them and checking
   them go through the same nodes and agree on what stands there. -/
namespace SchemaGraph

namespace Keywords

/-- The keywords without what their references and mapping values say. -/
def withoutTargets (k : Keywords) : Keywords :=
  let erased (_ : Reference) : Reference := .toDefinition "" .definitions
  { k with
    reference := k.reference.map erased
    typeOf := k.typeOf.map erased
    ancestor := k.ancestor.map erased
    descendants := k.descendants.map (List.map erased)
    discriminator := k.discriminator.map fun d =>
      { d with mapping := d.mapping.map (Table.mapValues fun _ => "") } }

theorem withoutTargets_redirect (f : Reference → Option Reference) (k : Keywords) :
    (k.redirect f).withoutTargets = k.withoutTargets := by
  have values (t : Table String) :
      Table.mapValues (fun _ => "") (Table.mapValues (redirectText f) t) =
        Table.mapValues (fun _ => "") t := by
    simp [Table.mapValues]
  simp only [withoutTargets, redirect, Option.map_map, Function.comp_def, List.map_map, values]

end Keywords

namespace Schema

/-- The texts of all discriminator mappings, node by node. -/
def mappingTexts (s : Schema) : List String := s.nodes.flatMap Keywords.mappingTexts

/-- The schema without what its references and mapping values say. -/
def withoutTargets : Schema → Schema := rekey Keywords.withoutTargets

section
variable (f : Reference → Option Reference)

theorem childOccurrences_map {g : Occurrence → Occurrence}
    {turn : (Bool → List Occurrence) → Bool → List Occurrence}
    (turns : ∀ list structural, turn list structural = (list structural).map g)
    (c : Children (Bool → List Occurrence)) :
    childOccurrences (c.map turn) = (childOccurrences c).map g := by
  have plain (lists : List (Bool → List Occurrence)) :
      (lists.map turn).flatMap (· false) = (lists.flatMap (· false)).map g := by
    rw [List.flatMap_map, List.map_flatMap]
    exact List.flatMap_congr fun list _ => turns list false
  have option (o : Option (Bool → List Occurrence)) :
      (o.map turn).toList.flatMap (· false) = (o.toList.flatMap (· false)).map g := by
    rw [← plain, Option.toList_map]
  have members (list : Option (List (Bool → List Occurrence))) :
      ((list.map (List.map turn)).getD []).flatMap (· false) =
        ((list.getD []).flatMap (· false)).map g := by
    rw [← plain]
    cases list <;> rfl
  have values : (c.properties.map (Table.mapValues turn)).map Table.values =
      (c.properties.map Table.values).map (List.map turn) := by
    cases c.properties <;> simp [Table.values, Table.mapValues]
  simp only [childOccurrences, Children.map, List.map_append, option, Additional.schema?_map,
    values, members]
  rcases c.allOf with _ | _ | ⟨first, rest⟩
  · rfl
  · rfl
  · simp only [Option.map_some, List.map_cons, turns, plain, List.map_append]

theorem occurrencesAt_redirect (s : Schema) (structural : Bool) :
    (s.redirect f).occurrencesAt structural =
      (s.occurrencesAt structural).map (Occurrence.redirect f) := by
  induction s using children_induction generalizing structural with
  | step k c ih =>
    have below : (c.map (redirect f)).map occurrencesAt =
        (c.map occurrencesAt).map fun list structural =>
          (list structural).map (Occurrence.redirect f) := by
      rw [Children.map_map, Children.map_map]
      refine Children.map_congr ((Children.each_iff _ c).mpr fun child listed => ?_)
      exact funext fun b => ih child listed b
    rw [redirect_mk, occurrencesAt_mk, occurrencesAt_mk, Keywords.references_redirect, below,
      childOccurrences_map fun _ _ => rfl, List.map_append]

theorem mappingTexts_redirect (s : Schema) :
    (s.redirect f).mappingTexts = s.mappingTexts.map (Keywords.redirectText f) := by
  rw [mappingTexts, mappingTexts, nodes_redirect, List.flatMap_map, List.map_flatMap]
  exact List.flatMap_congr fun k _ => k.mappingTexts_redirect f

theorem rekey_rekey (g h : Keywords → Keywords) (s : Schema) :
    (s.rekey h).rekey g = s.rekey fun k => g (h k) := by
  induction s using children_induction with
  | step k c ih =>
    rw [rekey_mk, rekey_mk, rekey_mk, Children.map_map]
    exact congrArg _ (Children.map_congr ((Children.each_iff _ c).mpr ih))

theorem withoutTargets_redirect (s : Schema) : (s.redirect f).withoutTargets = s.withoutTargets := by
  have composed := s.rekey_rekey Keywords.withoutTargets (Keywords.redirect f)
  rw [funext (Keywords.withoutTargets_redirect f)] at composed
  exact composed

end

/-- Redirecting changes what is listed, in place and in order, and the mapping values that read as
    references, and nothing else; and the check for dangling references looks at what is listed and
    at these mapping values, at each as often as it stands there. -/
theorem traversals_agree (f : Reference → Option Reference) (s : Schema) :
    (s.redirect f).occurrences = s.occurrences.map (Occurrence.redirect f) ∧
    (s.redirect f).mappingTexts = s.mappingTexts.map (fun raw =>
      ((Reference.parse? raw).map fun r => ((f r).getD r).raw).getD raw) ∧
    (s.redirect f).withoutTargets = s.withoutTargets ∧
    ∀ trail r, ((s.placedReferences trail).map Prod.fst).count r =
      (s.occurrences.map (·.reference)).count r +
        (s.mappingTexts.filterMap Reference.parse?).count r := by
  refine ⟨s.occurrencesAt_redirect f false, ?_, s.withoutTargets_redirect f, fun trail r => ?_⟩
  · rw [mappingTexts_redirect, funext (Keywords.redirectText_eq f)]
  · have mapped : s.mappingTexts.filterMap Reference.parse? =
        s.nodes.flatMap Keywords.mappedReferences := by
      rw [mappingTexts, List.filterMap_flatMap]
      rfl
    have apart := (List.flatMap_append_perm s.nodes Keywords.typedReferences
      Keywords.mappedReferences).count_eq r
    rw [(s.map_fst_placedReferences trail).count_eq, occurrences, map_reference_occurrencesAt,
      mapped, ← List.count_append, apart]
    rfl

end Schema
end SchemaGraph
