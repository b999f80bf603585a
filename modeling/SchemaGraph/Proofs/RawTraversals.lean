import Mathlib.Data.Fintype.EquivFin
import SchemaGraph.Proofs.Marking
import SchemaGraph.Proofs.RawTexts

/- The three traversals of the references in a raw value. The check for dangling references sees all
   that stand under `$ref`. Counting passes over those below a key `$ref`, and redirecting over
   those below a value of a discriminator's mapping, so each of the two can miss what is checked. -/
namespace SchemaGraph.Json

mutual
/-- The references of a raw value with the ways back from the objects that have them as `$ref`. -/
def sites (trail : List Step) : Json → List (List Step × Reference)
  | obj entries => (ownReference entries).map (trail, ·) ++ sitesInEntries trail entries
  | arr items => sitesInItems trail 0 items
  | _ => []

def sitesInEntries (trail : List Step) : List (String × Json) → List (List Step × Reference)
  | [] => []
  | (key, value) :: rest => sites (.key key :: trail) value ++ sitesInEntries trail rest

def sitesInItems (trail : List Step) (index : Nat) : List Json → List (List Step × Reference)
  | [] => []
  | value :: rest => sites (.index index :: trail) value ++ sitesInItems trail (index + 1) rest
end

/-! Checking -/

mutual
theorem fst_placedReferences (names : List String) (trail : List Step) : ∀ value : Json,
    (placedReferences names value).map Prod.fst = (sites trail value).map Prod.snd
  | obj entries => by
    rw [placedReferences_obj, sites, List.map_append, List.map_append, List.map_map, List.map_map,
      fst_placedInEntries names trail entries]
    rfl
  | arr items => by
    rw [placedReferences, sites]
    exact fst_placedInItems names trail 0 0 items
  | null => rfl
  | bool _ => rfl
  | num _ => rfl
  | str _ => rfl

theorem fst_placedInEntries (names : List String) (trail : List Step) :
    ∀ entries : List (String × Json),
    (placedInEntries names entries).map Prod.fst = (sitesInEntries trail entries).map Prod.snd
  | [] => rfl
  | (key, value) :: rest => by
    rw [placedInEntries, sitesInEntries, List.map_append, List.map_append,
      fst_placedReferences (key :: names) (.key key :: trail) value,
      fst_placedInEntries names trail rest]

theorem fst_placedInItems (names : List String) (trail : List Step) (i j : Nat) :
    ∀ items : List Json,
    (placedInItems names i items).map Prod.fst = (sitesInItems trail j items).map Prod.snd
  | [] => rfl
  | value :: rest => by
    rw [placedInItems, sitesInItems, List.map_append, List.map_append,
      fst_placedReferences (toString i :: names) (.index j :: trail) value,
      fst_placedInItems names trail (i + 1) (j + 1) rest]
end

/-! Counting -/

/-- No key `$ref` leads to the object. -/
def isCounted (site : List Step × Reference) : Bool := !site.1.contains (.key "$ref")

mutual
theorem filter_sites_below {trail : List Step} (below : trail.contains (.key "$ref")) :
    ∀ value : Json, (sites trail value).filter isCounted = []
  | obj entries => by
    rw [sites, List.filter_append, filter_sitesInEntries_below below entries, List.append_nil,
      List.filter_map]
    have none : (isCounted ∘ (trail, ·)) = fun _ : Reference => false := by
      funext r
      simp only [Function.comp_def, isCounted, below, Bool.not_true]
    rw [none, List.filter_false, List.map_nil]
  | arr items => by
    rw [sites]
    exact filter_sitesInItems_below below 0 items
  | null => rfl
  | bool _ => rfl
  | num _ => rfl
  | str _ => rfl

theorem filter_sitesInEntries_below {trail : List Step} (below : trail.contains (.key "$ref")) :
    ∀ entries : List (String × Json), (sitesInEntries trail entries).filter isCounted = []
  | [] => rfl
  | (key, value) :: rest => by
    have under : (Step.key key :: trail).contains (.key "$ref") := by
      rw [List.contains_cons, below, Bool.or_true]
    rw [sitesInEntries, List.filter_append, filter_sites_below under value,
      filter_sitesInEntries_below below rest, List.append_nil]

theorem filter_sitesInItems_below {trail : List Step} (below : trail.contains (.key "$ref"))
    (index : Nat) : ∀ items : List Json, (sitesInItems trail index items).filter isCounted = []
  | [] => rfl
  | value :: rest => by
    have under : (Step.index index :: trail).contains (.key "$ref") := by
      rw [List.contains_cons, below, Bool.or_true]
    rw [sitesInItems, List.filter_append, filter_sites_below under value,
      filter_sitesInItems_below below (index + 1) rest, List.append_nil]
end

theorem reference_occurrence? (entries : Table Json) (structural : Bool) :
    (occurrence? (referenceText? entries) structural).map (·.reference) = ownReference entries := by
  rw [occurrence?, List.map_map, referenceText?, ownReference]
  rcases entries.get? "$ref" with _ | value
  · rfl
  · cases value with
    | str raw => exact List.map_id _
    | _ => rfl

theorem filter_own {trail : List Step} (apart : trail.contains (.key "$ref") = false)
    (own : List Reference) : ((own.map (trail, ·)).filter isCounted).map Prod.snd = own := by
  have all : (isCounted ∘ (trail, ·)) = fun _ : Reference => true := by
    funext r
    simp only [Function.comp_def, isCounted, apart, Bool.not_false]
  rw [List.filter_map, all, List.filter_true, List.map_map]
  exact List.map_id own

theorem index_apart {trail : List Step} (apart : trail.contains (.key "$ref") = false)
    (index : Nat) : (Step.index index :: trail).contains (.key "$ref") = false := by
  rw [List.contains_cons, apart]
  rfl

mutual
theorem reference_occurrencesAt (structural : Bool) {trail : List Step}
    (apart : trail.contains (.key "$ref") = false) : ∀ value : Json,
    (occurrencesAt structural value).map (·.reference) =
      ((sites trail value).filter isCounted).map Prod.snd
  | obj entries => by
    rw [occurrencesAt, sites, List.map_append, List.filter_append, List.map_append,
      reference_occurrence?, filter_own apart, reference_occurrencesInEntries apart entries]
  | arr items => by
    rw [occurrencesAt, sites]
    exact reference_occurrencesInItems apart 0 items
  | null => rfl
  | bool _ => rfl
  | num _ => rfl
  | str _ => rfl

theorem reference_occurrencesInEntries {trail : List Step}
    (apart : trail.contains (.key "$ref") = false) : ∀ entries : List (String × Json),
    (occurrencesInEntries entries).map (·.reference) =
      ((sitesInEntries trail entries).filter isCounted).map Prod.snd
  | [] => rfl
  | (key, value) :: rest => by
    rw [sitesInEntries, List.filter_append, List.map_append,
      ← reference_occurrencesInEntries apart rest]
    by_cases own : key = "$ref"
    · have below : (Step.key key :: trail).contains (.key "$ref") := by
        rw [own, List.contains_cons, beq_self_eq_true, Bool.true_or]
      rw [filter_sites_below below value]
      cases value <;> simp [occurrencesInEntries, own]
    · have under : (Step.key key :: trail).contains (.key "$ref") = false := by
        rw [List.contains_cons, apart, Bool.or_false, beq_eq_false_iff_ne]
        exact fun same => own (Step.key.inj same).symm
      cases value with
      | arr items =>
        rw [occurrencesInEntries, if_neg own, List.map_append, sites]
        congr 1
        split
        · exact reference_occurrencesInMembers under items
        · exact reference_occurrencesInItems under 0 items
      | obj entries =>
        rw [← reference_occurrencesAt false under (obj entries)]
        simp [occurrencesInEntries, own]
      | _ => simp [occurrencesInEntries, own, occurrencesAt, sites]

theorem reference_occurrencesInItems {trail : List Step}
    (apart : trail.contains (.key "$ref") = false) (index : Nat) : ∀ items : List Json,
    (occurrencesInItems items).map (·.reference) =
      ((sitesInItems trail index items).filter isCounted).map Prod.snd
  | [] => rfl
  | value :: rest => by
    rw [occurrencesInItems, sitesInItems, List.map_append, List.filter_append, List.map_append,
      reference_occurrencesAt false (index_apart apart index) value,
      reference_occurrencesInItems apart (index + 1) rest]

theorem reference_occurrencesInMembers {trail : List Step}
    (apart : trail.contains (.key "$ref") = false) : ∀ items : List Json,
    (occurrencesInMembers items).map (·.reference) =
      ((sitesInItems trail 0 items).filter isCounted).map Prod.snd
  | [] => rfl
  | value :: rest => by
    rw [occurrencesInMembers, sitesInItems, List.map_append, List.filter_append, List.map_append,
      reference_occurrencesAt true (index_apart apart 0) value,
      reference_occurrencesInItems apart 1 rest]
end

/-! Redirecting -/

theorem get?_mapTextsInEntries (g : List Step → String → String) (trail : List Step)
    (entries : Table Json) (key : String) :
    Table.get? (mapTextsInEntries g trail entries) key =
      (entries.get? key).map (mapTexts g (.key key :: trail)) := by
  induction entries with
  | nil => rfl
  | cons entry rest ih =>
    rw [mapTextsInEntries, Table.get?, Table.get?]
    by_cases same : entry.1 = key
    · simp [same]
    · simp [same, ih]

/-- What a redirection makes of a reference by its place; what it writes is read again. -/
def turnSite (f : Reference → Option Reference) (site : List Step × Reference) :
    Option (List Step × Reference) :=
  if inMapped site.1 then some site
  else (Reference.parse? ((f site.2).getD site.2).raw).map (site.1, ·)

section
variable (f : Reference → Option Reference)

theorem ownReference_mapTexts (trail : List Step) (entries : Table Json) :
    (ownReference (mapTextsInEntries (redirectAt f) trail entries)).map (trail, ·) =
      ((ownReference entries).map (trail, ·)).filterMap (turnSite f) := by
  have target : isTarget (.key "$ref" :: trail) = !inMapped trail := by simp [isTarget]
  rw [ownReference, ownReference, get?_mapTextsInEntries]
  rcases entries.get? "$ref" with _ | value
  · rfl
  · cases value with
    | str raw =>
      simp only [Option.map_some, mapTexts, redirectAt, target, List.filterMap_map,
        Function.comp_def, turnSite]
      cases inside : inMapped trail with
      | true => simp
      | false =>
        simp only [Bool.not_false, if_true, Bool.false_eq_true, if_false,
          toList_parse?_redirectText, List.map_filterMap]
    | _ => rfl

mutual
theorem sites_mapTexts (trail : List Step) : ∀ value : Json,
    sites trail (mapTexts (redirectAt f) trail value) = (sites trail value).filterMap (turnSite f)
  | obj entries => by
    rw [mapTexts, sites, sites, List.filterMap_append, ownReference_mapTexts,
      sitesInEntries_mapTexts trail entries]
  | arr items => by
    rw [mapTexts, sites, sites]
    exact sitesInItems_mapTexts trail 0 items
  | null => rfl
  | bool _ => rfl
  | num _ => rfl
  | str _ => rfl

theorem sitesInEntries_mapTexts (trail : List Step) : ∀ entries : List (String × Json),
    sitesInEntries trail (mapTextsInEntries (redirectAt f) trail entries) =
      (sitesInEntries trail entries).filterMap (turnSite f)
  | [] => rfl
  | (key, value) :: rest => by
    rw [mapTextsInEntries, sitesInEntries, sitesInEntries, List.filterMap_append,
      sites_mapTexts (.key key :: trail) value, sitesInEntries_mapTexts trail rest]

theorem sitesInItems_mapTexts (trail : List Step) (index : Nat) : ∀ items : List Json,
    sitesInItems trail index (mapTextsInItems (redirectAt f) trail index items) =
      (sitesInItems trail index items).filterMap (turnSite f)
  | [] => rfl
  | value :: rest => by
    rw [mapTextsInItems, sitesInItems, sitesInItems, List.filterMap_append,
      sites_mapTexts (.index index :: trail) value, sitesInItems_mapTexts trail (index + 1) rest]
end

theorem sites_redirect (value : Json) :
    sites [] (redirect f false value) = (sites [] value).filterMap (turnSite f) := by
  rw [redirect_eq, sites_mapTexts]

end

/-- The name is redirected: a reference that has it under some `$ref` is given any other name. -/
def Redirects (value : Json) (name : String) : Prop :=
  ∃ trail r, (trail, r) ∈ sites [] value ∧ r.name = name ∧ ∀ other : String, other ≠ "" →
    (trail, r.renamed other) ∈ sites [] (redirect ( Renaming.apply? [(name, other)]) false value)

theorem exists_named_map {α : Type} (f : α → Reference) (l : List α) (name : String) :
    (∃ r ∈ l.map f, r.name = name) ↔ ∃ a ∈ l, (f a).name = name := by
  simp only [List.mem_map, exists_exists_and_eq_and]

theorem exists_fresh (names : List String) : ∃ name : String, name ≠ "" ∧ name ∉ names := by
  obtain ⟨name, fresh⟩ := Infinite.exists_notMem_finset ("" :: names).toFinset
  rw [List.mem_toFinset, List.mem_cons, not_or] at fresh
  exact ⟨name, fresh⟩

theorem redirects_iff (value : Json) (name : String) : value.Redirects name ↔
    ∃ site ∈ sites [] value, site.2.name = name ∧ inMapped site.1 = false := by
  constructor
  · rintro ⟨trail, r, stands, named, turned⟩
    refine ⟨(trail, r), stands, named, Bool.eq_false_iff.mpr fun inside => ?_⟩
    obtain ⟨other, nonempty, fresh⟩ := exists_fresh ((sites [] value).map (·.2.name))
    have there := turned other nonempty
    rw [sites_redirect] at there
    obtain ⟨⟨place, before⟩, stood, same⟩ := List.mem_filterMap.mp there
    by_cases below : inMapped place
    · rw [turnSite, if_pos below] at same
      cases same
      exact fresh (List.mem_map.mpr ⟨_, stood, rfl⟩)
    · rw [turnSite, if_neg below] at same
      obtain ⟨_, _, moved⟩ := Option.map_eq_some_iff.mp same
      cases moved
      exact below inside
  · rintro ⟨⟨trail, r⟩, stands, rfl, outside⟩
    refine ⟨trail, r, stands, rfl, fun other named => ?_⟩
    rw [sites_redirect]
    refine List.mem_filterMap.mpr ⟨(trail, r), stands, ?_⟩
    have read : Reference.parse? (r.renamed other).raw = some (r.renamed other) :=
      Reference.parse?_raw named
    simp [turnSite, outside, Renaming.apply?, Table.get?, read]

/-- Checking sees the references at all sites, counting those that no key `$ref` leads to, and a
redirection turns those that do not stand below a mapping value. So the three agree on the names
exactly when every name also has a site that counting sees and one that a redirection turns. -/
theorem traversals_agree_iff (value : Json) (names : List String) :
    value.occurrences.map (·.reference) = ((sites [] value).filter isCounted).map Prod.snd ∧
    (value.placedReferences names).map Prod.fst = (sites [] value).map Prod.snd ∧
    (∀ f, sites [] (redirect f false value) = (sites [] value).filterMap (turnSite f)) ∧
    ((∀ name, (name ∈ value.usage.keys ↔ ∃ placed ∈ value.placedReferences names,
        placed.1.name = name) ∧
      (value.Redirects name ↔ ∃ placed ∈ value.placedReferences names, placed.1.name = name)) ↔
      ∀ site ∈ sites [] value,
        (∃ same ∈ sites [] value, same.2.name = site.2.name ∧ isCounted same) ∧
        ∃ same ∈ sites [] value, same.2.name = site.2.name ∧ inMapped same.1 = false) := by
  have apart : ([] : List Step).contains (.key "$ref") = false := rfl
  have counted := reference_occurrencesAt false apart value
  have checked := fst_placedReferences names [] value
  refine ⟨counted, checked, fun f => sites_redirect f value, ?_⟩
  have inUsage (name : String) : name ∈ value.usage.keys ↔
      ∃ site ∈ sites [] value, site.2.name = name ∧ isCounted site := by
    rw [usage, Usage.mem_keys_tally_iff, ← exists_named_map Occurrence.reference, occurrences,
      counted, exists_named_map]
    simp only [List.mem_filter, and_assoc, and_comm]
  have isChecked (name : String) : (∃ placed ∈ value.placedReferences names, placed.1.name = name) ↔
      ∃ site ∈ sites [] value, site.2.name = name := by
    rw [← exists_named_map Prod.fst, checked, exists_named_map]
  simp only [inUsage, isChecked, redirects_iff]
  constructor
  · intro agree site stands
    exact ⟨(agree site.2.name).1.mpr ⟨site, stands, rfl⟩,
      (agree site.2.name).2.mpr ⟨site, stands, rfl⟩⟩
  · rintro each name
    refine ⟨⟨fun ⟨site, stands, named, _⟩ => ⟨site, stands, named⟩, ?_⟩,
      ⟨fun ⟨site, stands, named, _⟩ => ⟨site, stands, named⟩, ?_⟩⟩
    · rintro ⟨site, stands, rfl⟩
      exact (each site stands).1
    · rintro ⟨site, stands, rfl⟩
      exact (each site stands).2

/-- A property is called `$ref`. -/
def propertyNamedRef : Json :=
  .obj [("properties", .obj [("$ref", .obj [("$ref", .str "#/definitions/A")])])]

/-- A discriminator maps to an object instead of a text. -/
def mappedObject : Json :=
  .obj [("discriminator", .obj [("mapping", .obj [("a", .obj [("$ref", .str "#/definitions/A")])])])]

theorem traversals_disagree :
    (∃ placed ∈ propertyNamedRef.placedReferences [], placed.1.name = "A") ∧
      "A" ∉ propertyNamedRef.usage.keys ∧
    (∃ placed ∈ mappedObject.placedReferences [], placed.1.name = "A") ∧
      ¬ mappedObject.Redirects "A" := by
  refine ⟨⟨_, List.mem_cons_self, rfl⟩, List.not_mem_nil, ⟨_, List.mem_cons_self, rfl⟩, ?_⟩
  rw [redirects_iff]
  rintro ⟨site, stands, _, outside⟩
  have inside : ∀ site ∈ sites [] mappedObject, inMapped site.1 := by decide
  exact Bool.noConfusion (outside.symm.trans (inside site stands))

end SchemaGraph.Json
