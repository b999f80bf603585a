import SchemaGraph.Proofs.Integrity
import SchemaGraph.Proofs.PlacedNodes

/- What is reported of the definitions when references lead nowhere. A report names such a reference and
   the location of a node that says it; and the reports of one node are as many as it says such references,
   each as often as it is said. -/
namespace SchemaGraph

/-- What is said `n` times at a key is listed `n` times for it. -/
theorem count_flatMap_map {κ υ β γ : Type} [DecidableEq β] [DecidableEq γ] {f : υ → List β}
    {g : κ → β → γ} (injective : ∀ {k k' b b'}, g k b = g k' b' → k = k' ∧ b = b')
    {l : List (κ × υ)} (nodup : (l.map Prod.fst).Nodup) {k : κ} {v : υ} (listed : (k, v) ∈ l) (b : β) :
    (l.flatMap fun e => (f e.2).map (g e.1)).count (g k b) = (f v).count b := by
  have elsewhere {k' : κ} (differs : k' ≠ k) (bs : List β) : (bs.map (g k')).count (g k b) = 0 := by
    refine List.count_eq_zero.mpr fun member => ?_
    obtain ⟨b', _, same⟩ := List.mem_map.mp member
    exact differs (injective same).1
  induction l with
  | nil => cases listed
  | cons e rest ih =>
    obtain ⟨fresh, nodupRest⟩ := List.nodup_cons.mp nodup
    rw [List.flatMap_cons, List.count_append]
    rcases List.mem_cons.mp listed with rfl | later
    · have others : (rest.flatMap fun e => (f e.2).map (g e.1)).count (g k b) = 0 := by
        refine List.count_eq_zero.mpr fun member => ?_
        obtain ⟨e', inside, member⟩ := List.mem_flatMap.mp member
        obtain ⟨b', _, same⟩ := List.mem_map.mp member
        exact fresh (List.mem_map.mpr ⟨e', inside, (injective same).1⟩)
      rw [others, List.count_map_of_injective (f v) (g k) (fun _ _ same => (injective same).2)]
      exact Nat.add_zero _
    · have differs : e.1 ≠ k := fun same => fresh (same ▸ List.mem_map_of_mem later)
      rw [elsewhere differs, ih nodupRest later, Nat.zero_add]

/-- The node refers by `r`: with one of its keywords, or with a value of its discriminator mapping that
reads as a reference. -/
inductive Keywords.Mentions (k : Keywords) (r : Reference) : Prop where
  | reference (said : k.reference = some r)
  | shape (said : k.typeOf = some r)
  | ancestor (said : k.ancestor = some r)
  | descendant {l : List Reference} (said : k.descendants = some l) (listed : r ∈ l)
  | mapped {d : Discriminator} {t : Table String} {raw : String} (said : k.discriminator = some d)
      (holds : d.mapping = some t) (listed : raw ∈ t.values) (read : Reference.parse? raw = some r)

theorem Keywords.mentions_of_mem {k : Keywords} {r : Reference} (refers : r ∈ k.allReferences) :
    k.Mentions r :=
  have each : k.Each k.Mentions :=
    { reference := fun _ said => .reference said
      typeOf := fun _ said => .shape said
      ancestor := fun _ said => .ancestor said
      descendants := fun _ said _ listed => .descendant said listed
      mapping := fun _ said _ holds _ listed _ read => .mapped said holds listed read }
  (Keywords.each_iff _ k).mp each r refers

namespace Document
variable (d : Document)

/-- The errors of the references that stand in definitions. -/
def danglingInDefinitions : List Error :=
  (d.definitions.flatMap fun (name, s) =>
    s.placedReferences (name :: d.flavor.segments.reverse)).filterMap d.definitions.check?

/-- The errors of the references that stand in the raw part. -/
def danglingInRaw : List Error :=
  (d.raw.flatMap fun (key, value) => value.placedReferences [key]).filterMap d.definitions.check?

theorem danglingReferences_eq :
    d.danglingReferences = d.danglingInDefinitions ++ d.danglingInRaw := List.filterMap_append

/-- The references of a node that lead nowhere. -/
def lost (s : Schema) : List Reference :=
  s.keywords.allReferences.filter fun r => (d.definitions.target? r).isNone

/-- The error of a reference at a place of a definition. -/
def report (key : String × Place) (r : Reference) : Error :=
  .unresolvedReference r.raw (key.2.location d.flavor key.1)

variable {d} in
theorem report_inj {key other : String × Place} {r r' : Reference}
    (same : d.report key r = d.report other r') : key = other ∧ r = r' := by
  obtain ⟨raw, location⟩ := Error.unresolvedReference.inj same
  obtain ⟨name, place⟩ := Place.location_inj location
  exact ⟨Prod.ext name place, Reference.eq_of_raw raw⟩

/-- Checking goes through the nodes and reports what each has lost. -/
theorem danglingInDefinitions_eq : d.danglingInDefinitions =
    d.definitions.placedNodes.flatMap fun e => (d.lost e.2).map (d.report e.1) := by
  have checked (name : String) (place : Place) (s : Schema) :
      (s.keywords.allReferences.map
        (·, place.trail ++ name :: d.flavor.segments.reverse)).filterMap d.definitions.check? =
        (d.lost s).map (d.report (name, place)) := by
    rw [lost, ← List.filterMap_eq_map (f := d.report (name, place)), List.filterMap_filter,
      List.filterMap_map]
    refine List.filterMap_congr fun r _ => ?_
    have location : Pointer.render (place.trail ++ name :: d.flavor.segments.reverse).reverse =
        place.location d.flavor name := by
      simp [Place.location, Place.trail_eq]
    rw [Function.comp_apply, Definitions.check?, location]
    cases d.definitions.target? r <;> rfl
  rw [danglingInDefinitions, Definitions.placedNodes, List.filterMap_flatMap, List.flatMap_assoc]
  refine List.flatMap_congr fun e _ => ?_
  obtain ⟨name, s⟩ := e
  have placed := s.placedReferences_eq (name :: d.flavor.segments.reverse)
  rw [List.flatMap_map]
  show (s.placedReferences (name :: d.flavor.segments.reverse)).filterMap _ = _
  rw [placed, List.filterMap_flatMap]
  exact List.flatMap_congr fun node _ => checked name node.1 node.2

/-- Every error reported of the definitions has a location that reads as a reference to a node which
refers by the lost reference; and every reference of a node at any place of a definition that leads
nowhere is reported at its location as often as the node refers by it. -/
theorem dangling_at_culprits (distinct : d.definitions.Distinct)
    (keyed : ∀ e ∈ d.definitions, e.2.keyed) (named : ∀ name ∈ d.definitions.keys, name ≠ "") :
    d.danglingReferences = d.danglingInDefinitions ++ d.danglingInRaw ∧
    (∀ e ∈ d.danglingInDefinitions, ∃ r location s, e = .unresolvedReference r.raw location ∧
      d.definitions.Locates location s ∧ s.keywords.Mentions r ∧ d.definitions.target? r = none) ∧
    ∀ name place s, d.definitions.node? name place = some s →
      ∀ r, d.definitions.target? r = none →
        d.danglingInDefinitions.count (.unresolvedReference r.raw (place.location d.flavor name)) =
          s.keywords.allReferences.count r := by
  refine ⟨d.danglingReferences_eq, fun e reported => ?_, fun name place s stands r lost => ?_⟩
  · rw [danglingInDefinitions_eq] at reported
    obtain ⟨⟨⟨name, place⟩, s⟩, listed, reported⟩ := List.mem_flatMap.mp reported
    obtain ⟨r, missing, rfl⟩ := List.mem_map.mp reported
    obtain ⟨refers, lost⟩ := List.mem_filter.mp missing
    have stands := (Definitions.mem_placedNodes_iff distinct keyed).mp listed
    obtain ⟨root, found, _⟩ := Option.bind_eq_some_iff.mp stands
    have known := (Table.exists_get?_iff _ name).mp ⟨root, found⟩
    exact ⟨r, _, s, rfl, Definitions.locates_location d.flavor (named name known) stands,
      Keywords.mentions_of_mem refers, Option.isNone_iff_eq_none.mp lost⟩
  · have listed := (Definitions.mem_placedNodes_iff distinct keyed).mpr stands
    have once := Definitions.nodup_placedNodes distinct keyed
    rw [danglingInDefinitions_eq]
    refine (count_flatMap_map (g := d.report) report_inj once listed r).trans ?_
    exact List.count_filter (Option.isNone_iff_eq_none.mpr lost)

/-- A property refers twice to a definition that is not there. -/
def stray : Document where
  raw := [("definitions", .null)]
  flavor := .definitions
  hasSlot := true
  definitions :=
    let absent := Reference.toDefinition "C" .definitions
    let twice : Schema := { keywords := { reference := absent, ancestor := absent } }
    [("A/B", { children := { properties := some [("x~y", twice)] } })]

theorem dangling_at_culprits_stray :
    stray.danglingReferences = stray.danglingInDefinitions ++ stray.danglingInRaw ∧
    (∀ e ∈ stray.danglingInDefinitions, ∃ r location s, e = .unresolvedReference r.raw location ∧
      stray.definitions.Locates location s ∧ s.keywords.Mentions r ∧
      stray.definitions.target? r = none) ∧
    stray.danglingInDefinitions.count
      (.unresolvedReference "#/definitions/C" "#/definitions/A~1B/properties/x~0y") = 2 := by
  have keyed : ∀ e ∈ stray.definitions, e.2.keyed := by
    simp [stray, Schema.keyed_mk_iff, Children.each_iff, Children.toList, Table.Distinct,
      Table.keys, Table.values]
  obtain ⟨parts, culprits, counted⟩ :=
    dangling_at_culprits (d := stray) (by decide) keyed (by decide)
  exact ⟨parts, culprits, counted "A/B" [.property "x~y"] _ rfl (.toDefinition "C" .definitions) rfl⟩

end Document
end SchemaGraph
