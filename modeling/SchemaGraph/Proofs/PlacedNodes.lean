import Mathlib.Data.List.Nodup
import SchemaGraph.Proofs.Renaming
import SchemaGraph.Proofs.ShallowWalks

/- The nodes of a schema with their places, and what is rendered for a place. Where the properties are
   known by their names, every node is listed once, at the place where it is found; and what is rendered
   for its place in a definition that has a name reads back as a reference that leads to the node. -/
namespace SchemaGraph

/-- Lists without repetition under different tags make one list without repetition. -/
theorem nodup_flatMap_tagged {α β γ δ : Type} {l : List α} {tag : α → β} {inside : α → List γ}
    {join : β → γ → δ} (injective : ∀ b c b' c', join b c = join b' c' → b = b' ∧ c = c')
    (apart : (l.map tag).Nodup) (each : ∀ a ∈ l, (inside a).Nodup) :
    (l.flatMap fun a => (inside a).map (join (tag a))).Nodup := by
  rw [List.nodup_flatMap]
  refine ⟨fun a listed => (each a listed).map fun _ _ same => (injective _ _ _ _ same).2, ?_⟩
  refine (List.pairwise_map.mp apart).imp fun differ d here there => ?_
  obtain ⟨_, _, rfl⟩ := List.mem_map.mp here
  obtain ⟨_, _, same⟩ := List.mem_map.mp there
  exact differ (injective _ _ _ _ same).1.symm

namespace Children
variable {α β : Type}

/-- The children with the steps that lead to them. -/
def steps (c : Children α) : List (Step × α) :=
  let members (step : Nat → Step) (list : Option (List α)) : List (Step × α) :=
    (list.getD []).zipIdx.map fun e => (step e.2, e.1)
  (c.properties.getD []).map (fun e => (.property e.1, e.2)) ++ c.items.toList.map (.items, ·) ++
    c.not.toList.map (.not, ·) ++ (c.additional.bind (·.schema?)).toList.map (.additional, ·) ++
    members .allOf c.allOf ++ members .oneOf c.oneOf ++ members .anyOf c.anyOf

theorem placedChildren_eq (c : Children α) :
    Schema.placedChildren c = c.steps.map fun e => (e.1.segments, e.2) := by
  simp [Schema.placedChildren, steps, Step.segments, Function.comp_def]

/-- Those that a walk enters are the ones with such a step. -/
theorem steps_entered (c : Children α) : c.entered.steps = c.steps.filter (·.1.isEntered) := by
  simp [steps, entered, List.filter_map, Function.comp_def, Step.isEntered]

theorem mem_steps_iff {c : Children α} (distinct : Table.Distinct (c.properties.getD []))
    (step : Step) (a : α) : (step, a) ∈ c.steps ↔ c.child? step = some a := by
  have member (list : Option (List α)) (i : Nat) :
      (list.getD [])[i]? = some a ↔ list.bind (·[i]?) = some a := by
    cases list <;> simp
  have property (key : String) :
      (key, a) ∈ c.properties.getD [] ↔ c.properties.bind (Table.get? · key) = some a := by
    cases held : c.properties with
    | none => simp
    | some t =>
      rw [held] at distinct
      exact ⟨Table.get?_of_mem distinct, Table.mem_of_get?⟩
  cases step <;>
    simp [steps, child?, List.mem_zipIdx_iff_getElem?, member, property]

theorem nodup_steps {c : Children α} (distinct : Table.Distinct (c.properties.getD [])) :
    (c.steps.map Prod.fst).Nodup := by
  have indices (step : Nat → Step) (injective : Function.Injective step) (list : Option (List α)) :
      ((list.getD []).zipIdx.map fun e => step e.2).Nodup := by
    have listed : ((list.getD []).zipIdx.map Prod.snd).Nodup := by
      rw [List.zipIdx_map_snd]
      exact List.nodup_range'
    have mapped := listed.map injective
    rwa [List.map_map] at mapped
  have keys : ((c.properties.getD []).map fun e => Step.property e.1).Nodup := by
    have mapped := distinct.map (f := Step.property) fun _ _ same => by cases same; rfl
    rwa [Table.keys, List.map_map] at mapped
  have once (step : Step) (o : Option α) : (o.toList.map fun _ => step).Nodup := by
    cases o <;> simp
  simp only [steps, List.map_append, List.map_map, Function.comp_def]
  have allOf := indices .allOf (fun _ _ same => Step.allOf.inj same) c.allOf
  have oneOf := indices .oneOf (fun _ _ same => Step.oneOf.inj same) c.oneOf
  have anyOf := indices .anyOf (fun _ _ same => Step.anyOf.inj same) c.anyOf
  simp only [List.nodup_append, keys, once, allOf, oneOf, anyOf, List.mem_append, List.mem_map]
  grind

theorem steps_map (f : α → β) (c : Children α) :
    (c.map f).steps = c.steps.map fun e => (e.1, f e.2) := by
  have members (step : Nat → Step) (list : Option (List α)) :
      ((list.map (List.map f)).getD []).zipIdx.map (fun e => (step e.2, e.1)) =
        ((list.getD []).zipIdx.map fun e => (step e.2, e.1)).map fun e => (e.1, f e.2) := by
    cases list <;> simp [List.zipIdx_map, Function.comp_def]
  have option (step : Step) (o : Option α) :
      (o.map f).toList.map (step, ·) = (o.toList.map (step, ·)).map fun e => (e.1, f e.2) := by
    cases o <;> rfl
  have properties :
      ((c.properties.map (Table.mapValues f)).getD []).map (fun e => (Step.property e.1, e.2)) =
        ((c.properties.getD []).map fun e => (Step.property e.1, e.2)).map
          fun e => (e.1, f e.2) := by
    cases c.properties <;> simp [Table.mapValues]
  simp only [steps, map, members, option, properties, Additional.schema?_map, List.map_append]

end Children

namespace Schema

/-- The nodes with their places, each before those below it. -/
def placedNodes : Schema → List (Place × Schema) :=
  para fun k c => ([], ⟨k, c.map Prod.fst⟩) ::
    c.steps.flatMap fun e => e.2.2.map fun below => (e.1 :: below.1, below.2)

theorem placedNodes_mk (k : Keywords) (c : Children Schema) :
    placedNodes ⟨k, c⟩ = ([], ⟨k, c⟩) ::
      c.steps.flatMap fun e => e.2.placedNodes.map fun below => (e.1 :: below.1, below.2) := by
  have same : c.map (fun child => child) = c := c.map_id
  rw [placedNodes, para_mk, Children.steps_map, List.flatMap_map, Children.map_map, same]

theorem mem_toList_of_steps {c : Children Schema} {e : Step × Schema} (listed : e ∈ c.steps) :
    e.2 ∈ c.toList := by
  refine (mem_placedChildren_iff c e.2).mp ⟨e.1.segments, ?_⟩
  rw [c.placedChildren_eq]
  exact List.mem_map_of_mem listed

theorem mem_placedNodes_iff {s : Schema} (keyed : s.keyed) {place : Place} {t : Schema} :
    (place, t) ∈ s.placedNodes ↔ s.node? place = some t := by
  induction s using children_induction generalizing place with
  | step k c ih =>
    obtain ⟨distinct, each⟩ := (keyed_mk_iff k c).mp keyed
    have below {e : Step × Schema} (listed : e ∈ c.steps) (rest : Place) :
        (rest, t) ∈ e.2.placedNodes ↔ e.2.node? rest = some t :=
      have member := mem_toList_of_steps listed
      ih e.2 member ((Children.each_iff _ c).mp each e.2 member)
    rw [placedNodes_mk, List.mem_cons]
    cases place with
    | nil => simp [node?, eq_comm]
    | cons step rest =>
      simp only [List.mem_flatMap, List.mem_map, Prod.mk.injEq, List.cons.injEq, reduceCtorEq,
        false_and, false_or, node?, Option.bind_eq_some_iff]
      constructor
      · rintro ⟨e, listed, node, inside, ⟨rfl, rfl⟩, rfl⟩
        exact ⟨e.2, (Children.mem_steps_iff distinct e.1 e.2).mp listed, (below listed node.1).mp inside⟩
      · rintro ⟨child, found, stands⟩
        have listed := (Children.mem_steps_iff distinct step child).mpr found
        exact ⟨_, listed, (rest, t), (below listed rest).mpr stands, ⟨rfl, rfl⟩, rfl⟩

theorem nodup_placedNodes {s : Schema} (keyed : s.keyed) : (s.placedNodes.map Prod.fst).Nodup := by
  induction s using children_induction with
  | step k c ih =>
    obtain ⟨distinct, each⟩ := (keyed_mk_iff k c).mp keyed
    have below : (c.steps.flatMap fun e => e.2.placedNodes.map fun below =>
          (e.1 :: below.1, below.2)).map Prod.fst =
        c.steps.flatMap fun e => (e.2.placedNodes.map Prod.fst).map (List.cons e.1) := by
      simp [List.map_flatMap, Function.comp_def]
    rw [placedNodes_mk, List.map_cons, below, List.nodup_cons]
    refine ⟨by simp, nodup_flatMap_tagged (fun _ _ _ _ => List.cons.inj)
      (Children.nodup_steps distinct) fun e listed => ?_⟩
    have member := mem_toList_of_steps listed
    exact ih e.2 member ((Children.each_iff _ c).mp each e.2 member)

theorem placedReferences_eq (s : Schema) (trail : List String) : s.placedReferences trail =
    s.placedNodes.flatMap fun e => e.2.keywords.allReferences.map (·, e.1.trail ++ trail) := by
  induction s using children_induction generalizing trail with
  | step k c ih =>
    rw [placedReferences_mk, placedNodes_mk, List.flatMap_cons, List.flatMap_assoc,
      c.placedChildren_eq, List.flatMap_map]
    refine congrArg _ (List.flatMap_congr fun e listed => ?_)
    rw [ih e.2 (mem_toList_of_steps listed), List.flatMap_map]
    simp only [Place.trail_cons, List.append_assoc]

end Schema

namespace Definitions

/-- The nodes of all definitions with their places. -/
def placedNodes (definitions : Definitions) : List ((String × Place) × Schema) :=
  definitions.flatMap fun e => e.2.placedNodes.map fun node => ((e.1, node.1), node.2)

variable {definitions : Definitions} (distinct : definitions.Distinct)
  (keyed : ∀ e ∈ definitions, e.2.keyed)
include distinct keyed

theorem mem_placedNodes_iff {name : String} {place : Place} {s : Schema} :
    ((name, place), s) ∈ definitions.placedNodes ↔ definitions.node? name place = some s := by
  simp only [placedNodes, List.mem_flatMap, List.mem_map, Prod.mk.injEq, node?,
    Option.bind_eq_some_iff]
  constructor
  · rintro ⟨e, listed, node, inside, ⟨rfl, rfl⟩, rfl⟩
    exact ⟨e.2, Table.get?_of_mem distinct listed,
      (Schema.mem_placedNodes_iff (keyed e listed)).mp inside⟩
  · rintro ⟨root, found, stands⟩
    have listed := Table.mem_of_get? found
    exact ⟨_, listed, (place, s), (Schema.mem_placedNodes_iff (keyed _ listed)).mpr stands,
      ⟨rfl, rfl⟩, rfl⟩

theorem nodup_placedNodes : (definitions.placedNodes.map Prod.fst).Nodup := by
  have places : definitions.placedNodes.map Prod.fst =
      definitions.flatMap fun e => (e.2.placedNodes.map Prod.fst).map (Prod.mk e.1) := by
    simp [placedNodes, List.map_flatMap, Function.comp_def]
  rw [places]
  exact nodup_flatMap_tagged (fun _ _ _ _ => Prod.mk.inj) distinct fun e listed =>
    Schema.nodup_placedNodes (keyed e listed)

end Definitions

/-- The digits of an index read back as the index. -/
theorem Schema.index?_toString (i : Nat) : index? (toString i) = some i := by
  have isDigit : ∀ c ∈ Nat.toDigits 10 i, ('0' ≤ c && c ≤ '9') = true := fun _ member =>
    Nat.isDigit_of_mem_toDigits (by omega) (by omega) member
  have written : (toString i).toList = Nat.toDigits 10 i := by
    rw [Nat.toString_eq_repr, Nat.toList_repr]
  have unsigned : ∀ rest, (toString i).toList ≠ '+' :: rest := by
    intro rest signed
    rw [← written, signed] at isDigit
    exact absurd (isDigit '+' List.mem_cons_self) (by decide)
  have value : (Nat.toDigits 10 i).foldl (fun n c => 10 * n + (c.toNat - '0'.toNat)) 0 = i :=
    Nat.ofDigitChars_ten_toDigits
  rw [index?]
  split
  · rename_i rest signed
    exact absurd signed (unsigned rest)
  · rw [written, value, if_pos ⟨Nat.toDigits_ne_nil, List.all_eq_true.mpr isDigit⟩]

/-- The segments of a step lead from a node to the child. -/
theorem Schema.descend_step (step : Step) (rest : List String) (s : Schema) :
    s.descend (step.segments ++ rest) = (s.children.child? step).bind (descend rest) := by
  have member (list : Option (List Schema)) (i : Nat) :
      descend.member? list i.repr = list.bind (·[i]?) := by
    rw [descend.member?, ← Nat.toString_eq_repr, index?_toString]
    rfl
  cases step with
  | allOf i | oneOf i | anyOf i => simp [Step.segments, descend, Children.child?, member]
  | property | items | not | additional => simp [Step.segments, descend, Children.child?]

namespace Place

/-- The segments from the root to the node. -/
def segments (place : Place) : List String := place.flatMap Step.segments

theorem trail_eq (place : Place) : place.trail = place.segments.reverse := rfl

/-- What is rendered for the node at the place of a definition. -/
def location (flavor : Flavor) (name : String) (place : Place) : String :=
  Pointer.render (flavor.segments ++ name :: place.segments)

/-- A location tells the definition and the place in it. -/
theorem location_inj {flavor : Flavor} {name other : String} {place there : Place}
    (same : place.location flavor name = there.location flavor other) :
    name = other ∧ place = there := by
  have read := congrArg locate? same
  rw [location, location, locate?_render, locate?_render] at read
  simp only [Option.some.injEq, Prod.mk.injEq, List.cons.injEq, true_and] at read
  exact ⟨read.1, trail_injective (congrArg List.reverse read.2)⟩

end Place

theorem Schema.descend_segments (place : Place) (s : Schema) :
    s.descend place.segments = s.node? place := by
  induction place generalizing s with
  | nil => rw [Place.segments, List.flatMap_nil, descend, node?]
  | cons step rest ih =>
    have below := s.descend_step step (Place.segments rest)
    rw [Place.segments, List.flatMap_cons, ← Place.segments, below, node?]
    exact Option.bind_congr fun child _ => ih child

namespace Definitions

/-- The location reads as a reference, and this leads to the node. -/
def Locates (definitions : Definitions) (location : String) (s : Schema) : Prop :=
  ∃ r, Reference.parse location = .ok r ∧ definitions.resolve r location = .ok s

/-- What is rendered for a node locates it if the definition has a name. -/
theorem locates_location {definitions : Definitions} (flavor : Flavor) {name : String}
    (named : name ≠ "") {place : Place} {s : Schema} (stands : definitions.node? name place = some s) :
    definitions.Locates (place.location flavor name) s := by
  let r := Reference.ofParts flavor name place.segments
  have read : Reference.parse? r.raw = some r := Reference.parse?_raw named
  have leads : definitions.target? r = some s := by
    rw [← stands, target?, node?]
    exact Option.bind_congr fun root _ => root.descend_segments place
  refine ⟨r, ?_, ?_⟩
  · show Reference.parse r.raw = _
    rw [Reference.parse, read]
  · rw [resolve, leads]

end Definitions
end SchemaGraph
