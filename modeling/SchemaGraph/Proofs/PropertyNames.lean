import SchemaGraph.Proofs.Entered

/- Renaming the properties of all schemas. A walk and the renaming change places when the hooks of
   the visitor see no difference between corresponding positions. -/
namespace SchemaGraph

namespace Children
variable {α β : Type}

/-- Gives the properties new names. -/
def renameKeys (f : String → String) (c : Children α) : Children α :=
  { c with properties := c.properties.map (List.map fun e => (f e.1, e.2)) }

theorem renameKeys_map (f : String → String) (g : α → β) (c : Children α) :
    (c.renameKeys f).map g = (c.map g).renameKeys f := by
  simp only [renameKeys, map, Option.map_map, Function.comp_def, Table.mapValues, List.map_map]

/-- The segments that lead to a child after the renaming. -/
def renameSegments (f : String → String) : List String → List String
  | [keyword, key] => [keyword, if keyword = "properties" then f key else key]
  | segments => segments

/-- How a walk comes to the children. -/
theorem cases_of_placed {c : Children α} {placed : List String × α}
    (listed : placed ∈ c.enteredPlaces) :
    (∃ e ∈ c.properties.getD [], placed = (["properties", e.1], e.2)) ∨
      (c.items = some placed.2 ∧ placed.1 = ["items"]) ∨
      ∃ i : Nat, placed.1 = ["allOf", toString i] ∨ placed.1 = ["oneOf", toString i] ∨
        placed.1 = ["anyOf", toString i] := by
  have members {keyword : String} {list : List α}
      (listed : placed ∈ mapMembers Prod.mk keyword list) :
      ∃ i : Nat, placed.1 = [keyword, toString i] := by
    obtain ⟨i, _, rfl⟩ := List.mem_mapIdx.mp listed
    exact ⟨i, rfl⟩
  rw [enteredPlaces_eq] at listed
  simp only [List.mem_append] at listed
  rcases listed with (((property | items) | allOf) | oneOf) | anyOf
  · obtain ⟨e, inTable, rfl⟩ := List.mem_map.mp property
    exact Or.inl ⟨e, inTable, rfl⟩
  · obtain ⟨a, found, rfl⟩ := List.mem_map.mp items
    exact Or.inr (Or.inl ⟨Option.mem_toList.mp found, rfl⟩)
  · exact Or.inr (Or.inr ((members allOf).imp fun _ here => Or.inl here))
  · exact Or.inr (Or.inr ((members oneOf).imp fun _ here => Or.inr (Or.inl here)))
  · exact Or.inr (Or.inr ((members anyOf).imp fun _ here => Or.inr (Or.inr here)))

/-- Changing the renamed children is renaming the changed ones, if each child is changed alike. -/
theorem mapEntered_renameKeys {f : String → String} {r : α → α} {g h : List String → α → α}
    {c : Children α} (alike : ∀ placed ∈ c.enteredPlaces,
      g (renameSegments f placed.1) (r placed.2) = r (h placed.1 placed.2)) :
    ((c.map r).renameKeys f).mapEntered g = ((c.mapEntered h).map r).renameKeys f := by
  rw [enteredPlaces_eq] at alike
  simp only [List.forall_mem_append, List.forall_mem_map] at alike
  obtain ⟨⟨⟨⟨properties, items⟩, allOf⟩, oneOf⟩, anyOf⟩ := alike
  have members {keyword : String} {list : Option (List α)} (apart : keyword ≠ "properties")
      (each : ∀ placed ∈ mapMembers Prod.mk keyword (list.getD []),
        g (renameSegments f placed.1) (r placed.2) = r (h placed.1 placed.2)) :
      (list.map (List.map r)).map (mapMembers g keyword) =
        (list.map (mapMembers h keyword)).map (List.map r) := by
    cases list with
    | none => rfl
    | some l =>
      have same : mapMembers (fun segments a => g segments (r a)) keyword l =
          mapMembers (fun segments a => r (h segments a)) keyword l := by
        refine (mapMembers_eq_iff keyword l).mpr fun placed listed => ?_
        have here := each placed listed
        obtain ⟨i, _, rfl⟩ := List.mem_mapIdx.mp listed
        rwa [renameSegments, if_neg apart] at here
      simp only [Option.map_some, mapMembers_map, map_mapMembers, same]
  simp only [renameKeys, map, mapEntered, members (by decide) allOf, members (by decide) oneOf,
    members (by decide) anyOf]
  congr 1
  · cases found : c.items with
    | none => rfl
    | some a => exact congrArg some (items a (Option.mem_toList.mpr found))
  · cases found : c.properties with
    | none => rfl
    | some t =>
      rw [found] at properties
      simp only [Option.map_some, Table.mapValues, List.map_map]
      exact congrArg some (List.map_congr_left fun e inTable =>
        congrArg (Prod.mk (f e.1)) (properties e inTable))

theorem enteredPlaces_renameKeys (f : String → String) (r : α → β) (c : Children α) :
    ((c.map r).renameKeys f).enteredPlaces =
      c.enteredPlaces.map fun placed => (renameSegments f placed.1, r placed.2) := by
  have members (keyword : String) (apart : keyword ≠ "properties") (list : Option (List α)) :
      mapMembers Prod.mk keyword ((list.map (List.map r)).getD []) =
        (mapMembers Prod.mk keyword (list.getD [])).map
          fun placed => (renameSegments f placed.1, r placed.2) := by
    cases list with
    | none => rfl
    | some l =>
      simp only [Option.map_some, Option.getD_some, mapMembers_map, map_mapMembers]
      refine (mapMembers_eq_iff keyword l).mpr fun placed listed => ?_
      obtain ⟨i, _, rfl⟩ := List.mem_mapIdx.mp listed
      rw [renameSegments, if_neg apart]
  rw [enteredPlaces_eq, enteredPlaces_eq]
  simp only [renameKeys, map, List.map_append, members "allOf" (by decide),
    members "oneOf" (by decide), members "anyOf" (by decide)]
  congr 4
  · cases c.properties with
    | none => rfl
    | some t => simp [Table.mapValues, renameSegments]
  · cases c.items <;> rfl

end Children

namespace Schema

/-- Gives all properties new names, those below `not` and in additional properties as well. -/
def renameProperties (f : String → String) : Schema → Schema := fold fun k c => ⟨k, c.renameKeys f⟩

section
variable (f : String → String)

theorem renameProperties_mk (k : Keywords) (c : Children Schema) :
    renameProperties f ⟨k, c⟩ = ⟨k, (c.map (renameProperties f)).renameKeys f⟩ := fold_mk _ k c

theorem renameProperties_eq (s : Schema) : s.renameProperties f =
    ⟨s.keywords, (s.children.map (renameProperties f)).renameKeys f⟩ := by
  obtain ⟨k, c⟩ := s
  exact renameProperties_mk f k c

@[simp] theorem keywords_renameProperties (s : Schema) :
    (s.renameProperties f).keywords = s.keywords := by rw [renameProperties_eq]

@[simp] theorem children_renameProperties (s : Schema) : (s.renameProperties f).children =
    (s.children.map (renameProperties f)).renameKeys f := by rw [renameProperties_eq]

theorem levels_renameProperties (s : Schema) : (s.renameProperties f).levels = s.levels := by
  induction s using children_induction with
  | step k c ih =>
    have below : (c.map (renameProperties f)).map levels = c.map levels := by
      rw [Children.map_map]
      exact Children.map_congr ((Children.each_iff _ c).mpr ih)
    have values (c : Children Nat) :
        ((c.renameKeys f).properties.map Table.values).getD [] =
          (c.properties.map Table.values).getD [] := by
      cases properties : c.properties <;>
        simp [Children.renameKeys, properties, Table.values]
    rw [renameProperties_mk, levels, fold_mk, fold_mk, ← levels, Children.renameKeys_map, below,
      values]
    rfl

end

/-- On the properties that show something the renaming makes no difference for a name. -/
def Indifferent (f : String → String) (name : String) (shows : Schema → Bool) (s : Schema) : Prop :=
  ∀ node ∈ s.met [], ∀ e ∈ node.2.children.properties.getD [],
    shows e.2 → (f e.1 = name ↔ e.1 = name)

section
variable {f : String → String} {name : String} {shows : Schema → Bool} {s : Schema}

instance : Decidable (s.Indifferent f name shows) :=
  inferInstanceAs (Decidable (∀ node ∈ s.met [], ∀ e ∈ node.2.children.properties.getD [],
    shows e.2 → (f e.1 = name ↔ e.1 = name)))

theorem Indifferent.own (h : s.Indifferent f name shows) :
    ∀ e ∈ s.children.properties.getD [], shows e.2 → (f e.1 = name ↔ e.1 = name) :=
  h _ (s.mem_met_self [])

theorem Indifferent.below (h : s.Indifferent f name shows) {placed : List String × Schema}
    (listed : placed ∈ s.children.enteredPlaces) : placed.2.Indifferent f name shows := by
  obtain ⟨k, c⟩ := s
  have each := ((forall_met_mk_iff (fun s => ∀ e ∈ s.children.properties.getD [],
    shows e.2 → (f e.1 = name ↔ e.1 = name)) k c).mp h).2
  exact forall_placed_iff.mpr each placed listed

end

/-- A relation between the positions of a node before and after the renaming, for walks on which the
renaming can be put off. -/
structure Follows (f : String → String) (v w : Visitor Id)
    (related : Position → Position → Schema → Prop) : Prop where
  before : ∀ {p q s}, related p q s →
    (w.before q (s.renameProperties f)).run = (v.before p s).run.renameProperties f
  below : ∀ {p q s}, related p q s → ∀ placed ∈ (v.before p s).run.children.enteredPlaces,
    related (p.child (v.before p s).run.keywords.xml placed.1)
      (q.child (v.before p s).run.keywords.xml (Children.renameSegments f placed.1)) placed.2
  after : ∀ {p q s}, related p q s → ∀ visit : List String → Schema → Schema,
    (w.after q (renameProperties f { (v.before p s).run with
      children := (v.before p s).run.children.mapEntered visit })).run =
    (v.after p { (v.before p s).run with
      children := (v.before p s).run.children.mapEntered visit }).run.renameProperties f

theorem Follows.walk {f : String → String} {v w : Visitor Id}
    {related : Position → Position → Schema → Prop} (follows : Follows f v w related) (levels : Nat)
    {p q : Position} {s : Schema} (start : related p q s) :
    ((s.renameProperties f).walk w levels q).run = (s.walk v levels p).run.renameProperties f := by
  induction levels generalizing p q s with
  | zero => rfl
  | succ levels ih =>
    rw [walk_succ, walk_succ, follows.before start, ← follows.after start]
    have below := Children.mapEntered_renameKeys (f := f) (r := renameProperties f)
      (c := (v.before p s).run.children)
      (g := fun segments child =>
        (child.walk w levels (q.child (v.before p s).run.keywords.xml segments)).run)
      (h := fun segments child =>
        (child.walk v levels (p.child (v.before p s).run.keywords.xml segments)).run)
      fun placed listed => ih (follows.below start placed listed)
    simp only [renameProperties_eq, below]

end Schema

def Definitions.renameProperties (f : String → String) (definitions : Definitions) : Definitions :=
  definitions.mapValues (Schema.renameProperties f)

def Document.renameProperties (f : String → String) (d : Document) : Document :=
  { d with definitions := d.definitions.renameProperties f }

def Document.Indifferent (f : String → String) (name : String) (shows : Schema → Bool)
    (d : Document) : Prop := ∀ e ∈ d.definitions, e.2.Indifferent f name shows

instance {f : String → String} {name : String} {shows : Schema → Bool} {d : Document} :
    Decidable (d.Indifferent f name shows) :=
  inferInstanceAs (Decidable (∀ e ∈ d.definitions, e.2.Indifferent f name shows))

theorem Schema.Follows.change {f : String → String} {v w : Visitor Id}
    {related : Position → Position → Schema → Prop} (follows : Follows f v w related)
    (flavor : Flavor) (definitions : Definitions) (start : ∀ e ∈ definitions,
      related { flavor, definition := e.1 } { flavor, definition := e.1 } e.2) :
    (definitions.renameProperties f).change flavor w =
      (definitions.change flavor v).renameProperties f := by
  rw [Definitions.change, Definitions.change, Definitions.renameProperties,
    Definitions.renameProperties, Table.mapValues, Table.mapValues, List.map_map, List.map_map]
  refine List.map_congr_left fun e listed => congrArg (Prod.mk e.1) ?_
  rw [levels_renameProperties]
  exact follows.walk e.2.levels (start e listed)

end SchemaGraph
