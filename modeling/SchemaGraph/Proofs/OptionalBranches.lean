import SchemaGraph.Pass.Choice
import SchemaGraph.Proofs.Entered

/- Choices whose branches become content. A branch, and what stands in it through any number of
   `allOf` levels, keeps no property that has to occur; but the list of required names goes only from
   nodes that have properties of their own. -/
namespace SchemaGraph

theorem Children.child?_mapEntered {α : Type} (f : List String → α → α) (c : Children α)
    (step : Step) : (c.mapEntered f).child? step = (c.child? step).map fun a =>
      if step.isEntered then f step.segments a else a := by
  have walked := c.child?_walk (fun segments a => (pure (f segments a) : Id α)) step
  rw [Children.walk_run] at walked
  exact walked

namespace Schema

/-- The node at a place. -/
def node? : Place → Schema → Option Schema
  | [], s => some s
  | step :: rest, s => (s.children.child? step).bind (node? rest)

/-- The node and what stands in it through any number of `allOf` levels. -/
def parts : Schema → List Schema :=
  para fun k c => ⟨k, c.map Prod.fst⟩ :: (c.allOf.getD []).flatMap Prod.snd

theorem parts_eq (s : Schema) : s.parts = s :: (s.children.allOf.getD []).flatMap parts := by
  obtain ⟨k, c⟩ := s
  have same : c.map (fun child => child) = c := c.map_id
  have below : ((c.map fun child => (child, child.parts)).allOf.getD []).flatMap Prod.snd =
      (c.allOf.getD []).flatMap parts := by
    cases held : c.allOf <;> simp [Children.map, held, List.flatMap_map]
  rw [parts, para_mk, ← parts, below, Children.map_map, same]

/-- What hooks that run after the nodes below make of a schema, wherever it stands. -/
def changed (hook : Schema → Schema) : Schema → Schema :=
  para fun k c => hook ⟨k, (c.mapEntered fun _ child => (child.2, child.2)).map Prod.fst⟩

theorem changed_mk (hook : Schema → Schema) (k : Keywords) (c : Children Schema) :
    changed hook ⟨k, c⟩ = hook ⟨k, c.mapEntered fun _ => changed hook⟩ := by
  have below : ((c.map fun child => (child, changed hook child)).mapEntered
      fun _ child => (child.2, child.2)).map Prod.fst = c.mapEntered fun _ => changed hook :=
    Children.mapEntered_paired (changed hook) (fun _ child => child) c
  rw [changed, para_mk, ← changed, below]

/-- A walk whose hook does not look at the position. -/
theorem walk_eq_changed {hook : Position → Schema → Schema} (same : ∀ p q s, hook p s = hook q s)
    (p : Position) {levels : Nat} (q : Position) {s : Schema} (enough : s.levels ≤ levels) :
    (s.walk ⟨fun _ s => s, hook⟩ levels q : Id Schema).run = changed (hook p) s := by
  induction levels generalizing q s with
  | zero => exact absurd s.levels_pos (by omega)
  | succ levels ih =>
    obtain ⟨k, c⟩ := s
    have children : c.mapEntered (fun segments child =>
          (child.walk ⟨fun _ s => s, hook⟩ levels (q.child k.xml segments) : Id Schema).run) =
        c.mapEntered fun _ => changed (hook p) := by
      refine (Children.mapEntered_eq_iff c).mpr fun placed listed => ih _ ?_
      have lower := levels_lt_of_mem (k := k) (mem_toList_of_placed listed)
      omega
    rw [walk_succ, changed_mk, ← same q p]
    exact congrArg (fun c => hook q ⟨k, c⟩) children

end Schema

namespace Choice

/-- What is left of a node with properties when nothing in it has to occur. -/
def waived (s : Schema) : Schema :=
  match s.children.properties with
  | some t => { s with
      children.properties := some (Table.mapValues withoutMinItems t)
      keywords.required := none }
  | none => s

theorem relax_eq (s : Schema) : relax s =
    waived { s with children.allOf := s.children.allOf.map (List.map relax) } := by
  obtain ⟨k, c⟩ := s
  have same : c.map (fun child => child) = c := c.map_id
  have below : (c.map fun child => (child, relax child)).allOf.map (List.map Prod.snd) =
      c.allOf.map (List.map relax) := by
    cases held : c.allOf <;> simp [Children.map, held]
  rw [relax, Schema.para_mk, ← relax]
  dsimp only
  rw [below, Children.map_map, same]
  rfl

theorem allOf_relax (s : Schema) :
    (relax s).children.allOf = s.children.allOf.map (List.map relax) := by
  rw [relax_eq, waived]
  split <;> rfl

theorem properties_relax (s : Schema) : (relax s).children.properties =
    s.children.properties.map (Table.mapValues withoutMinItems) := by
  rw [relax_eq, waived]
  split
  · rename_i t held
    dsimp only at held
    rw [held]
    rfl
  · rename_i none
    dsimp only at none
    rw [none]
    rfl

/-- What the node says itself once nothing in it has to occur. -/
def waivedKeywords (s : Schema) : Keywords :=
  { s.keywords with required := if s.children.properties.isSome then none else s.keywords.required }

theorem keywords_relax (s : Schema) : (relax s).keywords = waivedKeywords s := by
  rw [relax_eq, waived, waivedKeywords]
  split
  · rename_i t held
    dsimp only at held
    rw [held]
    rfl
  · rename_i none
    dsimp only at none
    rw [none]
    rfl

/-- The children that relaxing a node does not turn to. -/
theorem child?_relax {s : Schema} {step : Step} (noMember : ∀ i, step ≠ .allOf i)
    (noProperty : ∀ key, step ≠ .property key) :
    (relax s).children.child? step = s.children.child? step := by
  rw [relax_eq, waived]
  split <;> cases step <;> simp_all [Children.child?]

theorem oneOf_relax (s : Schema) : (relax s).children.oneOf = s.children.oneOf := by
  rw [relax_eq, waived]
  split <;> rfl

theorem relax_relax (s : Schema) : relax (relax s) = relax s := by
  induction s using Schema.children_induction with
  | step k c ih =>
    have members : c.allOf.map (List.map fun s => relax (relax s)) = c.allOf.map (List.map relax) :=
      Option.map_congr fun l held => List.map_congr_left fun member listed =>
        ih member (by simp only [Children.toList, held, List.mem_append, Option.getD_some]; tauto)
    have twice (t : Table Schema) :
        Table.mapValues withoutMinItems (Table.mapValues withoutMinItems t) =
          Table.mapValues withoutMinItems t :=
      Table.mapValues_mapValues withoutMinItems withoutMinItems t
    rw [relax_eq ⟨k, c⟩, relax_eq, waived, waived]
    cases held : c.properties with
    | none =>
      simp only [held, Option.map_map, Function.comp_def, List.map_map]
      rw [members]
    | some t =>
      simp only [twice, Option.map_map, Function.comp_def, List.map_map]
      rw [members]

theorem parts_relax (s : Schema) : (relax s).parts = s.parts.map relax := by
  induction s using Schema.children_induction with
  | step k c ih =>
    rw [Schema.parts_eq, Schema.parts_eq ⟨k, c⟩, allOf_relax, List.map_cons, List.map_flatMap]
    refine congrArg _ ?_
    cases held : c.allOf with
    | none => rfl
    | some l =>
      simp only [Option.map_some, Option.getD_some, List.flatMap_map]
      exact List.flatMap_congr fun member listed =>
        ih member (by simp only [Children.toList, held, List.mem_append, Option.getD_some]; tauto)

/-- The branches of a choice that becomes content. -/
def branches (s : Schema) : List Schema :=
  if s.keywords.discriminator.isSome then [] else s.children.oneOf.getD []

/-- The node and what will stand in it through `allOf` levels once choices are content. -/
def contents : Schema → List Schema :=
  Schema.para fun k c => ⟨k, c.map Prod.fst⟩ ::
    (c.allOf.getD [] ++ if k.discriminator.isSome then [] else c.oneOf.getD []).flatMap Prod.snd

theorem contents_eq (s : Schema) :
    contents s = s :: (s.children.allOf.getD [] ++ branches s).flatMap contents := by
  obtain ⟨k, c⟩ := s
  have same : c.map (fun child => child) = c := c.map_id
  have members (o : Option (List Schema)) :
      ((o.map (List.map fun child => (child, contents child))).getD []).flatMap Prod.snd =
        (o.getD []).flatMap contents := by
    cases o <;> simp [List.flatMap_map]
  rw [contents, Schema.para_mk, ← contents, Children.map_map, same, branches]
  dsimp only
  refine congrArg _ ?_
  rw [List.flatMap_append, List.flatMap_append]
  refine congrArg₂ _ (members c.allOf) ?_
  split
  · rfl
  · exact members c.oneOf

section
variable (p : Position)

/-- What the pass makes of a schema. -/
def converted : Schema → Schema := Schema.changed (after p)

theorem keywords_after (s : Schema) : (after p s).keywords = s.keywords := by
  rw [after]
  split
  · rfl
  · split <;> rfl

theorem keywords_converted (s : Schema) : (converted p s).keywords = s.keywords := by
  obtain ⟨k, c⟩ := s
  rw [converted, Schema.changed_mk, keywords_after]

theorem properties_converted (s : Schema) : (converted p s).children.properties =
    s.children.properties.map (Table.mapValues (converted p)) := by
  obtain ⟨k, c⟩ := s
  rw [converted, Schema.changed_mk, ← converted, after]
  split
  · rfl
  · split <;> rfl

theorem mapMembers_converted (keyword : String) (l : List Schema) :
    Children.mapMembers (fun _ => converted p) keyword l = l.map (converted p) := by
  have same := Children.map_mapMembers (converted p) (fun _ s => s) keyword l
  rw [Children.mapMembers_same] at same
  exact same.symm

/-- The members of a node afterwards are those that it had and the relaxed branches. -/
theorem allOf_converted (s : Schema) : (converted p s).children.allOf.getD [] =
    (s.children.allOf.getD []).map (converted p) ++
      (branches s).map fun branch => relax (converted p branch) := by
  obtain ⟨k, c⟩ := s
  have members (keyword : String) (o : Option (List Schema)) :
      (o.map (Children.mapMembers (fun _ => converted p) keyword)).getD [] =
        (o.getD []).map (converted p) := by
    cases o with
    | none => rfl
    | some l => exact mapMembers_converted p keyword l
  have own := members "allOf" c.allOf
  rw [converted, Schema.changed_mk, ← converted, after, branches]
  split
  · rw [List.map_nil, List.append_nil]
    exact own
  · split
    · rename_i none
      rw [Option.map_eq_none_iff.mp none, Option.getD_none, List.map_nil, List.append_nil]
      exact own
    · rename_i l held
      obtain ⟨list, listed, rfl⟩ := Option.map_eq_some_iff.mp held
      rw [listed, Option.getD_some, Option.getD_some, mapMembers_converted, List.map_map]
      exact congrArg (· ++ _) own

theorem parts_converted (s : Schema) :
    (relax (converted p s)).parts = (contents s).map fun part => relax (converted p part) := by
  induction s using Schema.children_induction with
  | step k c ih =>
    have inside : ∀ part ∈ c.allOf.getD [] ++ branches ⟨k, c⟩, part ∈ c.toList := by
      intro part listed
      simp only [Children.toList, List.mem_append]
      rcases List.mem_append.mp listed with member | branch
      · tauto
      · rw [branches] at branch
        split at branch
        · cases branch
        · tauto
    rw [parts_relax, Schema.parts_eq, allOf_converted, contents_eq, List.map_cons, List.map_cons,
      List.map_flatMap, List.map_flatMap, List.flatMap_append, List.flatMap_append, List.flatMap_map,
      List.flatMap_map]
    refine congrArg _ (congrArg₂ (· ++ ·) ?_ ?_)
    · refine List.flatMap_congr fun part listed => ?_
      rw [← parts_relax, ih part (inside part (List.mem_append_left _ listed))]
    · refine List.flatMap_congr fun part listed => ?_
      rw [← parts_relax, relax_relax, ih part (inside part (List.mem_append_right _ listed))]

end

/-- Where a step from a node leads afterwards: the branches stand behind the members. -/
def turnedStep (s : Schema) : Step → Step
  | .oneOf i => if s.keywords.discriminator.isSome then .oneOf i
      else .allOf ((s.children.allOf.getD []).length + i)
  | step => step

/-- Where the node at a place stands afterwards. -/
def turned : Place → Schema → Place
  | [], _ => []
  | step :: rest, s =>
    turnedStep s step :: ((s.children.child? step).map (turned rest)).getD rest

/-- What is left of a node that stands in other nodes, which may be branches. -/
def Loosened (s left : Schema) : Prop := left = s ∨ left = relax s ∨ left = withoutMinItems s

section
variable {p : Position}

theorem child?_converted {s child : Schema} {step : Step} (entered : step.isEntered)
    (found : s.children.child? step = some child) :
    ∃ left, (converted p s).children.child? (turnedStep s step) = some left ∧
      (left = converted p child ∨ (∃ i, turnedStep s step = .allOf i) ∧
        left = relax (converted p child)) := by
  have kept : Children.child? (s.children.mapEntered fun _ => converted p) step =
      some (converted p child) := by
    rw [Children.child?_mapEntered, found, entered, Option.map_some, if_pos rfl]
  have member {i : Nat} {left : Schema}
      (there : ((converted p s).children.allOf.getD [])[i]? = some left) :
      (converted p s).children.child? (.allOf i) = some left := by
    rw [Children.child?]
    cases held : (converted p s).children.allOf with
    | none => simp [held] at there
    | some l => simpa [held] using there
  rw [allOf_converted] at member
  cases step with
  | allOf i =>
    refine ⟨_, member ?_, Or.inl rfl⟩
    obtain ⟨l, held, listed⟩ := Option.bind_eq_some_iff.mp found
    have within := (List.getElem?_eq_some_iff.mp listed).1
    rw [held, Option.getD_some, List.getElem?_append_left (by simpa using within),
      List.getElem?_map, listed, Option.map_some]
  | oneOf i =>
    cases tagged : s.keywords.discriminator.isSome with
    | true =>
      have same : turnedStep s (.oneOf i) = .oneOf i := by rw [turnedStep, tagged, if_pos rfl]
      refine ⟨_, ?_, Or.inl rfl⟩
      obtain ⟨k, c⟩ := s
      rw [same, converted, Schema.changed_mk, ← converted, after, if_pos tagged]
      exact kept
    | false =>
      have moved : turnedStep s (.oneOf i) = .allOf ((s.children.allOf.getD []).length + i) := by
        rw [turnedStep, tagged, if_neg (by simp)]
      refine ⟨_, moved ▸ member ?_, Or.inr ⟨⟨_, moved⟩, rfl⟩⟩
      obtain ⟨l, held, listed⟩ := Option.bind_eq_some_iff.mp found
      rw [List.getElem?_append_right (by simp), List.length_map, Nat.add_sub_cancel_left, branches,
        tagged, if_neg (by simp), held, Option.getD_some, List.getElem?_map, listed, Option.map_some]
  | property | items | anyOf =>
    -- The hook moves no other child than the branches.
    refine ⟨_, ?_, Or.inl rfl⟩
    obtain ⟨k, c⟩ := s
    rw [converted, Schema.changed_mk, ← converted, after]
    split
    · exact kept
    · split <;> exact kept
  | not | additional => cases entered

theorem Loosened.child? {s left below : Schema} {child : Schema} {step : Step}
    (loosened : Loosened (converted p s) left)
    (found : (converted p s).children.child? step = some below)
    (made : below = converted p child ∨ (∃ i, step = .allOf i) ∧ below = relax (converted p child)) :
    ∃ left', left.children.child? step = some left' ∧ Loosened (converted p child) left' := by
  have own : Loosened (converted p child) below :=
    made.imp_right fun relaxed => Or.inl relaxed.2
  rcases loosened with rfl | rfl | rfl
  · exact ⟨below, found, own⟩
  · cases step with
    | allOf i =>
      refine ⟨relax below, ?_, Or.inr (Or.inl ?_)⟩
      · obtain ⟨l, held, listed⟩ := Option.bind_eq_some_iff.mp found
        rw [Children.child?, allOf_relax, held, Option.map_some, Option.bind_some, List.getElem?_map,
          listed, Option.map_some]
      · rcases made with rfl | ⟨_, rfl⟩
        · rfl
        · exact relax_relax _
    | property key =>
      refine ⟨withoutMinItems below, ?_, Or.inr (Or.inr ?_)⟩
      · obtain ⟨t, held, listed⟩ := Option.bind_eq_some_iff.mp found
        rw [Children.child?, properties_relax, held, Option.map_some, Option.bind_some,
          Table.get?_mapValues, listed, Option.map_some]
      · rcases made with rfl | ⟨⟨i, other⟩, _⟩
        · rfl
        · cases other
    | items | oneOf | anyOf | not | additional =>
      exact ⟨below, (child?_relax (by simp) (by simp)).trans found, own⟩
  · exact ⟨below, found, own⟩

theorem node?_turned {place : Place} (entered : place.isEntered) {s node left : Schema}
    (leads : s.node? place = some node) (loosened : Loosened (converted p s) left) :
    ∃ left', left.node? (turned place s) = some left' ∧ Loosened (converted p node) left' := by
  induction place generalizing s left with
  | nil =>
    cases leads
    exact ⟨left, rfl, loosened⟩
  | cons step rest ih =>
    obtain ⟨child, found, leads⟩ := Option.bind_eq_some_iff.mp leads
    obtain ⟨here, later⟩ := Bool.and_eq_true_iff.mp entered
    obtain ⟨below, there, made⟩ := child?_converted (p := p) here found
    obtain ⟨next, stands, loosened⟩ := loosened.child? there made
    obtain ⟨left', reached, ends⟩ := ih later leads loosened
    refine ⟨left', ?_, ends⟩
    rw [turned, Schema.node?, stands, Option.bind_some, found, Option.map_some, Option.getD_some]
    exact reached

end

/-- However a node is loosened, its branches are relaxed and stand behind its members. -/
theorem members_of_loosened {p : Position} {s left : Schema} {choices : List Schema}
    (held : s.children.oneOf = some choices) (untagged : s.keywords.discriminator = none)
    (loosened : Loosened (converted p s) left) :
    left.children.oneOf = none ∧ ∃ own,
      left.children.allOf = some (own ++ choices.map fun choice => relax (converted p choice)) ∧
        own.length = (s.children.allOf.getD []).length := by
  have unfolded : (converted p s).children.oneOf = none ∧ (converted p s).children.allOf =
      some ((s.children.allOf.getD []).map (converted p) ++
        choices.map fun choice => relax (converted p choice)) := by
    have members := allOf_converted p s
    rw [branches, untagged, held, Option.isSome_none, if_neg (by simp), Option.getD_some] at members
    rw [← members]
    obtain ⟨k, c⟩ := s
    dsimp only at held untagged
    rw [converted, Schema.changed_mk, after, untagged, Children.mapEntered, held]
    exact ⟨rfl, rfl⟩
  obtain ⟨noChoice, members⟩ := unfolded
  rcases loosened with rfl | rfl | rfl
  · exact ⟨noChoice, _, members, List.length_map _⟩
  · refine ⟨(oneOf_relax _).trans noChoice,
      ((s.children.allOf.getD []).map (converted p)).map relax, ?_, by simp⟩
    rw [allOf_relax, members, Option.map_some, List.map_append]
    refine congrArg (fun l => some (_ ++ l)) (List.map_map.trans ?_)
    exact List.map_congr_left fun choice _ => relax_relax _
  · exact ⟨noChoice, _, members, List.length_map _⟩

/-- The node lists no required names, and none of its properties has to occur. -/
def IsOptional (s : Schema) : Prop :=
  s.keywords.required = none ∧
    ∀ t, s.children.properties = some t → ∀ e ∈ t, e.2.keywords.minItems = none

/-- An inline branch in which every inline part is optional. -/
def WhollyOptional (branch : Schema) : Prop :=
  branch.keywords.reference = none →
    ∀ part ∈ branch.parts, part.keywords.reference = none → IsOptional part

theorem isOptional_relax_iff (s : Schema) :
    IsOptional (relax s) ↔ (s.keywords.required.isSome → s.children.properties.isSome) := by
  have bare : ∀ t, (relax s).children.properties = some t → ∀ e ∈ t, e.2.keywords.minItems = none := by
    intro t held e listed
    rw [properties_relax] at held
    obtain ⟨properties, _, rfl⟩ := Option.map_eq_some_iff.mp held
    obtain ⟨entry, _, rfl⟩ := List.mem_map.mp listed
    rfl
  rw [IsOptional, and_iff_left bare, keywords_relax, waivedKeywords]
  cases s.children.properties <;> cases s.keywords.required <;> simp

theorem mem_parts_converted (p : Position) {choice part : Schema} :
    part ∈ (relax (converted p choice)).parts ↔
      ∃ origin ∈ contents choice, relax (converted p origin) = part := by
  rw [parts_converted, List.mem_map]

theorem reference_relax_converted (p : Position) (s : Schema) :
    (relax (converted p s)).keywords.reference = s.keywords.reference := by
  rw [keywords_relax, waivedKeywords, keywords_converted]

theorem whollyOptional_iff (p : Position) (choice : Schema) :
    WhollyOptional (relax (converted p choice)) ↔ (choice.keywords.reference = none →
      ∀ part ∈ contents choice, part.keywords.reference = none →
        part.keywords.required.isSome → part.children.properties.isSome) := by
  simp only [WhollyOptional, mem_parts_converted, forall_exists_index, and_imp,
    forall_apply_eq_imp_iff₂, reference_relax_converted, isOptional_relax_iff, keywords_converted,
    properties_converted, Option.isSome_map]

theorem run_eq (p : Position) (d : Document) (name : String) :
    (run d).1.definitions.get? name = (d.definitions.get? name).map (converted p) := by
  have changed : (run d).1.definitions = d.definitions.change d.flavor ⟨fun _ s => s, after⟩ := rfl
  rw [changed, Definitions.get?_change]
  exact Option.map_congr fun root _ =>
    Schema.walk_eq_changed (fun _ _ _ => rfl) p _ (Nat.le_refl root.levels)

/-- Where a choice without discriminator stood, its branches stand behind the members. Each of their
parts says what it said, but for the required names if it has properties, and none of its properties
has a least number of items; so the branches are wholly optional exactly when no inline part of an
inline branch had required names and no properties. -/
theorem branches_optional_iff {d : Document} {name : String} {root s : Schema} {place : Place}
    {choices : List Schema} (stands : d.definitions.get? name = some root)
    (entered : place.isEntered) (leads : root.node? place = some s)
    (held : s.children.oneOf = some choices) (untagged : s.keywords.discriminator = none) :
    ∃ root' s' own moved, (run d).1.definitions.get? name = some root' ∧
      root'.node? (turned place root) = some s' ∧ s'.children.oneOf = none ∧
      s'.children.allOf = some (own ++ moved) ∧
      own.length = (s.children.allOf.getD []).length ∧
      (moved.map fun branch => branch.parts.map (·.keywords)) =
        (choices.map fun choice => (contents choice).map waivedKeywords) ∧
      (∀ branch ∈ moved, ∀ part ∈ branch.parts, ∀ t, part.children.properties = some t →
        ∀ e ∈ t, e.2.keywords.minItems = none) ∧
      ((∀ branch ∈ moved, WhollyOptional branch) ↔
        ∀ choice ∈ choices, choice.keywords.reference = none →
          ∀ part ∈ contents choice, part.keywords.reference = none →
            part.keywords.required.isSome → part.children.properties.isSome) := by
  -- The hook does not look at the position, so any one will do.
  let p : Position := { flavor := d.flavor, definition := name }
  obtain ⟨s', reached, loosened⟩ :=
    node?_turned (p := p) entered leads (Or.inl (rfl : converted p root = converted p root))
  let moved := choices.map fun choice => relax (converted p choice)
  have parts : (moved.map fun branch => branch.parts.map (·.keywords)) =
      choices.map fun choice => (contents choice).map waivedKeywords := by
    refine List.map_map.trans (List.map_congr_left fun choice _ => ?_)
    rw [Function.comp, parts_converted, List.map_map]
    refine List.map_congr_left fun part _ => ?_
    rw [Function.comp, keywords_relax, waivedKeywords, keywords_converted, properties_converted,
      Option.isSome_map]
    rfl
  have bare : ∀ branch ∈ moved, ∀ part ∈ branch.parts, ∀ t, part.children.properties = some t →
      ∀ e ∈ t, e.2.keywords.minItems = none := by
    intro branch listed part inside t properties e member
    obtain ⟨choice, _, rfl⟩ := List.mem_map.mp listed
    obtain ⟨origin, _, rfl⟩ := (mem_parts_converted p).mp inside
    rw [properties_relax] at properties
    obtain ⟨_, _, rfl⟩ := Option.map_eq_some_iff.mp properties
    obtain ⟨entry, _, rfl⟩ := List.mem_map.mp member
    rfl
  have wholly : (∀ branch ∈ moved, WhollyOptional branch) ↔
      ∀ choice ∈ choices, choice.keywords.reference = none →
        ∀ part ∈ contents choice, part.keywords.reference = none →
          part.keywords.required.isSome → part.children.properties.isSome := by
    rw [List.forall_mem_map]
    exact forall₂_congr fun choice _ => whollyOptional_iff p choice
  obtain ⟨noChoice, own, members, same⟩ := members_of_loosened held untagged loosened
  exact ⟨converted p root, s', own, moved, by rw [run_eq p, stands, Option.map_some], reached,
    noChoice, members, same, parts, bare, wholly⟩

/-- A payment is by card, where a branch only wraps what it asks for, or by a nested choice. -/
def orders : Document where
  raw := [("definitions", .null)]
  flavor := .definitions
  hasSlot := true
  definitions :=
    let text : Schema := { keywords := { type := some "string" } }
    let texts : Schema :=
      { keywords := { type := some "array", minItems := some 1 }, children := { items := some text } }
    let asking (name : String) (type : Schema) : Schema :=
      { keywords := { required := some [name] }, children := { properties := some [(name, type)] } }
    let card : Schema :=
      { keywords := { required := some ["card"] }, children := { allOf := some [asking "card" text] } }
    let transfer : Schema := { children := { oneOf := some [asking "accounts" texts] } }
    let terms : Schema := .ofReference (.toDefinition "Terms" .definitions)
    let payment : Schema :=
      { children := { allOf := some [terms], oneOf := some [card, transfer] } }
    [("Order", { children := { properties := some [("payment", payment)] } }), ("Terms", text)]

theorem branches_optional_iff_orders : ∃ root s choices root' s' own moved,
    orders.definitions.get? "Order" = some root ∧ root.node? [.property "payment"] = some s ∧
    s.children.oneOf = some choices ∧ (run orders).1.definitions.get? "Order" = some root' ∧
    root'.node? [.property "payment"] = some s' ∧ s'.children.oneOf = none ∧
    s'.children.allOf = some (own ++ moved) ∧ own.length = 1 ∧
    (moved.map fun branch => branch.parts.map (·.keywords)) =
      (choices.map fun choice => (contents choice).map waivedKeywords) ∧
    ((∀ branch ∈ moved, WhollyOptional branch) ↔
      ∀ choice ∈ choices, choice.keywords.reference = none →
        ∀ part ∈ contents choice, part.keywords.reference = none →
          part.keywords.required.isSome → part.children.properties.isSome) := by
  obtain ⟨root', s', own, moved, there, reached, noChoice, members, same, parts, _, wholly⟩ :=
    @branches_optional_iff orders "Order" _ _ [.property "payment"] _ rfl rfl rfl rfl rfl
  exact ⟨_, _, _, root', s', own, moved, rfl, rfl, rfl, there, reached, noChoice, members, same, parts,
    wholly⟩

/-- The branch for cards keeps asking for a card. -/
theorem required_left_in_branch : ¬ ∀ (d : Document) (name : String) (root s root' s' : Schema)
    (place : Place), d.definitions.get? name = some root → place.isEntered →
    root.node? place = some s → s.children.oneOf.isSome → s.keywords.discriminator = none →
    (run d).1.definitions.get? name = some root' → root'.node? (turned place root) = some s' →
    ∀ branch ∈ (s'.children.allOf.getD []).drop (s.children.allOf.getD []).length,
      WhollyOptional branch := by
  intro optional
  have branches := optional orders "Order" _ _ _ _ [.property "payment"] rfl rfl rfl rfl rfl rfl rfl
  have card := branches _ List.mem_cons_self rfl _ List.mem_cons_self rfl
  cases card.1

end Choice
end SchemaGraph
