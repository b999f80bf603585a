import Mathlib.Algebra.Order.Group.Multiset
import Mathlib.Data.List.Perm.Basic
import Mathlib.Tactic.Abel
import Mathlib.Tactic.Tauto
import SchemaGraph.Integrity

/- A schema as the collection of its nodes. What holds of a schema is shown by induction over its
   children, wherever they stand; the two listings of references are what the nodes themselves refer
   to. -/
namespace SchemaGraph

theorem Additional.schema?_map {α β : Type} (f : α → β) (additional : Option (Additional α)) :
    (additional.map (Additional.map f)).bind (·.schema?) = (additional.bind (·.schema?)).map f := by
  rcases additional with _ | _ | _ <;> rfl

namespace Children
variable {α β : Type}

/-- The children at every place. -/
def toList (c : Children α) : List α :=
  c.not.toList ++ c.items.toList ++ (c.additional.bind (·.schema?)).toList ++
    (c.properties.map Table.values).getD [] ++ c.allOf.getD [] ++ c.oneOf.getD [] ++
    c.anyOf.getD []

theorem toList_map (f : α → β) (c : Children α) : (c.map f).toList = c.toList.map f := by
  obtain ⟨not, items, properties, allOf, oneOf, anyOf, additional⟩ := c
  have inProperties : ((properties.map (Table.mapValues f)).map Table.values).getD [] =
      ((properties.map Table.values).getD []).map f := by
    cases properties <;> simp [Table.values, Table.mapValues]
  have inMembers (list : Option (List α)) :
      (list.map (List.map f)).getD [] = (list.getD []).map f := by
    cases list <;> simp
  have inOption (o : Option α) : (o.map f).toList = o.toList.map f := by cases o <;> rfl
  simp only [toList, map, inProperties, Additional.schema?_map, inMembers, inOption,
    List.map_append]

/-- The children that a walk enters. -/
def entered (c : Children α) : Children α := { c with not := none, additional := none }

/-- The children that a walk leaves as they are. -/
def skipped (c : Children α) : List α := c.not.toList ++ (c.additional.bind (·.schema?)).toList

theorem toList_entered_map (f : α → β) (c : Children α) :
    (c.map f).entered.toList = c.entered.toList.map f := toList_map f c.entered

theorem skipped_map (f : α → β) (c : Children α) : (c.map f).skipped = c.skipped.map f := by
  obtain ⟨not, items, properties, allOf, oneOf, anyOf, additional⟩ := c
  rw [skipped, skipped, List.map_append]
  congr 1
  · cases not <;> rfl
  · rcases additional with _ | _ | _ <;> rfl

theorem mem_toList_iff (c : Children α) (a : α) :
    a ∈ c.toList ↔ a ∈ c.entered.toList ∨ a ∈ c.skipped := by
  simp only [toList, entered, skipped, List.mem_append, Option.toList_none, Option.bind_none,
    List.not_mem_nil]
  tauto

end Children

namespace Schema

theorem sizeOf_lt_of_mem_list {s : Schema} {list : Option (List Schema)}
    (member : s ∈ list.getD []) : sizeOf s < sizeOf list := by
  cases list with
  | none => simp at member
  | some list =>
    have smaller : sizeOf s < sizeOf list := List.sizeOf_lt_of_mem member
    simp only [Option.some.sizeOf_spec]
    omega

theorem sizeOf_lt_of_mem_table {s : Schema} {table : Option (Table Schema)}
    (member : s ∈ (table.map Table.values).getD []) : sizeOf s < sizeOf table := by
  cases table with
  | none => simp at member
  | some table =>
    obtain ⟨⟨key, value⟩, entry, rfl⟩ := List.mem_map.mp member
    have smaller : sizeOf (key, value) < sizeOf table := List.sizeOf_lt_of_mem entry
    simp only [Option.some.sizeOf_spec, Prod.mk.sizeOf_spec] at smaller ⊢
    omega

theorem sizeOf_lt_of_mem_toList {s : Schema} {c : Children Schema} (member : s ∈ c.toList) :
    sizeOf s < sizeOf c := by
  obtain ⟨not, items, properties, allOf, oneOf, anyOf, additional⟩ := c
  simp only [Children.toList, List.mem_append, Option.mem_toList] at member
  rw [Children.mk.sizeOf_spec]
  rcases member with (((((h | h) | h) | h) | h) | h) | h
  · subst h
    simp only [Option.some.sizeOf_spec]
    omega
  · subst h
    simp only [Option.some.sizeOf_spec]
    omega
  · rcases additional with _ | _ | value
    · simp at h
    · simp [Additional.schema?] at h
    · simp only [Option.bind_some, Additional.schema?, Option.some.injEq] at h
      subst h
      simp only [Option.some.sizeOf_spec, Additional.schema.sizeOf_spec]
      omega
  · have smaller := sizeOf_lt_of_mem_table h
    omega
  · have smaller := sizeOf_lt_of_mem_list h
    omega
  · have smaller := sizeOf_lt_of_mem_list h
    omega
  · have smaller := sizeOf_lt_of_mem_list h
    omega

/-- What holds of a node whenever it holds of its children holds of every schema. -/
theorem children_induction {motive : Schema → Prop}
    (step : ∀ k c, (∀ child ∈ c.toList, motive child) → motive ⟨k, c⟩) : ∀ s, motive s
  | ⟨k, c⟩ => step k c fun child member =>
    have := sizeOf_lt_of_mem_toList member
    children_induction step child
termination_by s => sizeOf s
decreasing_by rw [Schema.mk.sizeOf_spec]; omega

theorem le_foldl_max (l : List Nat) (start : Nat) :
    start ≤ l.foldl max start ∧ ∀ n ∈ l, n ≤ l.foldl max start := by
  induction l generalizing start with
  | nil => simp
  | cons n rest ih =>
    obtain ⟨first, others⟩ := ih (max start n)
    exact ⟨Nat.le_trans (Nat.le_max_left start n) first,
      List.forall_mem_cons.mpr ⟨Nat.le_trans (Nat.le_max_right start n) first, others⟩⟩

theorem levels_lt_of_mem {k : Keywords} {c : Children Schema} {child : Schema}
    (member : child ∈ c.toList) : child.levels < levels ⟨k, c⟩ := by
  have listed : child.levels ∈ (c.map levels).toList := by
    rw [Children.toList_map]
    exact List.mem_map_of_mem member
  rw [levels] at listed
  rw [levels, fold_mk]
  refine Nat.lt_one_add_iff.mpr ((le_foldl_max _ 0).2 _ ?_)
  simp only [Children.toList, List.mem_append] at listed ⊢
  tauto

theorem levels_pos (s : Schema) : 0 < s.levels := by
  obtain ⟨k, c⟩ := s
  rw [levels, fold_mk]
  exact Nat.lt_of_lt_of_le Nat.zero_lt_one (Nat.le_add_right 1 _)

/-- What the node says itself, then what all nodes below it say. -/
def nodes : Schema → List Keywords := fold fun k c => k :: c.toList.flatten

theorem nodes_mk (k : Keywords) (c : Children Schema) :
    nodes ⟨k, c⟩ = k :: c.toList.flatMap nodes := by
  rw [nodes, fold_mk, Children.toList_map, ← List.flatMap_def]

theorem mem_nodes_mk {k : Keywords} {c : Children Schema} {node : Keywords} :
    node ∈ nodes ⟨k, c⟩ ↔ node = k ∨ ∃ child ∈ c.toList, node ∈ child.nodes := by
  rw [nodes_mk, List.mem_cons, List.mem_flatMap]

/-- Gives every node new keywords. -/
def rekey (g : Keywords → Keywords) : Schema → Schema := fold fun k c => ⟨g k, c⟩

theorem rekey_mk (g : Keywords → Keywords) (k : Keywords) (c : Children Schema) :
    rekey g ⟨k, c⟩ = ⟨g k, c.map (rekey g)⟩ := fold_mk _ k c

theorem nodes_rekey (g : Keywords → Keywords) (s : Schema) : (s.rekey g).nodes = s.nodes.map g := by
  induction s using children_induction with
  | step k c ih =>
    rw [rekey_mk, nodes_mk, nodes_mk, List.map_cons, Children.toList_map, List.flatMap_map,
      List.map_flatMap, List.flatMap_def, List.flatMap_def, List.map_congr_left ih]

end Schema

namespace Keywords

/-- The references of the node itself. -/
def typedReferences (k : Keywords) : List Reference :=
  (k.references false).map (·.reference)

theorem map_references (k : Keywords) (structural : Bool) :
    (k.references structural).map (·.reference) = k.typedReferences := by
  simp [typedReferences, references, Function.comp_def]

/-- Every reference of the node, those of its mapping included. -/
def allReferences (k : Keywords) : List Reference := k.typedReferences ++ k.mappedReferences

end Keywords

namespace Schema

theorem occurrencesAt_mk (k : Keywords) (c : Children Schema) (structural : Bool) :
    occurrencesAt ⟨k, c⟩ structural =
      k.references structural ++ childOccurrences (c.map occurrencesAt) := by
  rw [occurrencesAt, fold_mk]

/-- Which references are listed does not hang on where a base stands. -/
theorem map_reference_childOccurrences {c : Children (Bool → List Occurrence)}
    (same : ∀ list ∈ c.toList,
      (list true).map (·.reference) = (list false).map (·.reference)) :
    (childOccurrences c).map (·.reference) =
      c.toList.flatMap fun list => (list false).map (·.reference) := by
  simp only [childOccurrences, Children.toList, List.map_append, List.flatMap_append,
    List.map_flatMap]
  rcases allOf : c.allOf with _ | _ | ⟨first, rest⟩
  · rfl
  · rfl
  · have listed : first ∈ c.toList := by simp [Children.toList, allOf]
    simp only [List.map_append, List.map_flatMap, same first listed, Option.getD_some,
      List.flatMap_cons]

/-- Counting references meets the typed references of every node. -/
theorem map_reference_occurrencesAt (s : Schema) (structural : Bool) :
    (s.occurrencesAt structural).map (·.reference) =
      s.nodes.flatMap Keywords.typedReferences := by
  induction s using children_induction generalizing structural with
  | step k c ih =>
    have same : ∀ list ∈ (c.map occurrencesAt).toList,
        (list true).map (·.reference) = (list false).map (·.reference) := by
      rw [Children.toList_map]
      intro list listed
      obtain ⟨child, member, rfl⟩ := List.mem_map.mp listed
      rw [ih child member, ih child member]
    rw [occurrencesAt_mk, List.map_append, Keywords.map_references,
      map_reference_childOccurrences same, Children.toList_map, List.flatMap_map, nodes_mk,
      List.flatMap_cons, List.flatMap_assoc]
    exact congrArg _ (List.flatMap_congr fun child member => ih child member false)

theorem mem_occurrencesAt_iff (s : Schema) (structural : Bool) (r : Reference) :
    (∃ o ∈ s.occurrencesAt structural, o.reference = r) ↔
      ∃ node ∈ s.nodes, r ∈ node.typedReferences := by
  rw [← List.mem_flatMap, ← map_reference_occurrencesAt s structural, List.mem_map]

/-- The children with their places are the children. -/
theorem map_snd_placedChildren {α : Type} (c : Children α) :
    ((placedChildren c).map Prod.snd).Perm c.toList := by
  have properties :
      (c.properties.getD []).map Prod.snd = (c.properties.map Table.values).getD [] := by
    cases c.properties <;> rfl
  simp only [placedChildren, Children.toList, List.map_append, List.map_map, Function.comp_def,
    properties, List.zipIdx_map_fst, List.map_id']
  rw [← Multiset.coe_eq_coe]
  simp only [← Multiset.coe_add]
  abel

theorem mem_placedChildren_iff {α : Type} (c : Children α) (a : α) :
    (∃ segments, (segments, a) ∈ placedChildren c) ↔ a ∈ c.toList := by
  rw [← (map_snd_placedChildren c).mem_iff]
  simp

theorem placedChildren_map {α β : Type} (f : α → β) (c : Children α) :
    placedChildren (c.map f) = (placedChildren c).map fun placed => (placed.1, f placed.2) := by
  -- Projections instead of patterns, so that `simp` sees the same functions on both sides.
  have unfolded {γ : Type} (c : Children γ) : placedChildren c =
      (c.properties.getD []).map (fun e => (["properties", e.1], e.2)) ++
        c.items.toList.map (["items"], ·) ++ c.not.toList.map (["not"], ·) ++
        (c.additional.bind (·.schema?)).toList.map (["additionalProperties"], ·) ++
        (c.allOf.getD []).zipIdx.map (fun e => (["allOf", toString e.2], e.1)) ++
        (c.oneOf.getD []).zipIdx.map (fun e => (["oneOf", toString e.2], e.1)) ++
        (c.anyOf.getD []).zipIdx.map (fun e => (["anyOf", toString e.2], e.1)) := rfl
  have members (keyword : String) (list : Option (List α)) :
      ((list.map (List.map f)).getD []).zipIdx.map (fun e => ([keyword, toString e.2], e.1)) =
        ((list.getD []).zipIdx.map fun e => ([keyword, toString e.2], e.1)).map
          fun placed => (placed.1, f placed.2) := by
    cases list <;> simp [List.zipIdx_map, Function.comp_def]
  have option (segments : List String) (o : Option α) :
      (o.map f).toList.map (segments, ·) =
        (o.toList.map (segments, ·)).map fun placed => (placed.1, f placed.2) := by
    cases o <;> rfl
  have properties :
      ((c.properties.map (Table.mapValues f)).getD []).map (fun e => (["properties", e.1], e.2)) =
        ((c.properties.getD []).map fun e => (["properties", e.1], e.2)).map
          fun placed => (placed.1, f placed.2) := by
    cases c.properties <;> simp [Table.mapValues]
  simp only [unfolded, Children.map, members, option, properties, Additional.schema?_map,
    List.map_append]

theorem placedReferences_mk (k : Keywords) (c : Children Schema) (trail : List String) :
    placedReferences ⟨k, c⟩ trail = k.allReferences.map (·, trail) ++
      (placedChildren c).flatMap fun placed =>
        placed.2.placedReferences (placed.1.reverse ++ trail) := by
  have unfolded : placedReferences ⟨k, c⟩ trail = k.typedReferences.map (·, trail) ++
      k.mappedReferences.map (·, trail) ++ (placedChildren (c.map placedReferences)).flatMap
        fun placed => placed.2 (placed.1.reverse ++ trail) := by
    rw [placedReferences, fold_mk]
    simp [Keywords.typedReferences, Function.comp_def]
  rw [unfolded, placedChildren_map, List.flatMap_map, Keywords.allReferences, List.map_append]

/-- The references found with their places are those of every node. -/
theorem map_fst_placedReferences (s : Schema) (trail : List String) :
    ((s.placedReferences trail).map Prod.fst).Perm (s.nodes.flatMap Keywords.allReferences) := by
  induction s using children_induction generalizing trail with
  | step k c ih =>
    have own : (k.allReferences.map (·, trail)).map Prod.fst = k.allReferences := by
      rw [List.map_map]
      exact List.map_id _
    have below : ((placedChildren c).flatMap fun placed =>
        (placed.2.placedReferences (placed.1.reverse ++ trail)).map Prod.fst).Perm
          ((placedChildren c).flatMap fun placed =>
            placed.2.nodes.flatMap Keywords.allReferences) :=
      List.Perm.flatMap_left _ fun placed listed =>
        ih placed.2 ((mem_placedChildren_iff c placed.2).mp ⟨placed.1, listed⟩) _
    have reordered := (map_snd_placedChildren c).flatMap_right
      fun child => child.nodes.flatMap Keywords.allReferences
    rw [List.flatMap_map] at reordered
    rw [placedReferences_mk, nodes_mk, List.map_append, own, List.flatMap_cons, List.map_flatMap,
      List.flatMap_assoc]
    exact (below.trans reordered).append_left _

theorem mem_placedReferences_iff (s : Schema) (trail : List String) (r : Reference) :
    (∃ place, (r, place) ∈ s.placedReferences trail) ↔
      ∃ node ∈ s.nodes, r ∈ node.allReferences := by
  rw [← List.mem_flatMap, ← (map_fst_placedReferences s trail).mem_iff]
  simp

end Schema
end SchemaGraph
