import Mathlib
import SchemaGraph.Pass.Squash
import SchemaGraph.Proofs.Distinct
import SchemaGraph.Proofs.Nodes

/- Squashing one node. A settled node is left as it is; every other one loses weight, whether its
   members vanish, leave their wrappers or are merged into it. -/
namespace SchemaGraph

namespace Children
variable {α β : Type}

/-- What the children weigh together; an `allOf` weighs something itself. -/
def load (weigh : α → Nat) (c : Children α) : Nat :=
  (if c.allOf.isSome then 1 else 0) + (c.toList.map weigh).sum

theorem load_map (f : α → β) (weigh : β → Nat) (c : Children α) :
    (c.map f).load weigh = c.load fun a => weigh (f a) := by
  rw [load, load, toList_map, List.map_map]
  cases held : c.allOf <;> simp [map, held, Function.comp_def]

theorem load_eq (weigh : α → Nat) (c : Children α) : c.load weigh =
    (if c.allOf.isSome then 1 else 0) + (c.not.toList.map weigh).sum + (c.items.toList.map weigh).sum +
      ((c.additional.bind (·.schema?)).toList.map weigh).sum +
      (((c.properties.map Table.values).getD []).map weigh).sum + ((c.allOf.getD []).map weigh).sum +
      ((c.oneOf.getD []).map weigh).sum + ((c.anyOf.getD []).map weigh).sum := by
  simp only [load, toList, List.map_append, List.sum_append]
  omega

theorem load_onto (weigh : α → Nat) (top base : Children α) :
    (top.onto base).load weigh ≤ top.load weigh + base.load weigh := by
  have either {γ : Type} (count : Option γ → Nat) (a b : Option γ) :
      count (a.or b) ≤ count a + count b := by
    cases a with
    | none => exact Nat.le_add_left _ _
    | some _ => exact Nat.le_add_right _ _
  have marks := either (fun o => if o.isSome then 1 else 0) top.allOf base.allOf
  have not := either (fun o => (o.toList.map weigh).sum) top.not base.not
  have items := either (fun o => (o.toList.map weigh).sum) top.items base.items
  have additional := either (fun o => ((o.bind (·.schema?)).toList.map weigh).sum)
    top.additional base.additional
  have properties := either (fun o => (((o.map Table.values).getD []).map weigh).sum)
    top.properties base.properties
  have allOf := either (fun o => ((o.getD []).map weigh).sum) top.allOf base.allOf
  have oneOf := either (fun o => ((o.getD []).map weigh).sum) top.oneOf base.oneOf
  have anyOf := either (fun o => ((o.getD []).map weigh).sum) top.anyOf base.anyOf
  simp only [load_eq, onto]
  omega

end Children

namespace Schema

/-- How much there is to squash. -/
def weight : Schema → Nat := fold fun _ c => 1 + c.load id

theorem weight_mk (k : Keywords) (c : Children Schema) : weight ⟨k, c⟩ = 1 + c.load weight := by
  rw [weight, fold_mk, Children.load_map]
  rfl

theorem weight_eq (s : Schema) : s.weight = 1 + s.children.load weight := by
  obtain ⟨k, c⟩ := s
  exact weight_mk k c

theorem withAllOf_of_eq {s : Schema} {members : Option (List Schema)}
    (held : s.children.allOf = members) : ({ s with children.allOf := members } : Schema) = s := by
  obtain ⟨k, c⟩ := s
  subst held
  rfl

/-- Without its `allOf` a node says nothing. -/
def isIdle (s : Schema) : Bool := isVacuous { s with children.allOf := none }

theorem reference_of_isIdle {s : Schema} (idle : s.isIdle) : s.keywords.reference = none := by
  simp only [isIdle, isVacuous, Keywords.isEmpty, Bool.and_eq_true, Option.isNone_iff_eq_none] at idle
  tauto

theorem isIdle_of_isVacuous {s : Schema} (vacuous : s.isVacuous) :
    s.isIdle ∧ s.children.allOf = none := by
  have none : s.children.allOf = none := by
    simp only [isVacuous, Children.isEmpty, Bool.and_eq_true, Option.isNone_iff_eq_none] at vacuous
    tauto
  refine ⟨?_, none⟩
  rwa [isIdle, withAllOf_of_eq none]

end Schema

namespace Squash
open Schema (weight)

theorem splice_eq (member : Schema) :
    splice member = if member.isIdle then member.children.allOf.getD [] else [member] := by
  rw [splice]
  split
  · rename_i refers
    rw [if_neg]
    intro idle
    rw [Schema.reference_of_isIdle idle] at refers
    cases refers
  · split
    · rename_i vacuous
      obtain ⟨idle, none⟩ := Schema.isIdle_of_isVacuous vacuous
      rw [if_pos idle, none, Option.getD_none]
    · rename_i vacuous
      split
      · rename_i inner held
        rw [held]
        rfl
      · rename_i none
        rw [if_neg]
        intro idle
        rw [Schema.isIdle, Schema.withAllOf_of_eq none] at idle
        exact vacuous idle

/-- The members are merged into the node. -/
def isMerged (merge : Bool) (s : Schema) (members : List Schema) : Bool :=
  merge && (isSingleInline s members || (isOpenObject s && members.all Schema.isInlineObject))

/-- The members stay as they are. -/
structure Stay (merge : Bool) (s : Schema) (members : List Schema) : Prop where
  nonempty : members ≠ []
  busy : ∀ member ∈ members, member.isIdle = false
  apart : isMerged merge s members = false

/-- Squashing leaves the node as it is. -/
def Settled (merge : Bool) (s : Schema) : Prop :=
  ∀ members, s.children.allOf = some members → Stay merge s members

variable {merge : Bool} {s : Schema}

theorem squashNode_eq {members : List Schema} (held : s.children.allOf = some members) :
    squashNode merge s =
      if (members.flatMap splice).isEmpty then { s with children.allOf := none }
      else if isMerged merge s (members.flatMap splice) then
        (members.flatMap splice).foldl mergeMember { s with children.allOf := none }
      else { s with children.allOf := some (members.flatMap splice) } := by
  rw [squashNode, held]
  rfl

theorem flatMap_splice {members : List Schema} (busy : ∀ member ∈ members, member.isIdle = false) :
    members.flatMap splice = members := by
  have single : members.flatMap splice = members.flatMap fun member => [member] :=
    List.flatMap_congr fun member listed => by rw [splice_eq, busy member listed, if_neg (by simp)]
  rw [single, List.flatMap_singleton']

theorem Settled.squashNode (h : Settled merge s) : squashNode merge s = s := by
  cases held : s.children.allOf with
  | none => rw [Squash.squashNode, held]
  | some members =>
    obtain ⟨nonempty, busy, apart⟩ := h members held
    rw [squashNode_eq held, flatMap_splice busy, apart, if_neg (by simpa using nonempty),
      if_neg (by simp), Schema.withAllOf_of_eq held]

/-! What a change takes away. -/

theorem weight_withoutAllOf {members : List Schema} (held : s.children.allOf = some members) :
    s.weight = weight { s with children.allOf := none } + 1 + (members.map weight).sum := by
  simp only [Schema.weight_eq, Children.load_eq, held, Option.isSome_some, Option.isSome_none,
    if_true, Option.getD_some, Option.getD_none, List.map_nil, List.sum_nil, Bool.false_eq_true,
    if_false]
  omega

theorem sum_putNew (weigh : Schema → Nat) (t : Table Schema) (key : String) (value : Schema) :
    ((t.putNew key value).values.map weigh).sum ≤ (t.values.map weigh).sum + weigh value := by
  rw [Table.putNew]
  split
  · exact Nat.le_add_right _ _
  · rename_i fresh
    rw [Table.has_iff_mem_keys] at fresh
    rw [Table.put_of_fresh fresh]
    simp [Table.values]

theorem sum_mergeProperties (weigh : Schema → Nat) (parent more : Option (Table Schema)) :
    ((((mergeProperties parent more).map Table.values).getD []).map weigh).sum ≤
      (((parent.map Table.values).getD []).map weigh).sum +
        (((more.map Table.values).getD []).map weigh).sum := by
  have joined (added : Table Schema) (t : Table Schema) :
      ((Table.values (added.foldl (fun t entry => t.putNew entry.1 entry.2) t)).map weigh).sum ≤
        (t.values.map weigh).sum + (added.values.map weigh).sum := by
    induction added generalizing t with
    | nil => exact Nat.le_add_right _ _
    | cons entry rest ih =>
      obtain ⟨key, value⟩ := entry
      have first := sum_putNew weigh t key value
      have others := ih (t.putNew key value)
      have split : (Table.values ((key, value) :: rest)).map weigh =
          weigh value :: (Table.values rest).map weigh := rfl
      rw [split, List.sum_cons, List.foldl_cons]
      dsimp only at others ⊢
      omega
  cases more with
  | none => exact Nat.le_add_right _ _
  | some added =>
    refine (joined added (parent.getD [])).trans ?_
    cases parent <;> simp [Table.values]

theorem weight_mergeMember (parent member : Schema) :
    (mergeMember parent member).weight + 1 ≤ parent.weight + member.weight := by
  have properties := sum_mergeProperties weight parent.children.properties member.children.properties
  let own : Children Schema :=
    { parent.children with
      properties := mergeProperties parent.children.properties member.children.properties }
  let added : Children Schema := { member.children with properties := none }
  have joined : (mergeMember parent member).children.load weight ≤
      own.load weight + added.load weight := Children.load_onto weight own added
  simp only [Children.load_eq weight own, Children.load_eq weight added, own, added,
    Option.map_none, Option.getD_none, List.map_nil, List.sum_nil] at joined
  simp only [Schema.weight_eq, Children.load_eq weight parent.children,
    Children.load_eq weight member.children]
  omega

theorem weight_foldl_mergeMember (members : List Schema) (parent : Schema) :
    (members.foldl mergeMember parent).weight + members.length ≤
      parent.weight + (members.map weight).sum := by
  induction members generalizing parent with
  | nil => exact Nat.le_refl _
  | cons member rest ih =>
    have first := weight_mergeMember parent member
    have others := ih (mergeMember parent member)
    rw [List.foldl_cons, List.length_cons, List.map_cons, List.sum_cons]
    omega

theorem sum_allOf_lt (member : Schema) :
    ((member.children.allOf.getD []).map weight).sum < member.weight := by
  rw [Schema.weight_eq, Children.load_eq]
  omega

theorem sum_splice_le (member : Schema) : ((splice member).map weight).sum ≤ member.weight := by
  rw [splice_eq]
  split
  · exact Nat.le_of_lt (sum_allOf_lt member)
  · simp

theorem sum_splice_lt {member : Schema} (idle : member.isIdle) :
    ((splice member).map weight).sum < member.weight := by
  rw [splice_eq, if_pos idle]
  exact sum_allOf_lt member

theorem sum_flatMap_splice (members : List Schema) :
    ((members.flatMap splice).map weight).sum = (members.map fun m => ((splice m).map weight).sum).sum := by
  rw [List.map_flatMap]
  induction members with
  | nil => rfl
  | cons member rest ih => rw [List.flatMap_cons, List.sum_append, ih, List.map_cons, List.sum_cons]

theorem sum_flatMap_splice_le (members : List Schema) :
    ((members.flatMap splice).map weight).sum ≤ (members.map weight).sum := by
  rw [sum_flatMap_splice]
  exact List.sum_le_sum fun member _ => sum_splice_le member

theorem sum_flatMap_splice_lt {members : List Schema} {member : Schema} (listed : member ∈ members)
    (idle : member.isIdle) :
    ((members.flatMap splice).map weight).sum < (members.map weight).sum := by
  rw [sum_flatMap_splice]
  exact List.sum_lt_sum _ _ (fun member _ => sum_splice_le member) ⟨member, listed, sum_splice_lt idle⟩

/-- A node that is not settled loses weight. -/
theorem weight_squashNode_lt (h : ¬ Settled merge s) : (squashNode merge s).weight < s.weight := by
  simp only [Settled, not_forall] at h
  obtain ⟨members, held, moves⟩ := h
  have whole := weight_withoutAllOf held
  have lighter := sum_flatMap_splice_le members
  rw [squashNode_eq held]
  split
  · omega
  · rename_i nonempty
    split
    · have merged := weight_foldl_mergeMember (members.flatMap splice)
        { s with children.allOf := none }
      omega
    · rename_i apart
      have left : Schema.weight { s with children.allOf := some (members.flatMap splice) } =
          weight { s with children.allOf := none } + 1 +
            ((members.flatMap splice).map weight).sum := weight_withoutAllOf rfl
      -- The members neither vanished nor merged, so one of them was idle.
      have idle : ∃ member ∈ members, member.isIdle := by
        by_contra none
        simp only [not_exists, not_and, Bool.not_eq_true] at none
        rw [flatMap_splice none] at nonempty apart
        exact moves ⟨by simpa using nonempty, none, by simpa using apart⟩
      obtain ⟨member, listed, idle⟩ := idle
      have lost := sum_flatMap_splice_lt listed idle
      omega

theorem weight_squashNode_le (merge : Bool) (s : Schema) : (squashNode merge s).weight ≤ s.weight := by
  by_cases h : Settled merge s
  · rw [h.squashNode]
  · exact Nat.le_of_lt (weight_squashNode_lt h)

end Squash
end SchemaGraph
