import SchemaGraph.Proofs.FoldedContent
import SchemaGraph.Proofs.SteppedWalks

/- Which repeating groups are left when they have been folded. The pass looks at one composition of a
   node, the sequence before the choice, and what a fold draws from other definitions comes as it
   stands there; all other groups go. -/
namespace SchemaGraph

namespace Schema

/-- A repeating group that stands in its place and not behind a reference. -/
def isAnonymousGroup (s : Schema) : Bool := s.keywords.reference.isNone && s.isRepeatingGroup

/-- No member of an `allOf` or a `oneOf` that a walk meets is a group. -/
def GroupFree (s : Schema) : Prop :=
  ∀ node ∈ s.met [], ∀ slot ∈ node.2.children.slots, slot.isAnonymousGroup = false

instance (s : Schema) : Decidable s.GroupFree := inferInstanceAs (Decidable (∀ _ ∈ _, _))

/-- No branch of a choice beside an `allOf` is a group. -/
def NoneOverlooked (s : Schema) : Prop :=
  ∀ node ∈ s.met [], node.2.children.allOf.isSome →
    ∀ branch ∈ node.2.children.oneOf.getD [], branch.isAnonymousGroup = false

instance (s : Schema) : Decidable s.NoneOverlooked := inferInstanceAs (Decidable (∀ _ ∈ _, _))

/-- A reference stands alone, and a group holds nothing but its items. -/
def isTidyNode (s : Schema) : Bool :=
  let held := s.children.kinds.count true
  (s.keywords.reference.isNone || held == 0) && (!s.isRepeatingGroup || held == 1)

def isTidy : Schema → Bool :=
  para fun k c => isTidyNode ⟨k, c.map Prod.fst⟩ && c.toList.all Prod.snd

theorem isTidy_mk (k : Keywords) (c : Children Schema) :
    isTidy ⟨k, c⟩ = true ↔ isTidyNode ⟨k, c⟩ = true ∧ ∀ child ∈ c.toList, child.isTidy = true := by
  have same : c.map (fun child => child) = c := c.map_id
  rw [isTidy, para_mk, ← isTidy, Children.map_map, same, Children.toList_map, Bool.and_eq_true,
    List.all_eq_true, List.forall_mem_map]

theorem mem_entered_of_slots {c : Children Schema} {slot : Schema} (member : slot ∈ c.slots) :
    slot ∈ c.entered.toList := by
  simp only [Children.slots, List.mem_append] at member
  simp only [Children.toList, Children.entered, List.mem_append]
  tauto

/-- A group repeats a composition. -/
theorem exists_items_of_group {s : Schema} (group : s.isRepeatingGroup = true) :
    ∃ items, s.children.items = some items ∧
      (items.children.allOf.isSome = true ∨ items.children.oneOf.isSome = true) := by
  obtain ⟨_, inside⟩ := Bool.and_eq_true_iff.mp group
  cases held : s.children.items with
  | none =>
    rw [held] at inside
    cases inside
  | some items =>
    rw [held, Option.any_some, Bool.or_eq_true] at inside
    exact ⟨items, rfl, inside⟩

theorem groupFree_iff (s : Schema) : s.GroupFree ↔
    (∀ slot ∈ s.children.slots, slot.isAnonymousGroup = false) ∧
      ∀ child ∈ s.children.entered.toList, child.GroupFree := by
  obtain ⟨k, c⟩ := s
  rw [← Children.each_iff]
  exact forall_met_mk_iff (fun s => ∀ slot ∈ s.children.slots, slot.isAnonymousGroup = false) k c

theorem noneOverlooked_iff (s : Schema) : s.NoneOverlooked ↔
    (s.children.allOf.isSome →
      ∀ branch ∈ s.children.oneOf.getD [], branch.isAnonymousGroup = false) ∧
      ∀ child ∈ s.children.entered.toList, child.NoneOverlooked := by
  obtain ⟨k, c⟩ := s
  rw [← Children.each_iff]
  exact forall_met_mk_iff (fun s => s.children.allOf.isSome →
    ∀ branch ∈ s.children.oneOf.getD [], branch.isAnonymousGroup = false) k c

theorem noneOverlooked_iff_of_items {s items : Schema}
    (only : s.children.entered = { items := some items }) :
    s.NoneOverlooked ↔ items.NoneOverlooked := by
  have noSequence : s.children.allOf = none := congrArg Children.allOf only
  have listed : s.children.entered.toList = [items] := by
    rw [only]
    rfl
  rw [s.noneOverlooked_iff, noSequence, listed]
  simp

section
variable {s : Schema} (tidy : s.isTidy = true)
include tidy

theorem isTidy_of_mem {child : Schema} (member : child ∈ s.children.toList) :
    child.isTidy = true := by
  obtain ⟨k, c⟩ := s
  exact ((isTidy_mk k c).mp tidy).2 child member

theorem isTidyNode_of_isTidy : s.isTidyNode = true := by
  obtain ⟨k, c⟩ := s
  exact ((isTidy_mk k c).mp tidy).1

theorem isTidy_of_entered {child : Schema} (member : child ∈ s.children.entered.toList) :
    child.isTidy = true :=
  isTidy_of_mem tidy ((s.children.mem_toList_iff child).mpr (Or.inl member))

/-- A reference holds nothing. -/
theorem entered_of_reference {r : Reference} (refers : s.keywords.reference = some r) :
    s.children.entered = {} := by
  have node := isTidyNode_of_isTidy tidy
  rw [isTidyNode, refers] at node
  obtain ⟨k, not, items, properties, allOf, oneOf, anyOf, additional⟩ := s
  cases items <;> cases properties <;> cases allOf <;> cases oneOf <;> cases anyOf <;>
    simp [Children.kinds] at node
  rfl

theorem groupFree_of_reference {r : Reference} (refers : s.keywords.reference = some r) :
    s.GroupFree := by
  have held := entered_of_reference tidy refers
  refine s.groupFree_iff.mpr ⟨fun slot member => ?_, fun child member => ?_⟩
  · have entered := mem_entered_of_slots member
    rw [held] at entered
    cases entered
  · rw [held] at member
    cases member

/-- A group holds its items. -/
theorem entered_of_group {items : Schema} (group : s.isRepeatingGroup = true)
    (held : s.children.items = some items) : s.children.entered = { items := some items } := by
  have node := isTidyNode_of_isTidy tidy
  rw [isTidyNode, group] at node
  obtain ⟨k, not, first, properties, allOf, oneOf, anyOf, additional⟩ := s
  dsimp only at held
  subst held
  cases properties <;> cases allOf <;> cases oneOf <;> cases anyOf <;>
    simp [Children.kinds] at node
  rfl

/-- What a group repeats stands in the group and is no group itself. -/
theorem inline_of_group {items : Schema} (group : s.isRepeatingGroup = true)
    (held : s.children.items = some items) :
    items.keywords.reference = none ∧ items.isRepeatingGroup = false := by
  have inside : items ∈ s.children.entered.toList := by
    simp [entered_of_group tidy group held, Children.toList]
  have itemsTidy := isTidy_of_entered tidy inside
  obtain ⟨_, held', composed⟩ := exists_items_of_group group
  cases held.symm.trans held'
  -- The composition that the group repeats leaves room neither for a reference nor for items.
  constructor
  · cases refers : items.keywords.reference with
    | none => rfl
    | some r =>
      have empty := entered_of_reference itemsTidy refers
      have noSequence : items.children.allOf = none := congrArg Children.allOf empty
      have noChoice : items.children.oneOf = none := congrArg Children.oneOf empty
      rw [noSequence, noChoice] at composed
      simp at composed
  · cases again : items.isRepeatingGroup with
    | false => rfl
    | true =>
      obtain ⟨inner, heldInner, _⟩ := exists_items_of_group again
      have only := entered_of_group itemsTidy again heldInner
      have noSequence : items.children.allOf = none := congrArg Children.allOf only
      have noChoice : items.children.oneOf = none := congrArg Children.oneOf only
      rw [noSequence, noChoice] at composed
      simp at composed

end

end Schema

namespace Repetition

/-- The nodes whose content a fold of the node draws from, references on references included. -/
inductive Drawn (graph : Definitions) (s : Schema) : Schema → Prop where
  | self : Drawn graph s s
  | inside {n child : Schema} (drawn : Drawn graph s n) (follows : child ∈ followed n) :
      Drawn graph s child
  | behind {n target : Schema} {r : Reference} (drawn : Drawn graph s n)
      (refers : n.keywords.reference = some r) (leads : graph.target? r = some target) :
      Drawn graph s target

/-- What a fold of the node draws from elsewhere neither is a group nor holds one. -/
def DrawsNoGroup (graph : Definitions) (s : Schema) : Prop :=
  ∀ n r target, Drawn graph s n → n.keywords.reference = some r → graph.target? r = some target →
    target.isAnonymousGroup = false ∧ target.GroupFree

section
variable {graph : Definitions} {s : Schema}

theorem Drawn.trans {n m : Schema} (first : Drawn graph s n) (next : Drawn graph n m) :
    Drawn graph s m := by
  induction next with
  | self => exact first
  | inside _ follows ih => exact ih.inside follows
  | behind _ refers leads ih => exact ih.behind refers leads

theorem DrawsNoGroup.of_drawn {n : Schema} (none : DrawsNoGroup graph s)
    (drawn : Drawn graph s n) : DrawsNoGroup graph n :=
  fun m r target further => none m r target (drawn.trans further)

/-- What is drawn is drawn behind the reference of the node or below it. -/
theorem DrawsNoGroup.mk (behind : ∀ r target, s.keywords.reference = some r →
      graph.target? r = some target → target.isAnonymousGroup = false ∧ target.GroupFree ∧
        DrawsNoGroup graph target)
    (below : ∀ child ∈ followed s, DrawsNoGroup graph child) : DrawsNoGroup graph s := by
  have within {n : Schema} (drawn : Drawn graph s n) : n = s ∨ DrawsNoGroup graph n := by
    induction drawn with
    | self => exact Or.inl rfl
    | inside _ follows ih =>
      rcases ih with rfl | none
      · exact Or.inr (below _ follows)
      · exact Or.inr (none.of_drawn (.inside .self follows))
    | behind _ refers leads ih =>
      rcases ih with rfl | none
      · exact Or.inr (behind _ _ refers leads).2.2
      · exact Or.inr (none.of_drawn (.behind .self refers leads))
  intro n r target drawn refers leads
  rcases within drawn with rfl | none
  · exact ⟨(behind r target refers leads).1, (behind r target refers leads).2.1⟩
  · exact none n r target .self refers leads

theorem DrawsNoGroup.of_wraps {property wrapped : Schema} (wraps : Wraps property wrapped) :
    DrawsNoGroup graph wrapped := by
  refine .mk (fun r target refers => ?_) fun child follows => ?_
  · rw [wraps.reference] at refers
    cases refers
  · rw [followed, members, wraps.children, wraps.isArray] at follows
    cases follows

/-- The content that stands for a followed child draws no group either. -/
theorem DrawsNoGroup.deref {content : Schema} {location : String} (none : DrawsNoGroup graph s)
    (stands : graph.deref s location = .ok content) : DrawsNoGroup graph content := by
  rw [Definitions.deref] at stands
  split at stands
  · rename_i r refers
    exact none.of_drawn (.behind .self refers (Definitions.target?_of_resolve stands))
  · cases stands
    exact none

/-- What stands for a node in a graph of tidy definitions. -/
theorem isTidy_deref (graphTidy : ∀ e ∈ graph, e.2.isTidy = true) (tidy : s.isTidy = true)
    {content : Schema} {location : String} (stands : graph.deref s location = .ok content) :
    content.isTidy = true := by
  rw [Definitions.deref] at stands
  split at stands
  · rename_i r refers
    obtain ⟨root, found, inside⟩ :=
      Option.bind_eq_some_iff.mp (Definitions.target?_of_resolve stands)
    refine Schema.of_descend (p := fun s => s.isTidy = true) (fun s tidy => ?_) _
      (graphTidy _ (Table.mem_of_get? found)) inside
    exact (Children.each_iff _ _).mpr fun child member => Schema.isTidy_of_mem tidy member
  · cases stands
    exact tidy

/-- What a fold keeps of its content, and what it makes of groups. -/
structure Kept (graph : Definitions) (s left : Schema) : Prop where
  reference : left.keywords.reference = s.keywords.reference
  group : left.isRepeatingGroup = s.isRepeatingGroup
  tidy : s.isTidy = true → left.isTidy = true
  draws : s.isTidy = true → DrawsNoGroup graph s → DrawsNoGroup graph left
  free : s.isTidy = true → DrawsNoGroup graph s → (left.GroupFree ↔ s.GroupFree)

theorem Kept.isAnonymousGroup {left : Schema} (kept : Kept graph s left) :
    left.isAnonymousGroup = s.isAnonymousGroup := by
  rw [Schema.isAnonymousGroup, Schema.isAnonymousGroup, kept.reference, kept.group]

end

section
variable {property wrapped : Schema} (wraps : Wraps property wrapped)
include wraps

theorem Wraps.entered : wrapped.children.entered.toList = [property] := by
  rw [wraps.children]
  rfl

theorem Wraps.isTidy (tidy : property.isTidy = true) : wrapped.isTidy = true := by
  have listed : wrapped.children.toList = [property] := by
    rw [wraps.children]
    rfl
  have node : wrapped.isTidyNode = true := by
    rw [Schema.isTidyNode, wraps.reference, wraps.children]
    simp [Children.kinds]
  obtain ⟨k, c⟩ := wrapped
  refine (Schema.isTidy_mk k c).mpr ⟨node, fun child member => ?_⟩
  rw [listed, List.mem_singleton] at member
  exact member ▸ tidy

theorem Wraps.groupFree_iff : wrapped.GroupFree ↔ property.GroupFree := by
  have slots : wrapped.children.slots = [] := by
    rw [wraps.children]
    rfl
  rw [wrapped.groupFree_iff, wraps.entered, slots]
  simp

end

section
variable {g : Setting} {s left : Schema} (graphTidy : ∀ e ∈ g.graph, e.2.isTidy = true)

section
variable {child : Schema} (carried : Carried g (Kept g.graph) s child left)
  (tidy : child.isTidy = true)
include graphTidy carried tidy

theorem Carried.isTidy : left.isTidy = true := by
  cases carried with
  | kept => exact tidy
  | folded _ stands kept => exact kept.tidy (isTidy_deref graphTidy tidy stands)

variable (none : DrawsNoGroup g.graph s)
include none

/-- A child behind a reference is no group and holds none, and neither is or does what it draws. -/
theorem Carried.free : (child.isAnonymousGroup = false ↔ left.isAnonymousGroup = false) ∧
    (child.GroupFree ↔ left.GroupFree) := by
  cases carried with
  | kept => exact ⟨Iff.rfl, Iff.rfl⟩
  | @folded content _ follows stands kept =>
    have drawn := none.of_drawn (.inside .self follows)
    have free := kept.free (isTidy_deref graphTidy tidy stands) (drawn.deref stands)
    rw [kept.isAnonymousGroup, free]
    cases refers : child.keywords.reference with
    | none =>
      rw [Definitions.deref, refers] at stands
      cases stands
      exact ⟨Iff.rfl, Iff.rfl⟩
    | some r =>
      have inline : child.isAnonymousGroup = false := by
        rw [Schema.isAnonymousGroup, refers]
        rfl
      have leads : g.graph.target? r = some content := by
        rw [Definitions.deref, refers] at stands
        exact Definitions.target?_of_resolve stands
      obtain ⟨single, whole⟩ := none child r content (.inside .self follows) refers leads
      exact ⟨iff_of_true inline single,
        iff_of_true (Schema.groupFree_of_reference tidy refers) whole⟩

end

variable (rebuilt : Rebuilt g (Kept g.graph) s left)
include rebuilt

theorem Rebuilt.isArray : left.isArray = s.isArray := by
  rw [Schema.isArray, Schema.hasType, rebuilt.type]
  rfl

theorem Rebuilt.group : left.isRepeatingGroup = s.isRepeatingGroup := by
  rw [Schema.isRepeatingGroup, Schema.isRepeatingGroup, rebuilt.isArray, rebuilt.items]

include graphTidy

theorem Rebuilt.draws (tidy : s.isTidy = true) (none : DrawsNoGroup g.graph s) :
    DrawsNoGroup g.graph left := by
  refine .mk (fun r target refers leads => ?_) fun child follows => ?_
  · rw [rebuilt.reference] at refers
    obtain ⟨single, free⟩ := none s r target .self refers leads
    exact ⟨single, free, none.of_drawn (.behind .self refers leads)⟩
  · obtain ⟨property, wraps⟩ | ⟨origin, follows, content, stands, kept⟩ :=
      rebuilt.followed child follows
    · exact .of_wraps wraps
    · have originTidy := Schema.isTidy_of_mem tidy (mem_toList_of_followed follows)
      have drawn := (none.of_drawn (.inside .self follows)).deref stands
      exact kept.draws (isTidy_deref graphTidy originTidy stands) drawn

theorem Rebuilt.tidy (tidy : s.isTidy = true) : left.isTidy = true := by
  have node : left.isTidyNode = true := by
    have before := Schema.isTidyNode_of_isTidy tidy
    rwa [Schema.isTidyNode, ← rebuilt.kinds, ← rebuilt.reference, ← rebuilt.group] at before
  have children : ∀ child ∈ left.children.toList, child.isTidy = true := by
    intro child member
    rcases (left.children.mem_toList_iff child).mp member with entered | skipped
    · obtain ⟨origin, inside, related⟩ := exists_of_mem_right rebuilt.entered entered
      have originTidy := Schema.isTidy_of_entered tidy inside
      rcases related with carried | wraps
      · exact carried.isTidy graphTidy originTidy
      · exact wraps.isTidy originTidy
    · rw [rebuilt.skipped] at skipped
      exact Schema.isTidy_of_mem tidy ((s.children.mem_toList_iff child).mpr (Or.inr skipped))
  obtain ⟨k, c⟩ := left
  exact (Schema.isTidy_mk k c).mpr ⟨node, children⟩

theorem Rebuilt.free (tidy : s.isTidy = true) (none : DrawsNoGroup g.graph s) :
    left.GroupFree ↔ s.GroupFree := by
  have slots := (List.forall₂_and_left _ _).mpr ⟨fun _ member => member, rebuilt.slots⟩
  have entered := (List.forall₂_and_left _ _).mpr ⟨fun _ member => member, rebuilt.entered⟩
  rw [left.groupFree_iff, s.groupFree_iff]
  refine (and_congr (forall_mem_iff_of_forall₂ (slots.imp fun child left related => ?_))
    (forall_mem_iff_of_forall₂ (entered.imp fun child left related => ?_))).symm
  · have tidy := Schema.isTidy_of_entered tidy (Schema.mem_entered_of_slots related.1)
    exact (related.2.free graphTidy tidy none).1
  · have tidy := Schema.isTidy_of_entered tidy related.1
    rcases related.2 with carried | wraps
    · exact (carried.free graphTidy tidy none).2
    · exact wraps.groupFree_iff.symm

theorem Rebuilt.kept : Kept g.graph s left where
  reference := rebuilt.reference
  group := rebuilt.group
  tidy := rebuilt.tidy graphTidy
  draws := rebuilt.draws graphTidy
  free := rebuilt.free graphTidy

omit rebuilt in
/-- What comes of folded content. -/
theorem kept_of_fold {hops : Nat} {b : Bounds} (folded : fold g hops s b = .ok left) :
    Kept g.graph s left :=
  fold_induction (fun _ _ rebuilt => rebuilt.kept graphTidy) folded

end

/-- The members that the pass looks at. -/
def examined (s : Schema) : List Schema := s.children.allOf.getD (s.children.oneOf.getD [])

/-- No group that the pass folds in the schema draws a group. -/
def FoldsNoGroup (graph : Definitions) (s : Schema) : Prop :=
  ∀ node ∈ s.met [], ∀ slot ∈ examined node.2, slot.isRepeatingGroup = true →
    ∀ items, slot.children.items = some items → DrawsNoGroup graph items

theorem foldsNoGroup_iff (graph : Definitions) (s : Schema) : FoldsNoGroup graph s ↔
    (∀ slot ∈ examined s, slot.isRepeatingGroup = true →
      ∀ items, slot.children.items = some items → DrawsNoGroup graph items) ∧
      ∀ child ∈ s.children.entered.toList, FoldsNoGroup graph child := by
  obtain ⟨k, c⟩ := s
  rw [← Children.each_iff]
  exact Schema.forall_met_mk_iff (fun s => ∀ slot ∈ examined s, slot.isRepeatingGroup = true →
    ∀ items, slot.children.items = some items → DrawsNoGroup graph items) k c

/-- The pass folds no group in the schema. -/
def Idle (s : Schema) : Prop :=
  ∀ node ∈ s.met [], ∀ slot ∈ examined node.2, slot.isRepeatingGroup = false

instance (s : Schema) : Decidable (Idle s) := inferInstanceAs (Decidable (∀ _ ∈ _, _))

theorem idle_iff (s : Schema) : Idle s ↔
    (∀ slot ∈ examined s, slot.isRepeatingGroup = false) ∧
      ∀ child ∈ s.children.entered.toList, Idle child := by
  obtain ⟨k, c⟩ := s
  rw [← Children.each_iff]
  exact Schema.forall_met_mk_iff (fun s => ∀ slot ∈ examined s, slot.isRepeatingGroup = false) k c

theorem Idle.foldsNoGroup {graph : Definitions} {s : Schema} (idle : Idle s) :
    FoldsNoGroup graph s := by
  intro node met slot looked group
  rw [idle node met slot looked] at group
  cases group

/-- What the pass at a node does: it unfolds the groups of the sequence, or of the choice where there
is no sequence. -/
theorem after_cases {graph : Definitions} {p : Position} {k : Keywords} {c : Children Schema}
    {left : Schema} (made : after graph p ⟨k, c⟩ = .ok left) :
    (∃ l l', c.allOf = some l ∧ l.mapM (unfoldGroup graph p) = .ok l' ∧
      left = ⟨k, { c with allOf := some l' }⟩) ∨
    (c.allOf = none ∧ ∃ l l', c.oneOf = some l ∧ l.mapM (unfoldGroup graph p) = .ok l' ∧
      left = ⟨k, { c with oneOf := some l' }⟩) ∨
    (c.allOf = none ∧ c.oneOf = none ∧ left = ⟨k, c⟩) := by
  rw [after] at made
  split at made
  · rename_i l held
    obtain ⟨l', unfolded, made⟩ := of_bind_eq_ok made
    exact Or.inl ⟨l, l', held, unfolded, (Except.ok.inj made).symm⟩
  · rename_i l none held
    obtain ⟨l', unfolded, made⟩ := of_bind_eq_ok made
    exact Or.inr (Or.inl ⟨none, l, l', held, unfolded, (Except.ok.inj made).symm⟩)
  · rename_i none none'
    exact Or.inr (Or.inr ⟨none, none', (Except.ok.inj made).symm⟩)

section
variable {graph : Definitions}

/-- What the pass makes of a schema, wherever it stands. -/
structure Settled (graph : Definitions) (s left : Schema) : Prop where
  tidy : left.isTidy = true
  draws : DrawsNoGroup graph s → DrawsNoGroup graph left
  free : left.GroupFree ↔ s.NoneOverlooked

/-- What stays of a node whatever the walk makes of its children. -/
structure Shaped (s left : Schema) : Prop where
  reference : left.keywords.reference = s.keywords.reference
  type : left.keywords.type = s.keywords.type
  allOf : left.children.allOf.isSome = s.children.allOf.isSome
  oneOf : left.children.oneOf.isSome = s.children.oneOf.isSome

theorem Shaped.isArray {s left : Schema} (shaped : Shaped s left) : left.isArray = s.isArray := by
  rw [Schema.isArray, Schema.hasType, shaped.type]
  rfl

/-- Whether a node is a group is told by what stays of it and of its items. -/
theorem isRepeatingGroup_of_items {s left : Schema} (type : left.keywords.type = s.keywords.type)
    (items : Option.Rel Shaped s.children.items left.children.items) :
    left.isRepeatingGroup = s.isRepeatingGroup := by
  have array : left.isArray = s.isArray := by
    rw [Schema.isArray, Schema.hasType, type]
    rfl
  rw [Schema.isRepeatingGroup, Schema.isRepeatingGroup, array]
  generalize s.children.items = held at items
  generalize left.children.items = walked at items
  cases items with
  | none => rfl
  | some shaped => rw [Option.any_some, Option.any_some, shaped.allOf, shaped.oneOf]

/-- What a walk makes of a node before the pass is at the node above. -/
structure Turned (graph : Definitions) (s left : Schema) : Prop
    extends Settled graph s left, Shaped s left

/-- Such a node, whose items are such. -/
structure Walked (graph : Definitions) (s left : Schema) : Prop extends Turned graph s left where
  items : Option.Rel (Turned graph) s.children.items left.children.items

theorem Walked.isRepeatingGroup {s left : Schema} (walked : Walked graph s left) :
    left.isRepeatingGroup = s.isRepeatingGroup :=
  isRepeatingGroup_of_items walked.type
    (optionRel_imp walked.items fun _ _ _ turned => turned.toShaped)

theorem Walked.isAnonymousGroup {s left : Schema} (walked : Walked graph s left) :
    left.isAnonymousGroup = s.isAnonymousGroup := by
  rw [Schema.isAnonymousGroup, Schema.isAnonymousGroup, walked.reference, walked.isRepeatingGroup]

/-- A member that the pass looks at. -/
theorem settled_of_unfoldGroup (graphTidy : ∀ e ∈ graph, e.2.isTidy = true) {p : Position}
    {slot walked left : Schema} (tidy : slot.isTidy = true) (turned : Walked graph slot walked)
    (drawsNone : slot.isRepeatingGroup = true →
      ∀ items, slot.children.items = some items → DrawsNoGroup graph items)
    (made : unfoldGroup graph p walked = .ok left) :
    Settled graph slot left ∧ left.isAnonymousGroup = false := by
  have same := turned.isRepeatingGroup
  cases group : slot.isRepeatingGroup with
  | false =>
    rw [unfoldGroup, same, group] at made
    cases made
    exact ⟨turned.toSettled, by rw [turned.isAnonymousGroup, Schema.isAnonymousGroup, group,
      Bool.and_false]⟩
  | true =>
    obtain ⟨items, held, _⟩ := Schema.exists_items_of_group group
    have only := Schema.entered_of_group tidy group held
    have related := turned.items
    rw [held] at related
    generalize held' : walked.children.items = o at related
    cases related with
    | @some _ items' inside =>
      obtain ⟨inline, single⟩ :=
        Schema.inline_of_group turned.tidy (same.trans group) held'
      rw [unfoldGroup, same, group, held'] at made
      dsimp only at made
      rw [Definitions.deref, inline] at made
      have kept : Kept graph items' left := kept_of_fold graphTidy made
      have draws := inside.draws (drawsNone group items held)
      have free := (kept.free inside.tidy draws).trans inside.free
      refine ⟨⟨kept.tidy inside.tidy, fun _ => kept.draws inside.tidy draws, ?_⟩, ?_⟩
      · rw [free, Schema.noneOverlooked_iff_of_items only]
      · rw [kept.isAnonymousGroup, Schema.isAnonymousGroup, single, Bool.and_false]

/-- What the pass at a node makes of what the walk has made of its children. -/
structure Passed (graph : Definitions) (k : Keywords) (c walked : Children Schema) (left : Schema) :
    Prop where
  keywords : left.keywords = k
  items : left.children.items = walked.items
  properties : left.children.properties = walked.properties
  children : c.Related (Settled graph) left.children
  looked : ∀ slot ∈ examined left, slot.isAnonymousGroup = false
  passedOver : walked.allOf.isSome → left.children.oneOf = walked.oneOf

theorem passed_of_after (graphTidy : ∀ e ∈ graph, e.2.isTidy = true) {p : Position} {k : Keywords}
    {c walked : Children Schema} {left : Schema} (tidy : Schema.isTidy ⟨k, c⟩ = true)
    (folds : FoldsNoGroup graph ⟨k, c⟩) (related : c.Related (Walked graph) walked)
    (made : after graph p ⟨k, walked⟩ = .ok left) : Passed graph k c walked left := by
  have settled : c.Related (Settled graph) walked :=
    related.imp ((Children.each_iff _ _).mpr fun _ _ _ turned => turned.toSettled)
  have slots {l before l' : List Schema} (inside : ∀ slot ∈ l, slot ∈ c.toList)
      (looked : ∀ slot ∈ l, slot ∈ examined ⟨k, c⟩) (pairs : List.Forall₂ (Walked graph) l before)
      (unfolded : before.mapM (unfoldGroup graph p) = .ok l') :
      List.Forall₂ (fun slot left => Settled graph slot left ∧ left.isAnonymousGroup = false)
        l l' := by
    have own := ((foldsNoGroup_iff graph ⟨k, c⟩).mp folds).1
    refine forall₂_trans (fun slot walked left both made => ?_)
      ((List.forall₂_and_left _ _).mpr ⟨fun _ member => member, pairs⟩) (mapM_eq_ok_iff.mp unfolded)
    exact settled_of_unfoldGroup graphTidy (Schema.isTidy_of_mem tidy (inside slot both.1)) both.2
      (own slot (looked slot both.1)) made
  obtain ⟨before, l', held, unfolded, rfl⟩ | ⟨noSequence, before, l', held, unfolded, rfl⟩ |
    ⟨noSequence, noChoice, rfl⟩ := after_cases made
  · obtain ⟨l, heldBefore, pairs⟩ := exists_of_optionRel_some related.allOf held
    have looked : examined ⟨k, c⟩ = l := by simp only [examined, heldBefore, Option.getD_some]
    have made := slots (fun slot member => by simp [Children.toList, heldBefore, member])
      (fun slot member => looked ▸ member) pairs unfolded
    refine ⟨rfl, rfl, rfl, { settled with allOf := ?_ }, fun slot member => ?_, fun _ => rfl⟩
    · exact heldBefore ▸ .some (made.imp fun _ _ both => both.1)
    · obtain ⟨_, _, both⟩ := exists_of_mem_right made member
      exact both.2
  · obtain ⟨l, heldBefore, pairs⟩ := exists_of_optionRel_some related.oneOf held
    have noneBefore := eq_none_of_optionRel related.allOf noSequence
    have looked : examined ⟨k, c⟩ = l := by
      simp only [examined, noneBefore, heldBefore, Option.getD_none, Option.getD_some]
    have made := slots (fun slot member => by simp [Children.toList, heldBefore, member])
      (fun slot member => looked ▸ member) pairs unfolded
    refine ⟨rfl, rfl, rfl, { settled with oneOf := ?_ }, fun slot member => ?_, fun some => ?_⟩
    · exact heldBefore ▸ .some (made.imp fun _ _ both => both.1)
    · rw [examined] at member
      simp only [noSequence, Option.getD_none, Option.getD_some] at member
      obtain ⟨_, _, both⟩ := exists_of_mem_right made member
      exact both.2
    · rw [noSequence] at some
      cases some
  · refine ⟨rfl, rfl, rfl, settled, fun slot member => ?_, fun _ => rfl⟩
    rw [examined] at member
    simp only [noSequence, noChoice] at member
    cases member

section
variable {k : Keywords} {c walked : Children Schema} {left : Schema}
  (related : c.Related (Walked graph) walked) (passed : Passed graph k c walked left)
include related passed

theorem Passed.tidy (tidy : Schema.isTidy ⟨k, c⟩ = true) : left.isTidy = true := by
  have node : left.isTidyNode = true := by
    have before := Schema.isTidyNode_of_isTidy tidy
    have group : left.isRepeatingGroup = Schema.isRepeatingGroup ⟨k, c⟩ :=
      isRepeatingGroup_of_items (congrArg Keywords.type passed.keywords)
        (passed.items ▸ optionRel_imp related.items fun _ _ _ turned => turned.toShaped)
    rwa [Schema.isTidyNode, ← passed.children.kinds, ← group, ← passed.keywords] at before
  have children : ∀ child ∈ left.children.toList, child.isTidy = true := by
    intro child member
    rcases (left.children.mem_toList_iff child).mp member with entered | skipped
    · obtain ⟨_, _, settled⟩ := exists_of_mem_right passed.children.toList_entered entered
      exact settled.tidy
    · rw [passed.children.skipped] at skipped
      exact Schema.isTidy_of_mem tidy ((c.mem_toList_iff child).mpr (Or.inr skipped))
  obtain ⟨k', c'⟩ := left
  exact (Schema.isTidy_mk k' c').mpr ⟨node, children⟩

theorem Passed.draws (none : DrawsNoGroup graph ⟨k, c⟩) : DrawsNoGroup graph left := by
  refine .mk (fun r target refers leads => ?_) fun child follows => ?_
  · rw [passed.keywords] at refers
    obtain ⟨single, free⟩ := none ⟨k, c⟩ r target .self refers leads
    exact ⟨single, free, none.of_drawn (.behind .self refers leads)⟩
  · have array : left.isArray = Schema.isArray ⟨k, c⟩ :=
      congrArg (·.type == some "array") passed.keywords
    rw [followed, array] at follows
    rcases List.mem_append.mp follows with member | property
    · have pairs : List.Forall₂ (Settled graph) (members ⟨k, c⟩) (members left) :=
        forall₂_getD_of_optionRel passed.children.oneOf
          (forall₂_getD_of_optionRel passed.children.allOf .nil)
      obtain ⟨origin, inside, settled⟩ := exists_of_mem_right pairs member
      exact settled.draws (none.of_drawn (.inside .self (List.mem_append_left _ inside)))
    · split at property
      · cases property
      · rename_i single
        obtain ⟨listed, many⟩ := List.mem_filter.mp property
        rw [passed.properties] at listed
        obtain ⟨origin, inside, turned⟩ := exists_of_mem_right related.values listed
        rw [turned.isArray] at many
        refine turned.draws (none.of_drawn (.inside .self (List.mem_append_right _ ?_)))
        rw [if_neg single]
        exact List.mem_filter.mpr ⟨inside, many⟩

theorem Passed.free : left.GroupFree ↔ Schema.NoneOverlooked ⟨k, c⟩ := by
  have below := forall_mem_iff_of_forall₂
    (passed.children.toList_entered.imp fun _ _ settled => settled.free.symm)
  rw [left.groupFree_iff, Schema.noneOverlooked_iff, below]
  refine and_congr_left fun _ => ?_
  have looked := passed.looked
  rw [examined] at looked
  rw [Children.slots, List.forall_mem_append]
  cases held : c.allOf with
  | none =>
    have none : left.children.allOf = none := by
      rw [← Option.not_isSome_iff_eq_none, isSome_of_optionRel passed.children.allOf, held]
      simp
    rw [none] at looked ⊢
    simpa using looked
  | some l =>
    have held' := isSome_of_optionRel passed.children.allOf
    obtain ⟨l', held'⟩ := Option.isSome_iff_exists.mp (held'.trans (by rw [held]; rfl))
    have sequence : walked.allOf.isSome = true := by
      rw [isSome_of_optionRel related.allOf, held]
      rfl
    rw [held'] at looked ⊢
    have branches := forall_mem_iff_of_forall₂ (p := fun s => s.isAnonymousGroup = false)
      (q := fun s => s.isAnonymousGroup = false)
      ((forall₂_getD_of_optionRel related.oneOf .nil).imp fun _ _ walked => by
        rw [walked.isAnonymousGroup])
    rw [passed.passedOver sequence, ← branches]
    simpa using fun _ => looked

/-- What a walk makes of a node, when it has made as much of the children. -/
theorem Passed.turned (tidy : Schema.isTidy ⟨k, c⟩ = true) : Walked graph ⟨k, c⟩ left where
  tidy := passed.tidy related tidy
  draws := passed.draws related
  free := passed.free related
  reference := congrArg Keywords.reference passed.keywords
  type := congrArg Keywords.type passed.keywords
  allOf := isSome_of_optionRel passed.children.allOf
  oneOf := isSome_of_optionRel passed.children.oneOf
  items := passed.items ▸ optionRel_imp related.items fun _ _ _ turned => turned.toTurned

end

/-- What becomes of a definition. -/
theorem walked_of_walkedRoot (graphTidy : ∀ e ∈ graph, e.2.isTidy = true) {flavor : Flavor}
    {name : String} {root left : Schema} (tidy : root.isTidy = true)
    (folds : FoldsNoGroup graph root)
    (made : walkedRoot after flavor graph name root = .ok left) : Walked graph root left := by
  have ends : Ends (fun _ => True) (Walked graph root) (walkedRoot after flavor graph name root) :=
    ends_walkedRoot _ (fun s => s.isTidy = true ∧ FoldsNoGroup graph s) _ ?_ ?_ ⟨tidy, folds⟩
  · rwa [made] at ends
  · intro k c within
    have folds := ((foldsNoGroup_iff graph ⟨k, c⟩).mp within.2).2
    exact (Children.each_iff _ _).mpr fun child member =>
      ⟨Schema.isTidy_of_entered within.1 member, folds child member⟩
  · intro p k c walked within related
    cases made : after graph p ⟨k, walked⟩ with
    | error e => exact trivial
    | ok left =>
      have passed := passed_of_after graphTidy within.1 within.2 related made
      exact passed.turned related within.1

variable {d left : Document}

/-- Of a document whose references stand alone and whose groups hold nothing but their items, and in
    which no group draws a group from elsewhere when it is folded, no group is left exactly if no
    choice beside an `allOf` has one. -/
theorem groupFree_run_iff (ran : run d = (left, .ok {}))
    (tidy : ∀ e ∈ d.definitions, e.2.isTidy = true)
    (folds : ∀ finished name root later, Reached after d finished ((name, root) :: later) →
      FoldsNoGroup (finished ++ (name, root) :: later) root) :
    (∀ e ∈ left.definitions, e.2.GroupFree) ↔ ∀ e ∈ d.definitions, e.2.NoneOverlooked := by
  obtain ⟨reached, _⟩ := walkPass_eq_ok_iff.mp ran
  have step {finished later : Definitions} {name : String} {root left : Schema}
      (before : Reached after d finished ((name, root) :: later))
      (graphTidy : ∀ e ∈ finished ++ (name, root) :: later, e.2.isTidy = true)
      (walked : walkedRoot after d.flavor (finished ++ (name, root) :: later) name root = .ok left) :
      Walked (finished ++ (name, root) :: later) root left :=
    walked_of_walkedRoot graphTidy (graphTidy (name, root) (by simp))
      (folds finished name root later before) walked
  have graphTidy {finished rest : Definitions} (reached : Reached after d finished rest) :
      ∀ e ∈ finished ++ rest, e.2.isTidy = true :=
    reached.forall_mem (fun s => s.isTidy = true) tidy
      fun _ _ _ _ _ before each walked => (step before each walked).tidy
  obtain ⟨earlier, split, pairs⟩ := reached.forall₂
    (fun s left => left.GroupFree ↔ s.NoneOverlooked)
    fun _ _ _ _ _ before walked => (step before (graphTidy before) walked).free
  rw [List.append_nil] at split
  rw [split]
  exact (forall_mem_iff_of_forall₂ (pairs.imp fun _ _ both => both.2.symm)).symm

end

section
private def text : Schema := { keywords := { type := some "string" } }

private def record (name : String) : Schema :=
  { keywords := { type := some "object" }, children := { properties := some [(name, text)] } }

private def groupOf (members : List Schema) (maxItems : Option Nat) : Schema where
  keywords := { type := some "array", maxItems }
  children := { items := some { children := { allOf := some members } } }

private def definition (name : String) : Schema := .ofReference (.toDefinition name .definitions)

private def documentOf (definitions : Definitions) : Document :=
  ⟨[("definitions", .null)], .definitions, true, definitions⟩

/-- An order repeats its lines, of which another definition says what they are. -/
def lines : Document := documentOf
  [("Order", { children := { allOf := some [groupOf [definition "Line"] (some 2)] } }),
    ("Line", record "code")]

/-- A shipment extends a header and is made of parcels, which repeat. -/
def shipments : Document := documentOf
  [("Shipment", { children := {
      allOf := some [definition "Header"], oneOf := some [groupOf [record "parcel"] none] } }),
    ("Header", { keywords := { type := some "object" } })]

/-- A catalog repeats its sections, which come later and repeat their entries. -/
def catalogs : Document := documentOf
  [("Catalog", { children := { allOf := some [groupOf [definition "Section"] none] } }),
    ("Section", { children := { allOf := some [groupOf [record "entry"] (some 2)] } })]

private theorem record_drawsNoGroup (graph : Definitions) (name : String) :
    DrawsNoGroup graph (record name) :=
  .mk (fun _ _ refers => nomatch refers) fun _ follows => nomatch follows

private theorem lines_foldsNoGroup {finished later : Definitions} {name : String} {root : Schema}
    (reached : Reached after lines finished ((name, root) :: later)) :
    FoldsNoGroup (finished ++ (name, root) :: later) root := by
  obtain ⟨earlier, split, pairs⟩ := reached.forall₂ (fun _ _ => True)
    fun _ _ _ _ _ _ _ => trivial
  rcases earlier with _ | ⟨first, _ | ⟨second, rest⟩⟩
  · -- The order is still to come, and so is the line that it draws.
    cases pairs
    cases split
    have line : DrawsNoGroup lines.definitions (definition "Line") := by
      refine .mk (fun r target refers leads => ?_) fun _ follows => nomatch follows
      cases refers
      cases leads
      exact ⟨by decide, by decide, record_drawsNoGroup _ "code"⟩
    refine (foldsNoGroup_iff _ _).mpr ⟨fun slot looked _ items held => ?_, fun child listed => ?_⟩
    · cases List.mem_singleton.mp looked
      cases held
      refine .mk (fun _ _ refers => nomatch refers) fun child follows => ?_
      cases List.mem_singleton.mp follows
      exact line
    · have idle : Idle (groupOf [definition "Line"] (some 2)) := by decide
      cases List.mem_singleton.mp listed
      exact idle.foldsNoGroup
  · cases split
    have idle : Idle (record "code") := by decide
    exact idle.foldsNoGroup
  · cases rest <;> cases split

theorem groupFree_run_iff_lines : ∃ left, run lines = (left, .ok {}) ∧
    (∀ e ∈ lines.definitions, e.2.isTidy = true) ∧
    (∀ finished name root later, Reached after lines finished ((name, root) :: later) →
      FoldsNoGroup (finished ++ (name, root) :: later) root) ∧
    ((∀ e ∈ left.definitions, e.2.GroupFree) ↔ ∀ e ∈ lines.definitions, e.2.NoneOverlooked) := by
  have ran : run lines = ((run lines).1, .ok {}) := by rfl
  have tidy : ∀ e ∈ lines.definitions, e.2.isTidy = true := by decide
  have folds : ∀ finished name root later, Reached after lines finished ((name, root) :: later) →
      FoldsNoGroup (finished ++ (name, root) :: later) root :=
    fun _ _ _ _ reached => lines_foldsNoGroup reached
  exact ⟨_, ran, tidy, folds, groupFree_run_iff ran tidy folds⟩

/-- A group beside an `allOf` stays, and so does one that another definition still has. -/
theorem groups_left : (∃ left, run shipments = (left, .ok {}) ∧
      ¬ ∀ e ∈ left.definitions, e.2.GroupFree) ∧
    ∃ left, run catalogs = (left, .ok {}) ∧ ¬ ∀ e ∈ left.definitions, e.2.GroupFree :=
  ⟨⟨(run shipments).1, by rfl, by decide⟩, (run catalogs).1, by rfl, by decide⟩

end

end Repetition
end SchemaGraph
