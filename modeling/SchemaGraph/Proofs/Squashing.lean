import SchemaGraph.Proofs.Entered
import SchemaGraph.Proofs.Rule
import SchemaGraph.Proofs.Settled

/- Squashing whole schemas. A run over a schema that has a node which is not settled makes it smaller,
   so a run changes nothing exactly when every node is settled; and what it makes of a node over settled
   ones is settled again, so one run is enough. -/
namespace SchemaGraph

namespace Children
variable {α : Type}

theorem map_snd_mapMembers (keyword : String) (l : List α) :
    (mapMembers Prod.mk keyword l).map Prod.snd = l := by
  rw [map_mapMembers, mapMembers_same, id]

theorem load_placed (weigh : α → Nat) (c : Children α) : c.load weigh =
    (if c.allOf.isSome then 1 else 0) + (c.enteredPlaces.map fun placed => weigh placed.2).sum +
      (c.skipped.map weigh).sum := by
  have members (keyword : String) (list : Option (List α)) :
      ((mapMembers Prod.mk keyword (list.getD [])).map fun placed => weigh placed.2) =
        (list.getD []).map weigh := by
    conv_rhs => rw [← map_snd_mapMembers keyword (list.getD []), List.map_map]
    rfl
  have properties : (((c.properties.getD []).map fun e => (["properties", e.1], e.2)).map
      fun placed => weigh placed.2) = ((c.properties.map Table.values).getD []).map weigh := by
    cases c.properties <;> simp [Table.values]
  have items : ((c.items.toList.map (["items"], ·)).map fun placed => weigh placed.2) =
      c.items.toList.map weigh := by
    rw [List.map_map]
    rfl
  rw [load_eq, enteredPlaces_eq, skipped]
  simp only [List.map_append, List.sum_append, members, properties, items]
  omega

section
variable {f : List String → α → α} {weigh : α → Nat} {c : Children α}

theorem load_mapEntered : (c.mapEntered f).load weigh = (if c.allOf.isSome then 1 else 0) +
    (c.enteredPlaces.map fun placed => weigh (f placed.1 placed.2)).sum +
      (c.skipped.map weigh).sum := by
  have marks : (c.mapEntered f).allOf.isSome = c.allOf.isSome := Option.isSome_map
  rw [load_placed, enteredPlaces_mapEntered, List.map_map, marks]
  rfl

theorem load_mapEntered_lt
    (lighter : ∀ placed ∈ c.enteredPlaces, weigh (f placed.1 placed.2) ≤ weigh placed.2)
    (loses : ∃ placed ∈ c.enteredPlaces, weigh (f placed.1 placed.2) < weigh placed.2) :
    (c.mapEntered f).load weigh < c.load weigh := by
  rw [load_mapEntered, load_placed]
  have lost := List.sum_lt_sum _ _ lighter loses
  omega

end

end Children

namespace Squash
open Schema (weight)

/-- Under `items` nothing is merged into the node. -/
def mergesAt (segments : List String) : Bool := segments.getLast? != some "items"

/-- Squashing leaves the node and all nodes below it as they are. -/
def Still (merge : Bool) (s : Schema) : Prop :=
  s.para (fun k (c : Children (Schema × (Bool → Prop))) merge =>
    Settled merge ⟨k, c.map Prod.fst⟩ ∧
      ∀ placed ∈ c.enteredPlaces, placed.2.2 (mergesAt placed.1)) merge

theorem still_mk_iff (merge : Bool) (k : Keywords) (c : Children Schema) : Still merge ⟨k, c⟩ ↔
    Settled merge ⟨k, c⟩ ∧ ∀ placed ∈ c.enteredPlaces, Still (mergesAt placed.1) placed.2 := by
  have same : c.map (fun child => child) = c := c.map_id
  rw [Still, Schema.para_mk, Children.map_map, Children.enteredPlaces_map, List.forall_mem_map, same]
  rfl

def squasher : Visitor Id := ⟨fun _ s => s, after⟩

theorem walk_succ (levels : Nat) (p : Position) (k : Keywords) (c : Children Schema) :
    (Schema.walk squasher (levels + 1) p ⟨k, c⟩).run = squashNode (p.key? != some "items")
      ⟨k, c.mapEntered fun segments child =>
        (child.walk squasher levels (p.child k.xml segments)).run⟩ :=
  Schema.walk_succ squasher levels p ⟨k, c⟩

theorem ne_nil_of_placed {c : Children Schema} {placed : List String × Schema}
    (listed : placed ∈ c.enteredPlaces) : placed.1 ≠ [] := by
  rw [Children.enteredPlaces_eq] at listed
  simp only [Children.mapMembers, List.mapIdx_eq_zipIdx_map, List.mem_append, List.mem_map] at listed
  rcases listed with (((⟨_, _, rfl⟩ | ⟨_, _, rfl⟩) | ⟨_, _, rfl⟩) | ⟨_, _, rfl⟩) | ⟨_, _, rfl⟩ <;> simp

theorem mergesAt_child {c : Children Schema} {placed : List String × Schema}
    (listed : placed ∈ c.enteredPlaces) (p : Position) (xml : Option Xml) :
    ((p.child xml placed.1).key? != some "items") = mergesAt placed.1 := by
  have last : (placed.1.reverse ++ p.trail).head? = placed.1.getLast? := by
    rw [List.head?_append_of_ne_nil _ (by simpa using ne_nil_of_placed listed), List.head?_reverse]
  rw [Position.key?, Position.child, last]
  rfl

theorem Still.walk {p : Position} {s : Schema} (levels : Nat)
    (h : Still (p.key? != some "items") s) : (s.walk squasher levels p).run = s := by
  induction levels generalizing p s with
  | zero => rfl
  | succ levels ih =>
    obtain ⟨k, c⟩ := s
    obtain ⟨settled, below⟩ := (still_mk_iff _ k c).mp h
    have same : (c.mapEntered fun segments child =>
        (child.walk squasher levels (p.child k.xml segments)).run) = c := by
      refine (Children.mapEntered_eq_self_iff c).mpr fun placed listed => ih ?_
      rw [mergesAt_child listed]
      exact below placed listed
    rw [walk_succ, same, settled.squashNode]

/-- A schema that has a node which is not settled loses weight. -/
theorem weight_walk_lt {levels : Nat} {p : Position} {s : Schema} (enough : s.levels ≤ levels)
    (h : ¬ Still (p.key? != some "items") s) : weight (s.walk squasher levels p).run < s.weight := by
  induction levels generalizing p s with
  | zero => exact absurd s.levels_pos (by omega)
  | succ levels ih =>
    obtain ⟨k, c⟩ := s
    rw [still_mk_iff, not_and_or] at h
    have lighter : ∀ placed ∈ c.enteredPlaces,
        weight (placed.2.walk squasher levels (p.child k.xml placed.1)).run ≤ placed.2.weight := by
      intro placed listed
      have lower := Schema.levels_lt_of_mem (k := k) (Schema.mem_toList_of_placed listed)
      by_cases still : Still ((p.child k.xml placed.1).key? != some "items") placed.2
      · rw [still.walk]
      · exact Nat.le_of_lt (ih (by omega) still)
    rw [walk_succ, Schema.weight_mk]
    by_cases below : ∀ placed ∈ c.enteredPlaces, Still (mergesAt placed.1) placed.2
    · -- The children stay, so it is the node itself that changes.
      have same : (c.mapEntered fun segments child =>
          (child.walk squasher levels (p.child k.xml segments)).run) = c := by
        refine (Children.mapEntered_eq_self_iff c).mpr fun placed listed => ?_
        exact Still.walk levels (mergesAt_child listed p k.xml ▸ below placed listed)
      rw [same, ← Schema.weight_mk]
      exact weight_squashNode_lt (h.resolve_right (not_not.mpr below))
    · simp only [not_forall] at below
      obtain ⟨placed, listed, moves⟩ := below
      have lower := Schema.levels_lt_of_mem (k := k) (Schema.mem_toList_of_placed listed)
      rw [← mergesAt_child listed p k.xml] at moves
      refine (weight_squashNode_le _ _).trans_lt ?_
      rw [Schema.weight_mk]
      exact Nat.add_lt_add_left
        (Children.load_mapEntered_lt lighter ⟨placed, listed, ih (by omega) moves⟩) 1

end Squash

/-- The children that a walk enters, with whether something may be merged into them. -/
structure Children.Arranged (holds : Bool → Schema → Prop) (c : Children Schema) : Prop where
  items : ∀ s, c.items = some s → holds false s
  properties : ∀ t, c.properties = some t → ∀ e ∈ t, holds (Squash.mergesAt ["properties", e.1]) e.2
  allOf : ∀ l, c.allOf = some l → ∀ s ∈ l, holds true s
  oneOf : ∀ l, c.oneOf = some l → ∀ s ∈ l, holds true s
  anyOf : ∀ l, c.anyOf = some l → ∀ s ∈ l, holds true s

namespace Squash

theorem mergesAt_index (keyword : String) (i : Nat) : mergesAt [keyword, toString i] = true := by
  simpa [mergesAt] using Step.index_ne_items i

theorem arranged_iff (holds : Bool → Schema → Prop) (c : Children Schema) :
    c.Arranged holds ↔ ∀ placed ∈ c.enteredPlaces, holds (mergesAt placed.1) placed.2 := by
  have members (keyword : String) (list : Option (List Schema)) :
      (∀ placed ∈ Children.mapMembers Prod.mk keyword (list.getD []),
        holds (mergesAt placed.1) placed.2) ↔ ∀ l, list = some l → ∀ s ∈ l, holds true s := by
    rw [Children.mapMembers, List.mapIdx_eq_zipIdx_map, List.forall_mem_map]
    simp only [mergesAt_index]
    have forgotten (l : List Schema) :
        (∀ entry ∈ l.zipIdx, holds true entry.1) ↔ ∀ s ∈ l, holds true s := by
      conv_rhs => rw [← List.zipIdx_map_fst 0 l]
      rw [List.forall_mem_map]
    cases list with
    | none => simp
    | some l => exact (forgotten l).trans (by simp)
  have properties : (∀ placed ∈ (c.properties.getD []).map fun e => (["properties", e.1], e.2),
      holds (mergesAt placed.1) placed.2) ↔ ∀ t, c.properties = some t → ∀ e ∈ t,
        holds (mergesAt ["properties", e.1]) e.2 := by
    rw [List.forall_mem_map]
    cases c.properties <;> simp
  have items : (∀ placed ∈ c.items.toList.map (["items"], ·), holds (mergesAt placed.1) placed.2) ↔
      ∀ s, c.items = some s → holds false s := by
    rw [List.forall_mem_map]
    cases c.items <;> simp [mergesAt]
  rw [Children.enteredPlaces_eq]
  simp only [List.forall_mem_append, members, properties, items]
  constructor
  · rintro ⟨items, properties, allOf, oneOf, anyOf⟩
    exact ⟨⟨⟨⟨properties, items⟩, allOf⟩, oneOf⟩, anyOf⟩
  · rintro ⟨⟨⟨⟨properties, items⟩, allOf⟩, oneOf⟩, anyOf⟩
    exact ⟨items, properties, allOf, oneOf, anyOf⟩

variable {merge : Bool} {s : Schema}

theorem still_iff : Still merge s ↔ Settled merge s ∧ s.children.Arranged Still := by
  obtain ⟨k, c⟩ := s
  rw [still_mk_iff, arranged_iff]

/-! What is left of a node over nodes that stay as they are. -/

theorem still_splice {member : Schema} (still : Still true member) :
    ∀ m ∈ splice member, Still true m ∧ m.isIdle = false := by
  obtain ⟨settled, below⟩ := still_iff.mp still
  rw [splice_eq]
  split
  · cases held : member.children.allOf with
    | none => simp
    | some inner => exact fun m listed =>
        ⟨below.allOf inner held m listed, (settled inner held).busy m listed⟩
  · rename_i busy
    simpa [still] using busy

theorem arranged_mergeProperties (holds : String × Schema → Prop) {parent more : Option (Table Schema)}
    (own : ∀ t, parent = some t → ∀ e ∈ t, holds e) (added : ∀ t, more = some t → ∀ e ∈ t, holds e) :
    ∀ t, mergeProperties parent more = some t → ∀ e ∈ t, holds e := by
  cases more with
  | none => exact own
  | some properties =>
    rintro _ ⟨⟩
    refine List.foldlRecOn (motive := fun t : Table Schema => ∀ e ∈ t, holds e) properties _ ?_
      fun t joined entry member e found => ?_
    · cases parent with
      | none => simp
      | some t => exact own t rfl
    · rcases Table.mem_of_mem_putNew found with earlier | rfl
      · exact joined e earlier
      · exact added properties rfl entry member

theorem arranged_mergeMember {holds : Bool → Schema → Prop} {parent member : Schema}
    (own : parent.children.Arranged holds) (added : member.children.Arranged holds) :
    (mergeMember parent member).children.Arranged holds where
  items := forall_or_eq_some own.items added.items
  properties t h := by
    have joined := arranged_mergeProperties
      (fun e => holds (mergesAt ["properties", e.1]) e.2) own.properties added.properties
    exact joined t (by simpa [mergeMember, Schema.onto, Children.onto] using h)
  allOf := forall_or_eq_some own.allOf added.allOf
  oneOf := forall_or_eq_some own.oneOf added.oneOf
  anyOf := forall_or_eq_some own.anyOf added.anyOf

theorem eq_singleton_of_isSingleInline {parent : Schema} {members : List Schema}
    (single : isSingleInline parent members) : ∃ member, members = [member] := by
  rw [isSingleInline.eq_def] at single
  split at single
  · exact ⟨_, rfl⟩
  · cases single

/-- An only member stays unmerged for its own type and its own members, which the parent takes over. -/
theorem settled_mergeMember {parent member : Schema} (bare : parent.children.allOf = none)
    (single : isSingleInline parent [member]) (settled : Settled true member) :
    Settled merge (mergeMember parent member) := by
  intro members held
  have own : member.children.allOf = some members := by
    rw [← held]
    simp [mergeMember, Schema.onto, Children.onto, bare]
  obtain ⟨nonempty, busy, apart⟩ := settled members own
  refine ⟨nonempty, busy, ?_⟩
  simp only [isSingleInline, Bool.and_eq_true, Bool.or_eq_true, Option.isNone_iff_eq_none,
    beq_iff_eq] at single
  obtain ⟨⟨⟨parentInline, memberInline⟩, _⟩, type⟩ := single
  have sameReference : (mergeMember parent member).keywords.reference = member.keywords.reference := by
    simp [mergeMember, Schema.onto, Keywords.onto, parentInline]
  have sameType : (mergeMember parent member).keywords.type = member.keywords.type := by
    rcases type with none | same
    · simp [mergeMember, Schema.onto, Keywords.onto, none]
    · simp [mergeMember, Schema.onto, Keywords.onto, same]
  have sameSingle : isSingleInline (mergeMember parent member) members =
      isSingleInline member members := by
    unfold isSingleInline
    rw [sameReference, sameType]
  have open_of_open : isOpenObject (mergeMember parent member) → isOpenObject member := by
    simp only [isOpenObject, Schema.isUntypedOrObject, Schema.isObject, Schema.hasType, sameReference,
      sameType, Bool.and_eq_true]
    rintro ⟨⟨reference, items⟩, type⟩
    refine ⟨⟨reference, ?_⟩, type⟩
    have none : parent.children.items.or member.children.items = none :=
      Option.isNone_iff_eq_none.mp items
    rw [Option.or_eq_none_iff.mp none |>.2]
    rfl
  rw [isMerged, Bool.true_and, Bool.or_eq_false_iff, Bool.and_eq_false_iff] at apart
  rw [isMerged, sameSingle, apart.1, Bool.false_or]
  rcases apart.2 with closed | mixed
  · rw [Bool.eq_false_iff.mpr fun h => Bool.eq_false_iff.mp closed (open_of_open h), Bool.false_and,
      Bool.and_false]
  · rw [mixed, Bool.and_false, Bool.and_false]

theorem still_squashNode (below : s.children.Arranged Still) : Still merge (squashNode merge s) := by
  by_cases settled : Settled merge s
  · rw [settled.squashNode]
    exact still_iff.mpr ⟨settled, below⟩
  cases held : s.children.allOf with
  | none => exact absurd (fun members same => by simp [held] at same) settled
  | some list =>
    have flat : ∀ m ∈ list.flatMap splice, Still true m ∧ m.isIdle = false := by
      intro m spliced
      obtain ⟨member, listed, inside⟩ := List.mem_flatMap.mp spliced
      exact still_splice (below.allOf list held member listed) m inside
    have bare : Children.Arranged Still { s.children with allOf := none } :=
      { below with allOf := by simp }
    rw [squashNode_eq held]
    split
    · exact still_iff.mpr ⟨fun members same => (by simp at same), bare⟩
    · rename_i nonempty
      split
      · rename_i merged
        have arranged : ((list.flatMap splice).foldl mergeMember
            { s with children.allOf := none }).children.Arranged Still :=
          List.foldlRecOn (motive := fun s : Schema => s.children.Arranged Still) _ _ bare
            fun _ joined m listed => arranged_mergeMember joined (still_iff.mp (flat m listed).1).2
        refine still_iff.mpr ⟨?_, arranged⟩
        rw [isMerged, Bool.and_eq_true, Bool.or_eq_true, Bool.and_eq_true] at merged
        rcases merged.2 with single | ⟨_, inline⟩
        · obtain ⟨m, only⟩ := eq_singleton_of_isSingleInline single
          rw [only] at single flat ⊢
          exact settled_mergeMember rfl single (still_iff.mp (flat m (by simp)).1).1
        · -- No member has an `allOf`, so the node has none in the end.
          have none := List.foldlRecOn (motive := fun s : Schema => s.children.allOf = none)
            (list.flatMap splice) mergeMember (b := { s with children.allOf := none }) rfl
            fun joined gone m listed => by
              have own := List.all_eq_true.mp inline m listed
              simp only [Schema.isInlineObject, Bool.and_eq_true, Option.isNone_iff_eq_none] at own
              simp [mergeMember, Schema.onto, Children.onto, gone, own]
          exact fun members same => by simp [none] at same
      · rename_i apart
        refine still_iff.mpr ⟨?_, { bare with allOf := forall_eq_some fun m listed => (flat m listed).1 }⟩
        rintro _ ⟨⟩
        exact ⟨by simpa using nonempty, fun m listed => (flat m listed).2, Bool.eq_false_iff.mpr apart⟩

/-- What squashing leaves is settled. -/
theorem still_walk {levels : Nat} (p : Position) {s : Schema} (enough : s.levels ≤ levels) :
    Still (p.key? != some "items") (s.walk squasher levels p).run := by
  induction levels generalizing p s with
  | zero => exact absurd s.levels_pos (by omega)
  | succ levels ih =>
    obtain ⟨k, c⟩ := s
    rw [walk_succ]
    refine still_squashNode ((arranged_iff _ _).mpr ?_)
    dsimp only
    rw [Children.enteredPlaces_mapEntered, List.forall_mem_map]
    intro placed listed
    have lower := Schema.levels_lt_of_mem (k := k) (Schema.mem_toList_of_placed listed)
    rw [← mergesAt_child listed p k.xml]
    exact ih _ (by omega)

theorem still_iff_met (trail : List String) (s : Schema) :
    Still (trail.head? != some "items") s ↔
      ∀ node ∈ s.met trail, Settled (node.1.head? != some "items") node.2 := by
  induction s using Schema.children_induction generalizing trail with
  | step k c ih =>
    have below {placed : List String × Schema} (listed : placed ∈ c.enteredPlaces) :
        Still (mergesAt placed.1) placed.2 ↔
          ∀ node ∈ placed.2.met (placed.1.reverse ++ trail),
            Settled (node.1.head? != some "items") node.2 := by
      rw [← ih placed.2 (Schema.mem_toList_of_placed listed),
        List.head?_append_of_ne_nil _ (by simpa using ne_nil_of_placed listed), List.head?_reverse]
      rfl
    simp only [still_mk_iff, Schema.mem_met_mk]
    constructor
    · rintro ⟨settled, still⟩ node (rfl | ⟨placed, listed, inside⟩)
      · exact settled
      · exact (below listed).mp (still placed listed) node inside
    · intro all
      refine ⟨all _ (Or.inl rfl), fun placed listed => (below listed).mpr fun node inside => ?_⟩
      exact all node (Or.inr ⟨placed, listed, inside⟩)

/-- Every node that a walk through the definitions meets is settled. -/
def SquashFree (definitions : Definitions) : Prop :=
  ∀ node ∈ definitions.met, Settled (node.1.head? != some "items") node.2

theorem squashFree_iff (definitions : Definitions) :
    SquashFree definitions ↔ ∀ e ∈ definitions, Still true e.2 := by
  have root (s : Schema) := still_iff_met [] s
  simp only [SquashFree, Definitions.mem_met_iff, forall_exists_index, and_imp]
  constructor
  · exact fun free e listed => (root e.2).mpr fun node inside => free node e listed inside
  · exact fun still node e listed => (root e.2).mp (still e listed) node

/-- Squashing changes nothing exactly when every node is settled. -/
theorem run_eq_unreported_iff (d : Document) :
    run d = d.unreported ↔ SquashFree d.definitions := by
  have unfolded : run d = d.unreported ↔ d.definitions.change d.flavor squasher = d.definitions := by
    have run_eq : run d =
        Document.unreported { d with definitions := d.definitions.change d.flavor squasher } := rfl
    rw [run_eq]
    constructor
    · exact fun same => congrArg (fun out : Outcome => out.1.definitions) same
    · exact fun same => by rw [same]
  rw [unfolded, squashFree_iff, Definitions.change_eq_self_iff]
  refine forall₂_congr fun e listed => ⟨fun same => ?_, fun still => Still.walk e.2.levels still⟩
  by_contra moves
  have lost := weight_walk_lt (p := { flavor := d.flavor, definition := e.1 }) (Nat.le_refl _) moves
  rw [same] at lost
  exact Nat.lt_irrefl _ lost

theorem squashFree_run (d : Document) : SquashFree (run d).1.definitions := by
  rw [squashFree_iff]
  have changed : (run d).1.definitions = d.definitions.change d.flavor squasher := rfl
  rw [changed, Definitions.forall_mem_change_iff]
  exact fun e _ => still_walk { flavor := d.flavor, definition := e.1 } (Nat.le_refl _)

/-- A second run leaves the document as the first one has left it. -/
theorem squashed_twice (d : Document) : run (run d).1 = (run d).1.unreported :=
  (run_eq_unreported_iff (run d).1).mpr (squashFree_run d)

end Squash
end SchemaGraph
