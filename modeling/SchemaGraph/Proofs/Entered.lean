import Mathlib.Data.List.Indexes
import SchemaGraph.Proofs.Visits

/- Walks without effects as functions of the schema. A walk with levels enough changes every node that
   it enters, and one whose hooks see no more of the children than which there are can be taken apart
   node by node; two of them, one after the other, are one. -/
namespace SchemaGraph

namespace Children
variable {α β γ : Type}

/-- Changes the members of a composition by the segments that lead to them. -/
def mapMembers (f : List String → α → β) (keyword : String) (l : List α) : List β :=
  l.mapIdx fun i a => f [keyword, toString i] a

/-- Changes the children that a walk enters by the segments that lead to them. -/
def mapEntered (f : List String → α → α) (c : Children α) : Children α :=
  { c with
    properties := c.properties.map (List.map fun e => (e.1, f ["properties", e.1] e.2))
    items := c.items.map (f ["items"])
    allOf := c.allOf.map (mapMembers f "allOf")
    oneOf := c.oneOf.map (mapMembers f "oneOf")
    anyOf := c.anyOf.map (mapMembers f "anyOf") }

section
variable (visit : List String → α → Id β)

theorem walkMembers_run (keyword : String) (l : List α) :
    (walkMembers visit keyword 0 l).run =
      mapMembers (fun segments a => (visit segments a).run) keyword l := by
  refine List.ext_getElem? fun i => ?_
  rw [getElem?_walkMembers, Nat.zero_add, mapMembers, List.getElem?_mapIdx]

theorem walkProperties_run (t : Table α) :
    (walkProperties visit t).run =
      t.map fun e => (e.1, (visit ["properties", e.1] e.2).run) := by
  induction t with
  | nil => rfl
  | cons entry rest ih =>
    rw [List.map_cons, ← ih]
    rfl

end

theorem walk_run (visit : List String → α → Id α) (c : Children α) :
    (c.walk visit).run = c.mapEntered fun segments a => (visit segments a).run := by
  have properties := walkOption_run c.properties (walkProperties visit)
  have items := walkOption_run c.items (visit ["items"])
  have members (keyword : String) (list : Option (List α)) :=
    walkOption_run list (walkMembers visit keyword 0)
  simp only [walkProperties_run, walkMembers_run] at properties members
  rw [mapEntered, ← properties, ← items, ← members, ← members, ← members]
  rfl

theorem map_mapMembers (g : β → γ) (f : List String → α → β) (keyword : String) (l : List α) :
    (mapMembers f keyword l).map g = mapMembers (fun segments a => g (f segments a)) keyword l := by
  simp only [mapMembers, List.mapIdx_eq_zipIdx_map, List.map_map, Function.comp_def]

theorem mapMembers_map (g : List String → β → γ) (f : α → β) (keyword : String) (l : List α) :
    mapMembers g keyword (l.map f) = mapMembers (fun segments a => g segments (f a)) keyword l := by
  simp only [mapMembers, List.mapIdx_eq_zipIdx_map, List.zipIdx_map, List.map_map, Function.comp_def]
  rfl

theorem mapMembers_mapMembers (g : List String → β → γ) (f : List String → α → β)
    (keyword : String) (l : List α) :
    mapMembers g keyword (mapMembers f keyword l) =
      mapMembers (fun segments a => g segments (f segments a)) keyword l :=
  List.mapIdx_mapIdx

theorem mapEntered_mapEntered (g f : List String → α → α) (c : Children α) :
    (c.mapEntered f).mapEntered g = c.mapEntered fun segments a => g segments (f segments a) := by
  simp only [mapEntered, Option.map_map, Function.comp_def, List.map_map, mapMembers_mapMembers]

/-- The children beside what becomes of them, each changed by the latter. -/
theorem mapEntered_paired (f : α → β) (g : List String → β → α) (c : Children α) :
    ((c.map fun a => (a, f a)).mapEntered fun segments child =>
      (g segments child.2, child.2)).map Prod.fst =
      c.mapEntered fun segments a => g segments (f a) := by
  obtain ⟨not, items, properties, allOf, oneOf, anyOf, additional⟩ := c
  have skipped : (additional.map (Additional.map fun a => (a, f a))).map
      (Additional.map Prod.fst) = additional := by
    rcases additional with _ | _ | _ <;> rfl
  simp only [map, mapEntered, Option.map_map, Function.comp_def, mapMembers_map, map_mapMembers,
    Table.mapValues, List.map_map, skipped, Option.map_id']

theorem enteredPlaces_eq (c : Children α) : c.enteredPlaces =
    ((c.properties.getD []).map fun e => (["properties", e.1], e.2)) ++
      c.items.toList.map (["items"], ·) ++ mapMembers Prod.mk "allOf" (c.allOf.getD []) ++
      mapMembers Prod.mk "oneOf" (c.oneOf.getD []) ++ mapMembers Prod.mk "anyOf" (c.anyOf.getD []) := by
  simp only [enteredPlaces, Schema.placedChildren, entered, mapMembers, List.mapIdx_eq_zipIdx_map,
    Option.bind_none, Option.toList_none, List.map_nil, List.append_nil]

theorem enteredPlaces_mapEntered (f : List String → α → α) (c : Children α) :
    (c.mapEntered f).enteredPlaces =
      c.enteredPlaces.map fun placed => (placed.1, f placed.1 placed.2) := by
  have members (keyword : String) (list : Option (List α)) :
      mapMembers Prod.mk keyword ((list.map (mapMembers f keyword)).getD []) =
        (mapMembers Prod.mk keyword (list.getD [])).map
          fun placed => (placed.1, f placed.1 placed.2) := by
    cases list with
    | none => rfl
    | some l =>
      rw [Option.map_some, Option.getD_some, Option.getD_some, mapMembers_mapMembers, map_mapMembers]
  rw [enteredPlaces_eq, enteredPlaces_eq]
  simp only [mapEntered, members, List.map_append]
  congr 4
  · cases c.properties <;> simp
  · cases c.items <;> rfl

theorem mapMembers_eq_iff {f g : List String → α → β} (keyword : String) (l : List α) :
    mapMembers f keyword l = mapMembers g keyword l ↔
      ∀ placed ∈ mapMembers Prod.mk keyword l, f placed.1 placed.2 = g placed.1 placed.2 := by
  simp only [mapMembers, List.mapIdx_eq_zipIdx_map, List.map_inj_left, List.forall_mem_map]

/-- Two changes make the same of the children if they make the same of each. -/
theorem mapEntered_eq_iff {f g : List String → α → α} (c : Children α) :
    c.mapEntered f = c.mapEntered g ↔
      ∀ placed ∈ c.enteredPlaces, f placed.1 placed.2 = g placed.1 placed.2 := by
  have members (keyword : String) (list : Option (List α)) :
      list.map (mapMembers f keyword) = list.map (mapMembers g keyword) ↔
        ∀ placed ∈ mapMembers Prod.mk keyword (list.getD []),
          f placed.1 placed.2 = g placed.1 placed.2 := by
    cases list with
    | none => simp [mapMembers]
    | some l => simp [mapMembers_eq_iff]
  have properties : c.properties.map (List.map fun e => (e.1, f ["properties", e.1] e.2)) =
      c.properties.map (List.map fun e => (e.1, g ["properties", e.1] e.2)) ↔
        ∀ placed ∈ (c.properties.getD []).map fun e => (["properties", e.1], e.2),
          f placed.1 placed.2 = g placed.1 placed.2 := by
    cases c.properties with
    | none => simp
    | some t => simp only [Option.map_some, Option.some.injEq, List.map_inj_left, Prod.mk.injEq,
        true_and, Option.getD_some, List.forall_mem_map]
  have items : c.items.map (f ["items"]) = c.items.map (g ["items"]) ↔
      ∀ placed ∈ c.items.toList.map (["items"], ·), f placed.1 placed.2 = g placed.1 placed.2 := by
    cases c.items <;> simp
  rw [enteredPlaces_eq]
  simp only [List.forall_mem_append, ← members, ← properties, ← items, mapEntered,
    Children.mk.injEq, true_and, and_true]
  tauto

theorem mapMembers_same (keyword : String) : mapMembers (fun _ (a : α) => a) keyword = id := by
  funext l
  rw [mapMembers, List.mapIdx_eq_zipIdx_map]
  exact List.zipIdx_map_fst 0 l

theorem mapEntered_eq_self_iff {f : List String → α → α} (c : Children α) :
    c.mapEntered f = c ↔ ∀ placed ∈ c.enteredPlaces, f placed.1 placed.2 = placed.2 := by
  have itself : c.mapEntered (fun _ a => a) = c := by
    simp [mapEntered, mapMembers_same]
  have same := mapEntered_eq_iff (f := f) (g := fun _ a => a) c
  rwa [itself] at same

/-- A view that the change does not show in. -/
theorem map_mapEntered {f : List String → α → α} {g : α → β}
    (same : ∀ segments a, g (f segments a) = g a) (c : Children α) :
    (c.mapEntered f).map g = c.map g := by
  have members (keyword : String) : List.map g ∘ mapMembers f keyword = List.map g := by
    funext l
    have plain : mapMembers (fun _ a => g a) keyword l = l.map g := by
      rw [← map_mapMembers, mapMembers_same, id]
    simp only [Function.comp_apply, map_mapMembers, same, plain]
  simp only [map, mapEntered, Option.map_map, members]
  congr 1
  · simp only [Function.comp_def, same]
  · have table : (Table.mapValues g ∘ List.map fun e : String × α => (e.1, f ["properties", e.1] e.2)) =
        Table.mapValues g := by
      funext t
      simp only [Function.comp_apply, Table.mapValues, List.map_map, Function.comp_def, same]
    rw [table]

theorem enteredPlaces_map (f : α → β) (c : Children α) :
    (c.map f).enteredPlaces = c.enteredPlaces.map fun placed => (placed.1, f placed.2) :=
  Schema.placedChildren_map f c.entered

end Children

namespace Schema

/-- One step of a walk whose hooks have no effects. -/
theorem walk_succ (v : Visitor Id) (levels : Nat) (p : Position) (s : Schema) :
    (s.walk v (levels + 1) p).run =
      (v.after p { (v.before p s).run with
        children := (v.before p s).run.children.mapEntered fun segments child =>
          (child.walk v levels (p.child (v.before p s).run.keywords.xml segments)).run }).run := by
  rw [← Children.walk_run]
  rfl

/-- The nodes that a walk meets, with the segments back from each to the root; the node itself
comes first. -/
def met : Schema → List String → List (List String × Schema) :=
  para fun k c trail => (trail, ⟨k, c.map Prod.fst⟩) ::
    c.enteredPlaces.flatMap fun placed => placed.2.2 (placed.1.reverse ++ trail)

theorem met_mk (k : Keywords) (c : Children Schema) (trail : List String) :
    met ⟨k, c⟩ trail = (trail, ⟨k, c⟩) ::
      c.enteredPlaces.flatMap fun placed => placed.2.met (placed.1.reverse ++ trail) := by
  rw [met, para_mk, Children.enteredPlaces_map, List.flatMap_map, Children.map_map]
  exact congrArg (fun c' : Children Schema => (trail, (⟨k, c'⟩ : Schema)) :: _) c.map_id

theorem mem_met_mk {k : Keywords} {c : Children Schema} {trail : List String}
    {node : List String × Schema} : node ∈ met ⟨k, c⟩ trail ↔ node = (trail, ⟨k, c⟩) ∨
      ∃ placed ∈ c.enteredPlaces, node ∈ placed.2.met (placed.1.reverse ++ trail) := by
  rw [met_mk, List.mem_cons, List.mem_flatMap]

theorem mem_toList_iff_placed {c : Children Schema} (s : Schema) :
    s ∈ c.toList ↔ (∃ placed ∈ c.enteredPlaces, placed.2 = s) ∨ s ∈ c.skipped := by
  rw [c.mem_toList_iff, ← mem_placedChildren_iff c.entered]
  simp

theorem mem_toList_of_placed {c : Children Schema} {placed : List String × Schema}
    (member : placed ∈ c.enteredPlaces) : placed.2 ∈ c.toList :=
  (mem_toList_iff_placed _).mpr (Or.inl ⟨placed, member, rfl⟩)

theorem forall_placed_iff {holds : Schema → Prop} {c : Children Schema} :
    (∀ placed ∈ c.enteredPlaces, holds placed.2) ↔ c.entered.Each holds := by
  rw [Children.each_iff]
  constructor
  · intro all s listed
    obtain ⟨segments, member⟩ := (mem_placedChildren_iff c.entered s).mpr listed
    exact all _ member
  · exact fun all placed member =>
      all placed.2 ((mem_placedChildren_iff c.entered placed.2).mp ⟨placed.1, member⟩)

/-- The keywords of all nodes that a walk meets satisfy the predicate. -/
def EveryMet (holds : Keywords → Prop) (s : Schema) : Prop := ∀ node ∈ s.met [], holds node.2.keywords

theorem met_trail (trail : List String) (s : Schema) :
    s.met trail = (s.met []).map fun node => (node.1 ++ trail, node.2) := by
  induction s using children_induction generalizing trail with
  | step k c ih =>
    rw [met_mk, met_mk, List.map_cons, List.map_flatMap]
    refine congrArg _ (List.flatMap_congr fun placed listed => ?_)
    have below := ih placed.2 (mem_toList_of_placed listed)
    rw [below, below (placed.1.reverse ++ []), List.map_map]
    simp only [Function.comp_def, List.append_nil, List.append_assoc]

theorem mem_met_self (s : Schema) (trail : List String) : (trail, s) ∈ s.met trail := by
  obtain ⟨k, c⟩ := s
  exact mem_met_mk.mpr (Or.inl rfl)

theorem forall_met_mk_iff (holds : Schema → Prop) (k : Keywords) (c : Children Schema) :
    (∀ node ∈ met ⟨k, c⟩ [], holds node.2) ↔
      holds ⟨k, c⟩ ∧ c.entered.Each fun s => ∀ node ∈ s.met [], holds node.2 := by
  have below (placed : List String × Schema) : (∀ node ∈ placed.2.met [], holds node.2) ↔
      ∀ node ∈ placed.2.met (placed.1.reverse ++ []), holds node.2 := by
    rw [met_trail (placed.1.reverse ++ []), List.forall_mem_map]
  rw [← forall_placed_iff]
  constructor
  · intro all
    refine ⟨all _ (mem_met_mk.mpr (Or.inl rfl)), fun placed listed => (below placed).mpr ?_⟩
    exact fun node inside => all node (mem_met_mk.mpr (Or.inr ⟨placed, listed, inside⟩))
  · rintro ⟨own, every⟩ node met
    rcases mem_met_mk.mp met with rfl | ⟨placed, listed, inside⟩
    · exact own
    · exact (below placed).mp (every placed listed) node inside

/-- What holds of a node and of the children that a walk enters holds of the nodes that it meets. -/
theorem iff_forall_met {q : Schema → Prop} (own : Schema → Prop)
    (mk_iff : ∀ k c, q ⟨k, c⟩ ↔ own ⟨k, c⟩ ∧ c.entered.Each q) (s : Schema) :
    q s ↔ ∀ node ∈ s.met [], own node.2 := by
  induction s using children_induction with
  | step k c ih =>
    rw [mk_iff, forall_met_mk_iff own, Children.each_iff, Children.each_iff]
    exact and_congr_right fun _ => forall₂_congr fun child entered =>
      ih child ((c.mem_toList_iff child).mpr (Or.inl entered))

theorem everyMet_mk_iff {holds : Keywords → Prop} (k : Keywords) (c : Children Schema) :
    EveryMet holds ⟨k, c⟩ ↔ holds k ∧ c.entered.Each (EveryMet holds) :=
  forall_met_mk_iff (fun s => holds s.keywords) k c

theorem EveryMet.onto {holds : Keywords → Prop} {top base : Schema} (onTop : top.EveryMet holds)
    (below : base.EveryMet holds) (own : holds (top.keywords.onto base.keywords)) :
    (top.onto base).EveryMet holds := by
  obtain ⟨k, c⟩ := top
  obtain ⟨k', c'⟩ := base
  exact (everyMet_mk_iff _ _).mpr
    ⟨own, ((everyMet_mk_iff k c).mp onTop).2.onto ((everyMet_mk_iff k' c').mp below).2⟩

/-- What lies below every child lies below the node. -/
theorem levels_le_of_forall {k : Keywords} {c : Children Schema} {n : Nat}
    (below : ∀ child ∈ c.toList, child.levels ≤ n) : levels ⟨k, c⟩ ≤ n + 1 := by
  have most (l : List Nat) (start : Nat) (first : start ≤ n) (others : ∀ m ∈ l, m ≤ n) :
      l.foldl max start ≤ n := by
    induction l generalizing start with
    | nil => exact first
    | cons m rest ih =>
      obtain ⟨here, later⟩ := List.forall_mem_cons.mp others
      exact ih _ (Nat.max_le.mpr ⟨first, here⟩) later
  rw [levels, fold_mk, Nat.add_comm]
  refine Nat.add_le_add_right (most _ 0 (Nat.zero_le n) fun m listed => ?_) 1
  have member : m ∈ (c.map levels).toList := by
    rw [levels]
    simp only [Children.toList, List.mem_append] at listed ⊢
    tauto
  rw [Children.toList_map] at member
  obtain ⟨child, inside, rfl⟩ := List.mem_map.mp member
  exact below child inside

/-- Levels that are never reached make no difference. -/
theorem walk_eq_of_levels {v : Visitor Id} (keeps : ∀ p s, (v.before p s).run.children = s.children)
    {m n : Nat} (p : Position) {s : Schema} (enough : s.levels ≤ m) (more : s.levels ≤ n) :
    (s.walk v m p).run = (s.walk v n p).run := by
  induction m generalizing n p s with
  | zero => exact absurd s.levels_pos (by omega)
  | succ m ih =>
    cases n with
    | zero => exact absurd s.levels_pos (by omega)
    | succ n =>
      obtain ⟨k, c⟩ := s
      rw [walk_succ, walk_succ, keeps]
      have below : c.mapEntered (fun segments child =>
            (child.walk v m (p.child (v.before p ⟨k, c⟩).run.keywords.xml segments)).run) =
          c.mapEntered fun segments child =>
            (child.walk v n (p.child (v.before p ⟨k, c⟩).run.keywords.xml segments)).run := by
        refine (Children.mapEntered_eq_iff c).mpr fun placed member => ?_
        have lower := levels_lt_of_mem (k := k) (mem_toList_of_placed member)
        exact ih _ (by omega) (by omega)
      rw [below]

end Schema

/-- The hook sees no more of the children than which there are, and keeps them. -/
structure Shallow (hook : Position → Schema → Schema) : Prop where
  natural : ∀ p k (c : Children Schema) (f : List String → Schema → Schema),
    hook p ⟨k, c.mapEntered f⟩ =
      ⟨(hook p ⟨k, c⟩).keywords, (hook p ⟨k, c⟩).children.mapEntered f⟩
  places : ∀ p s, (hook p s).children.enteredPlaces = s.children.enteredPlaces
  skipped : ∀ p s, (hook p s).children.skipped = s.children.skipped

namespace Visitor

/-- Both hooks are shallow, and the one that comes before the children changes keywords only. -/
structure Shallow (v : Visitor Id) : Prop where
  keywords : ∀ p k (c : Children Schema) (f : List String → Schema → Schema),
    (v.before p ⟨k, c.mapEntered f⟩).run.keywords = (v.before p ⟨k, c⟩).run.keywords
  keeps : ∀ p s, (v.before p s).run.children = s.children
  after : SchemaGraph.Shallow fun p s => (v.after p s).run

/-- What a visitor makes of a node itself. -/
def turn (v : Visitor Id) (p : Position) (s : Schema) : Schema := (v.after p (v.before p s)).run

/-- The visitor with one more change after the nodes below. -/
def andThen (v : Visitor Id) (hook : Position → Schema → Schema) : Visitor Id :=
  ⟨v.before, fun p s => hook p (v.after p s).run⟩

variable {v : Visitor Id}

theorem Shallow.before_eq (h : v.Shallow) (p : Position) (s : Schema) :
    (v.before p s).run = ⟨(v.before p s).run.keywords, s.children⟩ := by
  have same := h.keeps p s
  generalize (v.before p s).run = entered at same ⊢
  obtain ⟨k, c⟩ := entered
  exact congrArg (Schema.mk k) same

theorem Shallow.turn (h : v.Shallow) : SchemaGraph.Shallow v.turn where
  natural p k c f := by
    have before : (v.before p ⟨k, c.mapEntered f⟩).run =
        ⟨(v.before p ⟨k, c⟩).run.keywords, c.mapEntered f⟩ := by
      rw [h.before_eq, h.keywords]
    refine (congrArg (fun s : Schema => (v.after p s).run) before).trans ?_
    refine (h.after.natural p _ c f).trans ?_
    rw [← h.before_eq p ⟨k, c⟩]
    rfl
  places p s := (h.after.places p _).trans (congrArg Children.enteredPlaces (h.keeps p s))
  skipped p s := (h.after.skipped p _).trans (congrArg Children.skipped (h.keeps p s))

/-- The walk of shallow hooks turns the node and walks the children. -/
theorem Shallow.walk_succ (h : v.Shallow) (levels : Nat) (p : Position) (s : Schema) :
    (s.walk v (levels + 1) p).run = {
      keywords := (v.turn p s).keywords
      children := (v.turn p s).children.mapEntered fun segments child =>
        (child.walk v levels (p.child (v.before p s).run.keywords.xml segments)).run } := by
  rw [Schema.walk_succ, h.keeps]
  refine (h.after.natural p _ s.children _).trans ?_
  rw [← h.before_eq]
  rfl

/-- The children that are left are the walked ones. -/
theorem Shallow.enteredPlaces_walk (h : v.Shallow) (levels : Nat) (p : Position) (s : Schema) :
    (s.walk v (levels + 1) p).run.children.enteredPlaces =
      s.children.enteredPlaces.map fun placed => (placed.1,
        (placed.2.walk v levels (p.child (v.before p s).run.keywords.xml placed.1)).run) := by
  rw [h.walk_succ, Children.enteredPlaces_mapEntered, h.turn.places]

theorem Shallow.levels_walk (h : v.Shallow) (levels : Nat) (p : Position) (s : Schema) :
    (s.walk v levels p).run.levels ≤ s.levels := by
  induction levels generalizing p s with
  | zero => exact Nat.le_refl _
  | succ levels ih =>
    obtain ⟨k, c⟩ := s
    have positive := Schema.levels_pos ⟨k, c⟩
    have places := h.enteredPlaces_walk levels p ⟨k, c⟩
    rw [h.walk_succ] at places ⊢
    rw [← Nat.sub_add_cancel positive]
    refine Schema.levels_le_of_forall fun child member => Nat.le_sub_one_of_lt ?_
    rcases (Schema.mem_toList_iff_placed child).mp member with ⟨placed, listed, rfl⟩ | passed
    · rw [places] at listed
      obtain ⟨original, found, rfl⟩ := List.mem_map.mp listed
      exact Nat.lt_of_le_of_lt (ih _ _)
        (Schema.levels_lt_of_mem (Schema.mem_toList_of_placed found))
    · have passed : child ∈ c.skipped := h.turn.skipped p ⟨k, c⟩ ▸ passed
      exact Schema.levels_lt_of_mem ((Schema.mem_toList_iff_placed child).mpr (Or.inr passed))

/-- Every node that is met afterwards is a node that was met before, turned. -/
theorem Shallow.exists_of_mem_met_walk (h : v.Shallow) {levels : Nat} {p : Position} {s : Schema}
    (enough : s.levels ≤ levels) {node : List String × Schema}
    (met : node ∈ (s.walk v levels p).run.met p.trail) :
    ∃ before ∈ s.met p.trail, before.1 = node.1 ∧ ∃ q f, q.trail = node.1 ∧ node.2 =
      ⟨(v.turn q before.2).keywords, (v.turn q before.2).children.mapEntered f⟩ := by
  induction levels generalizing p s with
  | zero => exact absurd s.levels_pos (by omega)
  | succ levels ih =>
    obtain ⟨k, c⟩ := s
    have places := h.enteredPlaces_walk levels p ⟨k, c⟩
    rw [h.walk_succ] at met places
    rcases Schema.mem_met_mk.mp met with rfl | ⟨placed, listed, inside⟩
    · exact ⟨(p.trail, ⟨k, c⟩), Schema.mem_met_mk.mpr (Or.inl rfl), rfl, p, _, rfl, rfl⟩
    · rw [places] at listed
      obtain ⟨original, found, rfl⟩ := List.mem_map.mp listed
      have lower : original.2.levels < Schema.levels ⟨k, c⟩ :=
        Schema.levels_lt_of_mem (Schema.mem_toList_of_placed found)
      obtain ⟨before, stood, turned⟩ := ih (by omega) inside
      exact ⟨before, Schema.mem_met_mk.mpr (Or.inr ⟨original, found, stood⟩), turned⟩

/-- A walk over what a walk left changes nothing exactly when it does not turn the node again and
changes nothing of what was left of the children. -/
theorem Shallow.walk_again_iff (h : v.Shallow) (levels : Nat) {p q : Position} {s : Schema}
    (children : (v.turn q (v.turn p s)).children = (v.turn p s).children) :
    ((s.walk v (levels + 1) p).run.walk v (levels + 1) q).run = (s.walk v (levels + 1) p).run ↔
      v.turn q (v.turn p s) = v.turn p s ∧ ∀ placed ∈ s.children.enteredPlaces,
        ((placed.2.walk v levels (p.child (v.before p s).run.keywords.xml placed.1)).run.walk v levels
          (q.child (v.before q (s.walk v (levels + 1) p).run).run.keywords.xml placed.1)).run =
        (placed.2.walk v levels (p.child (v.before p s).run.keywords.xml placed.1)).run := by
  rw [h.walk_succ levels q, h.walk_succ levels p s, ← h.turn.places p s]
  generalize v.turn p s = turned at children ⊢
  obtain ⟨k, c⟩ := turned
  rw [h.turn.natural q k c]
  dsimp only
  rw [children, Children.mapEntered_mapEntered, Schema.mk.injEq, Children.mapEntered_eq_iff]
  refine and_congr_left fun _ => ⟨fun same => ?_, fun same => congrArg Schema.keywords same⟩
  generalize v.turn q ⟨k, c⟩ = again at same children ⊢
  obtain ⟨_, _⟩ := again
  exact congrArg₂ Schema.mk same children

section
variable {hook : Position → Schema → Schema}
  (stays : ∀ p q s, p.trail = q.trail → hook p s = hook q s)
include stays

/-- A second walk whose hook sees no more of the position than the way to the node is a further
change after the nodes below. -/
theorem Shallow.walk_walk (h : v.Shallow) (levels : Nat) {p q : Position} (same : p.trail = q.trail)
    (s : Schema) :
    ((s.walk v levels p).run.walk ⟨fun _ s => s, hook⟩ levels q : Id Schema).run =
      (s.walk (v.andThen hook) levels p).run := by
  induction levels generalizing p q s with
  | zero => rfl
  | succ levels ih =>
    let visit (segments : List String) (child : Schema) : Schema :=
      (child.walk v levels (p.child (v.before p s).run.keywords.xml segments)).run
    have unfolded : (s.walk (v.andThen hook) (levels + 1) p).run =
        hook p (v.after p { (v.before p s).run with
          children := (v.before p s).run.children.mapEntered fun segments child =>
            (child.walk (v.andThen hook) levels
              (p.child (v.before p s).run.keywords.xml segments)).run }) :=
      Schema.walk_succ (v.andThen hook) levels p s
    rw [unfolded, h.walk_succ, Schema.walk_succ]
    change hook q ⟨(v.turn p s).keywords, ((v.turn p s).children.mapEntered visit).mapEntered
      fun segments child => (child.walk ⟨fun _ s => s, hook⟩ levels
        (q.child (v.turn p s).keywords.xml segments) : Id Schema).run⟩ = _
    rw [Children.mapEntered_mapEntered, stays q p _ same.symm]
    have once := h.after.natural p (v.before p s).run.keywords s.children fun segments child =>
      (child.walk (v.andThen hook) levels (p.child (v.before p s).run.keywords.xml segments)).run
    rw [h.keeps]
    refine congrArg (hook p) (Eq.trans ?_ once.symm)
    rw [← h.before_eq]
    refine congrArg (Schema.mk (v.turn p s).keywords) ((Children.mapEntered_eq_iff _).mpr ?_)
    intro placed _
    exact ih (congrArg (placed.1.reverse ++ ·) same) placed.2

/-- Two walks through the definitions, of which the second has no hook before the children. -/
theorem Shallow.change_change (h : v.Shallow) (flavor : Flavor) (definitions : Definitions) :
    (definitions.change flavor v).change flavor ⟨fun _ s => s, hook⟩ =
      definitions.change flavor (v.andThen hook) := by
  rw [Definitions.change, Definitions.change, Definitions.change, List.map_map]
  refine List.map_congr_left fun e _ => congrArg (Prod.mk e.1) ?_
  have enough := h.levels_walk e.2.levels { flavor, definition := e.1 } e.2
  refine Eq.trans ?_ (h.walk_walk stays e.2.levels rfl e.2)
  exact Schema.walk_eq_of_levels (fun _ _ => rfl) _ (Nat.le_refl _) enough

end

theorem Shallow.andThen (h : v.Shallow) {hook : Position → Schema → Schema}
    (next : SchemaGraph.Shallow hook) : (v.andThen hook).Shallow where
  keywords := h.keywords
  keeps := h.keeps
  after := {
    natural := fun p k c f => by
      have first := h.after.natural p k c f
      change hook p (v.after p ⟨k, c.mapEntered f⟩).run =
        ⟨(hook p (v.after p ⟨k, c⟩).run).keywords,
          (hook p (v.after p ⟨k, c⟩).run).children.mapEntered f⟩
      rw [first]
      generalize (v.after p ⟨k, c⟩).run = changed
      obtain ⟨keywords, children⟩ := changed
      exact next.natural p keywords children f
    places := fun p s => (next.places p _).trans (h.after.places p s)
    skipped := fun p s => (next.skipped p _).trans (h.after.skipped p s) }

end Visitor

/-- The nodes that a walk through the definitions meets, with the segments back from each to its
definition. -/
def Definitions.met (definitions : Definitions) : List (List String × Schema) :=
  definitions.flatMap fun e => e.2.met []

namespace Definitions
variable {definitions : Definitions} {node : List String × Schema}

theorem forall_mem_change_iff (flavor : Flavor) (v : Visitor Id)
    {holds : String × Schema → Prop} : (∀ e ∈ definitions.change flavor v, holds e) ↔
      ∀ e ∈ definitions,
        holds (e.1, (e.2.walk v e.2.levels { flavor, definition := e.1 }).run) :=
  List.forall_mem_map

theorem change_eq_self_iff (flavor : Flavor) (v : Visitor Id) (definitions : Definitions) :
    definitions.change flavor v = definitions ↔ ∀ e ∈ definitions,
      (e.2.walk v e.2.levels { flavor, definition := e.1 }).run = e.2 := by
  refine Iff.trans ?_ (forall₂_congr fun e _ => ⟨congrArg Prod.snd, congrArg (Prod.mk e.1)⟩)
  refine Iff.trans ?_ List.map_inj_left
  rw [List.map_id']
  rfl

theorem mem_met_iff : node ∈ definitions.met ↔ ∃ e ∈ definitions, node ∈ e.2.met [] :=
  List.mem_flatMap

theorem mem_met_change_iff (flavor : Flavor) (v : Visitor Id) :
    node ∈ (definitions.change flavor v).met ↔ ∃ e ∈ definitions,
      node ∈ Schema.met (e.2.walk v e.2.levels { flavor, definition := e.1 }).run [] := by
  rw [mem_met_iff, change]
  simp only [List.mem_map]
  constructor
  · rintro ⟨_, ⟨e, listed, rfl⟩, inside⟩
    exact ⟨e, listed, inside⟩
  · rintro ⟨e, listed, inside⟩
    exact ⟨_, ⟨e, listed, rfl⟩, inside⟩

/-- Every node that is met after a walk was met before it and is turned. -/
theorem exists_of_mem_met_change {flavor : Flavor} {v : Visitor Id} (h : v.Shallow)
    (met : node ∈ (definitions.change flavor v).met) : ∃ before ∈ definitions.met,
      before.1 = node.1 ∧ ∃ q f, q.trail = node.1 ∧ node.2 =
        ⟨(v.turn q before.2).keywords, (v.turn q before.2).children.mapEntered f⟩ := by
  obtain ⟨e, listed, inside⟩ := (mem_met_change_iff flavor v).mp met
  obtain ⟨before, stood, turned⟩ :=
    h.exists_of_mem_met_walk (p := { flavor, definition := e.1 }) (Nat.le_refl _) inside
  exact ⟨before, mem_met_iff.mpr ⟨e, listed, stood⟩, turned⟩

theorem forall_met_iff (holds : Schema → Prop) :
    (∀ node ∈ definitions.met, holds node.2) ↔
      ∀ e ∈ definitions, ∀ node ∈ e.2.met [], holds node.2 := by
  simp only [mem_met_iff, forall_exists_index, and_imp]
  constructor
  · exact fun every e listed node => every node e listed
  · exact fun every node e listed => every e listed node

theorem everyMet_iff {holds : Keywords → Prop} :
    (∀ e ∈ definitions, e.2.EveryMet holds) ↔ ∀ node ∈ definitions.met, holds node.2.keywords :=
  (forall_met_iff fun s => holds s.keywords).symm

end Definitions

end SchemaGraph
