import SchemaGraph.Pass.Basic
import SchemaGraph.Proofs.Keyed
import SchemaGraph.Proofs.Places

/- What a walk meets. A visitor that notes every node and changes only keywords leaves behind the
   notes of all entered places, in the order of the walk, and changes the schemas as if it had noted
   nothing. -/
namespace SchemaGraph

/-- The computation gives `a` whatever the state is, and takes the notes into the state in turn. -/
def Runs {σ β α : Type} (take : σ → β → σ) (notes : List β) (x : ExceptT Error (StateM σ) α)
    (a : α) : Prop :=
  ∀ s, x.run.run s = (.ok a, notes.foldl take s)

namespace Runs
variable {σ β : Type} {take : σ → β → σ} {α γ : Type}

theorem pure (a : α) : Runs take [] (Pure.pure a) a := fun _ => rfl

theorem bind {notes more : List β} {x : ExceptT Error (StateM σ) α} {a : α}
    {f : α → ExceptT Error (StateM σ) γ} {b : γ} (first : Runs take notes x a)
    (next : Runs take more (f a) b) : Runs take (notes ++ more) (x >>= f) b := by
  intro s
  rw [ExceptT.run_bind, StateT.run_bind, first s, List.foldl_append]
  exact next (notes.foldl take s)

theorem map {notes : List β} {x : ExceptT Error (StateM σ) α} {a : α} (h : Runs take notes x a)
    (g : α → γ) : Runs take notes (x >>= fun a => Pure.pure (g a)) (g a) := by
  have ran := h.bind (f := fun a => Pure.pure (g a)) (pure (g a))
  rwa [List.append_nil] at ran

variable {notes : List String → α → List β} {visit : List String → α → ExceptT Error (StateM σ) γ}
  {f : List String → α → Id γ} (each : ∀ segments a, Runs take (notes segments a)
    (visit segments a) (f segments a).run)
include each

theorem walkOption (segments : List String) (o : Option α) :
    Runs take (o.toList.flatMap (notes segments)) (SchemaGraph.walkOption (visit segments) o)
      (SchemaGraph.walkOption (f segments) o).run := by
  cases o with
  | none => exact pure none
  | some a =>
    rw [Option.toList_some, List.flatMap_singleton]
    exact (each segments a).map some

theorem walkMembers (keyword : String) (start : Nat) (l : List α) :
    Runs take ((l.zipIdx start).flatMap fun entry => notes [keyword, toString entry.2] entry.1)
      (SchemaGraph.walkMembers visit keyword start l)
      (SchemaGraph.walkMembers f keyword start l).run := by
  induction l generalizing start with
  | nil => exact pure []
  | cons a rest ih =>
    exact (each [keyword, toString start] a).bind (f := fun b => do
      return b :: (← SchemaGraph.walkMembers visit keyword (start + 1) rest))
      ((ih (start + 1)).map _)

theorem walkProperties (table : Table α) :
    Runs take (table.flatMap fun entry => notes ["properties", entry.1] entry.2)
      (SchemaGraph.walkProperties visit table) (SchemaGraph.walkProperties f table).run := by
  induction table with
  | nil => exact pure []
  | cons entry rest ih =>
    exact (each ["properties", entry.1] entry.2).bind (f := fun b => do
      return (entry.1, b) :: (← SchemaGraph.walkProperties visit rest)) (ih.map _)

theorem walkMembers? (keyword : String) (list : Option (List α)) :
    Runs take ((list.getD []).zipIdx.flatMap fun entry => notes [keyword, toString entry.2] entry.1)
      (SchemaGraph.walkOption (SchemaGraph.walkMembers visit keyword 0) list)
      (SchemaGraph.walkOption (SchemaGraph.walkMembers f keyword 0) list).run := by
  cases list with
  | none => exact pure none
  | some l => exact (walkMembers each keyword 0 l).map some

theorem walkProperties? (table : Option (Table α)) :
    Runs take ((table.getD []).flatMap fun entry => notes ["properties", entry.1] entry.2)
      (SchemaGraph.walkOption (SchemaGraph.walkProperties visit) table)
      (SchemaGraph.walkOption (SchemaGraph.walkProperties f) table).run := by
  cases table with
  | none => exact pure none
  | some t => exact (walkProperties each t).map some

end Runs

/-- The children that a walk enters with the segments that lead to them, in order. -/
abbrev Children.enteredPlaces {α : Type} (c : Children α) : List (List String × α) :=
  Schema.placedChildren c.entered

theorem Runs.walkChildren {σ β α : Type} {take : σ → β → σ} {notes : List String → α → List β}
    {visit : List String → α → ExceptT Error (StateM σ) α} {f : List String → α → Id α}
    (each : ∀ segments a, Runs take (notes segments a) (visit segments a) (f segments a).run)
    (c : Children α) :
    Runs take (c.enteredPlaces.flatMap fun placed => notes placed.1 placed.2) (c.walk visit)
      (c.walk f).run := by
  have listed : c.enteredPlaces.flatMap (fun placed => notes placed.1 placed.2) =
      ((c.properties.getD []).flatMap fun entry => notes ["properties", entry.1] entry.2) ++
        (c.items.toList.flatMap (notes ["items"]) ++
        (((c.allOf.getD []).zipIdx.flatMap fun entry => notes ["allOf", toString entry.2] entry.1) ++
        (((c.oneOf.getD []).zipIdx.flatMap fun entry => notes ["oneOf", toString entry.2] entry.1) ++
        ((c.anyOf.getD []).zipIdx.flatMap fun entry =>
          notes ["anyOf", toString entry.2] entry.1)))) := by
    simp [Children.enteredPlaces, Schema.placedChildren, Children.entered, List.flatMap_map]
  have ran : Runs take (c.enteredPlaces.flatMap fun placed => notes placed.1 placed.2)
      (c.walk visit) { c with
        properties := (SchemaGraph.walkOption (SchemaGraph.walkProperties f) c.properties).run
        items := (SchemaGraph.walkOption (f ["items"]) c.items).run
        allOf := (SchemaGraph.walkOption (SchemaGraph.walkMembers f "allOf" 0) c.allOf).run
        oneOf := (SchemaGraph.walkOption (SchemaGraph.walkMembers f "oneOf" 0) c.oneOf).run
        anyOf := (SchemaGraph.walkOption (SchemaGraph.walkMembers f "anyOf" 0) c.anyOf).run } := by
    rw [listed, Children.walk]
    refine (Runs.walkProperties? each c.properties).bind ?_
    refine (Runs.walkOption each ["items"] c.items).bind ?_
    refine (Runs.walkMembers? each "allOf" c.allOf).bind ?_
    refine (Runs.walkMembers? each "oneOf" c.oneOf).bind ?_
    exact (Runs.walkMembers? each "anyOf" c.anyOf).map _
  exact ran

/-- A node as a walk meets it. -/
structure Visit where
  definition : String
  /-- The segments back from the node to the definition. -/
  trail : List String
  keywords : Keywords

/-- The visits of a walk with as many levels: the nodes below first. -/
def Schema.visits (definition : String) : Nat → List String → Schema → List Visit
  | 0, _, _ => []
  | levels + 1, trail, s =>
    s.children.enteredPlaces.flatMap (fun placed =>
      Schema.visits definition levels (placed.1.reverse ++ trail) placed.2) ++
      [⟨definition, trail, s.keywords⟩]

theorem Schema.mem_nodes_of_mem_visits {definition : String} {levels : Nat} {trail : List String}
    {s : Schema} {v : Visit} (visited : v ∈ s.visits definition levels trail) :
    v.keywords ∈ s.nodes := by
  induction levels generalizing trail s with
  | zero => simp [visits] at visited
  | succ levels ih =>
    obtain ⟨k, c⟩ := s
    rw [visits, List.mem_append, List.mem_flatMap, List.mem_singleton] at visited
    rcases visited with ⟨⟨segments, child⟩, placed, visited⟩ | rfl
    · have member := (mem_placedChildren_iff c.entered child).mp ⟨segments, placed⟩
      exact mem_nodes_mk.mpr (Or.inr ⟨child, (c.mem_toList_iff child).mpr (Or.inl member),
        ih visited⟩)
    · exact mem_nodes_mk.mpr (Or.inl rfl)

def Definitions.visits (definitions : Definitions) : List Visit :=
  definitions.flatMap fun entry => entry.2.visits entry.1 entry.2.levels []

section
variable {σ : Type} {take : σ → Visit → σ} {f : String → List String → Keywords → Keywords}
  {hook : Position → Schema → ExceptT Error (StateM σ) Schema}
  (noted : ∀ p s, Runs take [⟨p.definition, p.trail, s.keywords⟩] (hook p s)
    { s with keywords := f p.definition p.trail s.keywords })
include noted

theorem Schema.walk_runs (levels : Nat) (p : Position) (s : Schema) :
    Runs take (s.visits p.definition levels p.trail) (s.walk (.ofAfter hook) levels p)
      (s.walk (.rekey f) levels p).run := by
  induction levels generalizing p s with
  | zero => exact Runs.pure s
  | succ levels ih =>
    have below := Runs.walkChildren (f := fun segments child =>
      child.walk (.rekey f) levels (p.child s.keywords.xml segments))
      (fun segments child => ih (p.child s.keywords.xml segments) child) s.children
    rw [Schema.walk]
    have entered : Runs take [] (Pure.pure s) s := Runs.pure s
    refine entered.bind (below.bind ?_)
    exact noted p _

theorem Definitions.walkFrom_run (flavor : Flavor) (finished rest : Definitions) (s : σ) :
    (Definitions.walkFrom flavor 0 (fun _ => .ofAfter hook) finished rest).run s =
      ((finished ++ rest.change flavor (.rekey f), .ok ()), rest.visits.foldl take s) := by
  induction rest generalizing finished s with
  | nil => rw [walkFrom, change, List.map_nil, List.append_nil]; rfl
  | cons entry rest ih =>
    obtain ⟨name, root⟩ := entry
    have ran := Schema.walk_runs noted root.levels { flavor, definition := name } root s
    rw [walkFrom, Nat.add_zero, StateT.run_bind, ran]
    refine (ih _ _).trans ?_
    rw [List.append_assoc]
    simp only [change, Definitions.visits, List.flatMap_cons, List.foldl_append]
    rfl

end

theorem mem_placedMembers_iff {α : Type} (keyword : String) (list : Option (List α))
    (segments : List String) (a : α) :
    (segments, a) ∈ (list.getD []).zipIdx.map (fun (value, i) => ([keyword, toString i], value)) ↔
      ∃ i : Nat, list.bind (·[i]?) = some a ∧ [keyword, toString i] = segments := by
  simp only [List.mem_map, Prod.exists, Prod.mk.injEq, List.mem_zipIdx_iff_getElem?]
  cases list with
  | none => simp
  | some l =>
    constructor
    · rintro ⟨value, i, found, rfl, rfl⟩
      exact ⟨i, found, rfl⟩
    · rintro ⟨i, found, rfl⟩
      exact ⟨a, i, found, rfl, rfl⟩

theorem Children.mem_enteredPlaces_iff {α : Type} {c : Children α}
    (distinct : Table.Distinct (c.properties.getD [])) (segments : List String) (a : α) :
    (segments, a) ∈ c.enteredPlaces ↔
      ∃ step : Step, step.isEntered ∧ c.child? step = some a ∧ step.segments = segments := by
  have inProperties : (∃ key value, (key, value) ∈ c.properties.getD [] ∧
      ["properties", key] = segments ∧ value = a) ↔
      ∃ key, c.properties.bind (Table.get? · key) = some a ∧ ["properties", key] = segments := by
    cases properties : c.properties with
    | none => simp
    | some t =>
      rw [properties] at distinct
      constructor
      · rintro ⟨key, value, member, rfl, rfl⟩
        exact ⟨key, Table.get?_of_mem distinct member, rfl⟩
      · rintro ⟨key, found, rfl⟩
        exact ⟨key, a, Table.mem_of_get? found, rfl, rfl⟩
  have inItems : (segments, a) ∈ c.items.toList.map (["items"], ·) ↔
      c.items = some a ∧ ["items"] = segments := by
    cases c.items <;> simp [and_comm, eq_comm]
  rw [enteredPlaces, Schema.placedChildren]
  simp only [entered, List.mem_append, inItems, mem_placedMembers_iff, Option.bind_none,
    Option.toList_none, List.map_nil, List.not_mem_nil, or_false]
  simp only [List.mem_map, Prod.exists, Prod.mk.injEq, inProperties]
  constructor
  · rintro ((((⟨key, found⟩ | found) | ⟨i, found⟩) | ⟨i, found⟩) | ⟨i, found⟩)
    · exact ⟨.property key, rfl, found⟩
    · exact ⟨.items, rfl, found⟩
    · exact ⟨.allOf i, rfl, found⟩
    · exact ⟨.oneOf i, rfl, found⟩
    · exact ⟨.anyOf i, rfl, found⟩
  · rintro ⟨step, isEntered, found⟩
    cases step with
    | property key => exact Or.inl (Or.inl (Or.inl (Or.inl ⟨key, found⟩)))
    | items => exact Or.inl (Or.inl (Or.inl (Or.inr found)))
    | allOf i => exact Or.inl (Or.inl (Or.inr ⟨i, found⟩))
    | oneOf i => exact Or.inl (Or.inr ⟨i, found⟩)
    | anyOf i => exact Or.inr ⟨i, found⟩
    | not | additional => simp [Step.isEntered] at isEntered

/-- Every visit is at an entered place, and every entered place is visited. -/
theorem Schema.mem_visits_iff {s : Schema} (keyed : s.keyed) {levels : Nat}
    (enough : s.levels ≤ levels) (definition : String) (trail : List String) (v : Visit) :
    v ∈ s.visits definition levels trail ↔ v.definition = definition ∧ ∃ place : Place,
      place.isEntered ∧ s.at? place = some v.keywords ∧ v.trail = place.trail ++ trail := by
  induction levels generalizing s trail with
  | zero => exact absurd s.levels_pos (by omega)
  | succ levels ih =>
    obtain ⟨k, c⟩ := s
    obtain ⟨distinct, each⟩ := (keyed_mk_iff k c).mp keyed
    have keyedBelow := (Children.each_iff _ c).mp each
    have below {step : Step} {child : Schema} (found : c.child? step = some child) :=
      have member := Children.mem_toList_of_child? found
      have lower := levels_lt_of_mem (k := k) member
      ih (keyedBelow child member) (by omega) (step.segments.reverse ++ trail)
    rw [visits, List.mem_append, List.mem_flatMap, List.mem_singleton]
    constructor
    · rintro (⟨⟨segments, child⟩, placed, visited⟩ | rfl)
      · obtain ⟨step, entered, found, rfl⟩ :=
          (Children.mem_enteredPlaces_iff distinct segments child).mp placed
        obtain ⟨same, place, enteredPlace, meant, here⟩ := (below found).mp visited
        refine ⟨same, step :: place, ?_, ?_, ?_⟩
        · simpa [Place.isEntered, entered] using enteredPlace
        · simpa [at?, found] using meant
        · rw [here, Place.trail_cons, List.append_assoc]
      · exact ⟨rfl, [], rfl, rfl, rfl⟩
    · rintro ⟨same, place, enteredPlace, meant, here⟩
      cases place with
      | nil =>
        obtain ⟨definition', trail', keywords⟩ := v
        cases meant
        simp_all [Place.trail]
      | cons step place =>
        obtain ⟨child, found, meant⟩ := Option.bind_eq_some_iff.mp meant
        rw [Place.isEntered, List.all_cons, Bool.and_eq_true] at enteredPlace
        rw [Place.trail_cons, List.append_assoc] at here
        refine Or.inl ⟨(step.segments, child), ?_, ?_⟩
        · exact (Children.mem_enteredPlaces_iff distinct _ child).mpr
            ⟨step, enteredPlace.1, found, rfl⟩
        · exact (below found).mpr ⟨same, place, enteredPlace.2, meant, here⟩

end SchemaGraph
