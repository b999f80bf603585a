import SchemaGraph.Proofs.PlacedNodes
import SchemaGraph.Proofs.PlainWalks

/- What a visitor meets that changes nothing. The walk is the list of its calls, one after the other;
   the calls stand like brackets around those for the nodes below, and either hook is called once for
   each node at an entered place, with the location and the annotations that belong to this place. -/
namespace SchemaGraph

inductive Hook where
  | before
  | after
  deriving DecidableEq

/-- A call of a hook, where and with which node. -/
structure Event where
  hook : Hook
  position : Position
  node : Schema

namespace Event

def location (e : Event) : String := e.position.location

def call {m : Type → Type} [Monad m] (v : Visitor m) (e : Event) : m Unit := do
  match e.hook with
  | .before => let _ ← v.before e.position e.node
  | .after => let _ ← v.after e.position e.node

/-- The calls for a node, with those for the nodes below in between. -/
def around (p : Position) (s : Schema) (inner : List Event) : List Event :=
  ⟨.before, p, s⟩ :: inner ++ [⟨.after, p, s⟩]

/-- Either hook is called once for the node itself. -/
theorem filter_around (hook : Hook) (p : Position) (s : Schema) (inner : List Event) :
    ((around p s inner).filter (·.hook = hook)).Perm
      (⟨hook, p, s⟩ :: inner.filter (·.hook = hook)) := by
  cases hook <;> simp [around]

end Event

/-- Every call before is followed by the call after for the same node at the same position, and what
is between them is bracketed as well. -/
inductive Bracketed : List Event → Prop where
  | nil : Bracketed []
  | around (p : Position) (s : Schema) {inner : List Event} (bracketed : Bracketed inner) :
      Bracketed (Event.around p s inner)
  | append {first rest : List Event} (bracketed : Bracketed first) (later : Bracketed rest) :
      Bracketed (first ++ rest)

theorem Bracketed.flatMap {α : Type} {l : List α} {f : α → List Event}
    (each : ∀ a ∈ l, Bracketed (f a)) : Bracketed (l.flatMap f) := by
  induction l with
  | nil => exact .nil
  | cons a rest ih =>
    obtain ⟨first, others⟩ := List.forall_mem_cons.mp each
    rw [List.flatMap_cons]
    exact .append first (ih others)

namespace Schema

/-- The calls of a walk that changes nothing, from the node on and down. -/
def events : Schema → Position → List Event :=
  para fun k c p => Event.around p ⟨k, c.map Prod.fst⟩
    (c.enteredPlaces.flatMap fun placed => placed.2.2 (p.child k.xml placed.1))

theorem events_mk (k : Keywords) (c : Children Schema) (p : Position) :
    events ⟨k, c⟩ p = Event.around p ⟨k, c⟩
      (c.enteredPlaces.flatMap fun placed => placed.2.events (p.child k.xml placed.1)) := by
  have same : c.map (fun child => child) = c := c.map_id
  rw [events, para_mk, Children.enteredPlaces_map, List.flatMap_map, Children.map_map, same]

theorem bracketed_events (s : Schema) (p : Position) : Bracketed (s.events p) := by
  induction s using children_induction generalizing p with
  | step k c ih =>
    rw [events_mk]
    exact .around p _ (.flatMap fun placed member => ih placed.2 (mem_toList_of_placed member) _)

end Schema

/-- The calls of a walk that changes nothing. -/
def Definitions.events (flavor : Flavor) (definitions : Definitions) : List Event :=
  definitions.flatMap fun e => e.2.events { flavor, definition := e.1 }

section
variable {m : Type → Type} [Monad m]

/-- The hooks hand back the node that they are called with, whatever else they do. -/
structure Visitor.Idle (v : Visitor m) : Prop where
  before p s : v.before p s = do
    let _ ← v.before p s
    return s
  after p s : v.after p s = do
    let _ ← v.after p s
    return s

variable [LawfulMonad m]

theorem forM_flatMap {α β : Type} (l : List α) (f : α → List β) (act : β → m Unit) :
    forM (l.flatMap f) act = forM l fun a => forM (f a) act := by
  induction l with
  | nil => simp
  | cons a rest ih => simp [ih]

section
variable {α : Type} {visit : List String → α → m α} {act : List String → α → m Unit}

theorem walkMembers_eq_forM (keyword : String) (i : Nat) {l : List α}
    (same : ∀ a ∈ l, ∀ segments, visit segments a = do act segments a; return a) :
    walkMembers visit keyword i l = do
      (l.zipIdx i).forM fun e => act [keyword, toString e.2] e.1
      return l := by
  induction l generalizing i with
  | nil => simp [walkMembers]
  | cons a rest ih =>
    obtain ⟨first, others⟩ := List.forall_mem_cons.mp same
    simp [walkMembers, first, ih (i + 1) others]

theorem walkProperties_eq_forM {t : Table α}
    (same : ∀ e ∈ t, ∀ segments, visit segments e.2 = do act segments e.2; return e.2) :
    walkProperties visit t = do
      t.forM fun e => act ["properties", e.1] e.2
      return t := by
  induction t with
  | nil => simp [walkProperties]
  | cons e rest ih =>
    obtain ⟨first, others⟩ := List.forall_mem_cons.mp same
    simp [walkProperties, first, ih others]

theorem walkOption_eq_forM {β : Type} {visit : α → m α} {act : β → m Unit} {o : Option α}
    (listed : Option α → List β) (empty : listed none = [])
    (same : ∀ a, o = some a → visit a = do (listed (some a)).forM act; return a) :
    walkOption visit o = do
      (listed o).forM act
      return o := by
  cases o with
  | none => simp [walkOption, empty]
  | some a => simp [walkOption, same a rfl]

/-- Visits that hand back what they visit come to acts, one child after the other. -/
theorem Children.walk_eq_forM (act : List String → α → m Unit) {c : Children α}
    (same : c.entered.Each fun a => ∀ segments, visit segments a = do act segments a; return a) :
    c.walk visit = do
      c.enteredPlaces.forM fun placed => act placed.1 placed.2
      return c := by
  have properties : walkOption (walkProperties visit) c.properties = do
      (c.properties.getD []).forM fun e => act ["properties", e.1] e.2
      return c.properties :=
    walkOption_eq_forM (·.getD []) rfl fun t held =>
      walkProperties_eq_forM (same.properties t held)
  have items : walkOption (visit ["items"]) c.items = do
      c.items.toList.forM (act ["items"])
      return c.items :=
    walkOption_eq_forM Option.toList rfl fun a held => by simp [same.items a held]
  have members (keyword : String) (o : Option (List α))
      (each : ∀ l, o = some l → ∀ a ∈ l, ∀ segments,
        visit segments a = do act segments a; return a) :
      walkOption (walkMembers visit keyword 0) o = do
        (o.getD []).zipIdx.forM fun e => act [keyword, toString e.2] e.1
        return o :=
    walkOption_eq_forM (fun o => (o.getD []).zipIdx) rfl fun l held =>
      walkMembers_eq_forM keyword 0 (each l held)
  rw [walk, properties, items, members "allOf" c.allOf same.allOf,
    members "oneOf" c.oneOf same.oneOf, members "anyOf" c.anyOf same.anyOf]
  simp [enteredPlaces, Schema.placedChildren, entered]

end

namespace Visitor.Idle
variable {v : Visitor m} (idle : v.Idle)
include idle

theorem before_bind {α : Type} (p : Position) (s : Schema) (f : Schema → m α) :
    v.before p s >>= f = Event.call v ⟨.before, p, s⟩ >>= fun _ => f s := by
  rw [idle.before p s]
  simp [Event.call]

theorem after_eq (p : Position) (s : Schema) :
    v.after p s = do
      Event.call v ⟨.after, p, s⟩
      return s := by
  rw [idle.after p s]
  simp [Event.call]

theorem walk_eq {levels : Nat} {s : Schema} (enough : s.levels ≤ levels) (p : Position) :
    s.walk v levels p = do
      (s.events p).forM (Event.call v)
      return s := by
  induction levels generalizing s p with
  | zero => exact absurd s.levels_pos (by omega)
  | succ levels ih =>
    obtain ⟨k, c⟩ := s
    have below : c.walk (fun segments child => child.walk v levels (p.child k.xml segments)) = do
        c.enteredPlaces.forM fun placed =>
          (placed.2.events (p.child k.xml placed.1)).forM (Event.call v)
        return c := by
      refine Children.walk_eq_forM (fun segments child =>
          (child.events (p.child k.xml segments)).forM (Event.call v))
        (Schema.forall_placed_iff.mp fun placed member segments => ?_)
      have lower : placed.2.levels < Schema.levels ⟨k, c⟩ :=
        Schema.levels_lt_of_mem (Schema.mem_toList_of_placed member)
      exact ih (by omega) (p.child k.xml segments)
    rw [Schema.walk, idle.before_bind, below, bind_assoc]
    simp [idle.after_eq, Schema.events_mk, Event.around, forM_flatMap]

end Visitor.Idle

namespace Definitions
variable {definitions : Definitions} {visitor : Definitions → Visitor (ExceptT Error m)}

theorem walkFrom_idle (idle : (visitor definitions).Idle) (flavor : Flavor) (growth : Nat)
    {finished rest : Definitions} (split : finished ++ rest = definitions) :
    walkFrom flavor growth visitor finished rest = do
      let result ← ((events flavor rest).forM (Event.call (visitor definitions))).run
      return (definitions, result) := by
  induction rest generalizing finished with
  | nil =>
    rw [List.append_nil] at split
    rw [split]
    simp [walkFrom, events]
  | cons e rest ih =>
    obtain ⟨name, root⟩ := e
    have enough : root.levels ≤ root.levels + growth := Nat.le_add_right _ _
    have later := @ih (finished ++ [(name, root)]) (by simp [← split])
    rw [walkFrom, split, idle.walk_eq enough]
    simp only [ExceptT.run_bind, events, List.flatMap_cons, List.forM_eq_forM, List.forM_append,
      bind_assoc]
    refine congrArg (_ >>= ·) (funext fun outcome => ?_)
    cases outcome with
    | error e => simp
    | ok _ => simpa [events] using later

theorem walk_idle (idle : (visitor definitions).Idle) (flavor : Flavor) (growth : Nat) :
    definitions.walk flavor growth visitor = do
      let result ← ((events flavor definitions).forM (Event.call (visitor definitions))).run
      return (definitions, result) :=
  walkFrom_idle idle flavor growth rfl

end Definitions
end

theorem flatMap_filter {α β : Type} (p : α → Bool) (f : α → List β) (l : List α) :
    (l.filter p).flatMap f = l.flatMap fun a => if p a then f a else [] := by
  induction l with
  | nil => rfl
  | cons a rest ih => cases holds : p a <;> simp [holds, ih]

namespace Schema

/-- The nodes above the place, the root first. -/
def above : Place → Schema → List Schema
  | [], _ => []
  | step :: rest, s => s :: ((s.children.child? step).map (above rest)).getD []

/-- The nodes at the places that a walk enters. -/
def enteredNodes (s : Schema) : List (Place × Schema) := s.placedNodes.filter (·.1.isEntered)

theorem enteredNodes_mk (k : Keywords) (c : Children Schema) :
    enteredNodes ⟨k, c⟩ = ([], ⟨k, c⟩) :: c.entered.steps.flatMap fun e =>
      e.2.enteredNodes.map fun below => (e.1 :: below.1, below.2) := by
  have led (e : Step × Schema) : (e.2.placedNodes.map fun below => (e.1 :: below.1, below.2)).filter
        (fun node => Place.isEntered node.1) =
      if e.1.isEntered then e.2.enteredNodes.map fun below => (e.1 :: below.1, below.2) else [] := by
    rw [List.filter_map]
    cases entered : e.1.isEntered <;>
      simp [enteredNodes, Place.isEntered, Function.comp_def, entered]
  rw [enteredNodes, placedNodes_mk, List.filter_cons_of_pos rfl, List.filter_flatMap,
    Children.steps_entered, flatMap_filter]
  simp only [led]

theorem mem_enteredNodes_iff {s : Schema} (keyed : s.keyed) {place : Place} {t : Schema} :
    (place, t) ∈ s.enteredNodes ↔ s.node? place = some t ∧ place.isEntered := by
  rw [enteredNodes, List.mem_filter, mem_placedNodes_iff keyed]

/-- The call for the node at the place, on a walk that comes to the root at `p`. -/
def eventAt (hook : Hook) (p : Position) (root : Schema) (node : Place × Schema) : Event where
  hook
  position := { p with
    trail := node.1.trail ++ p.trail
    enclosing := ((root.above node.1).map (·.keywords.xml)).reverse ++ p.enclosing }
  node := node.2

theorem eventAt_cons {s child : Schema} {step : Step} (found : s.children.child? step = some child)
    (hook : Hook) (p : Position) (below : Place × Schema) :
    s.eventAt hook p (step :: below.1, below.2) =
      child.eventAt hook (p.child s.keywords.xml step.segments) below := by
  simp [eventAt, above, found, Position.child, Place.trail_cons]

/-- Either hook is called once for each node that a walk enters. -/
theorem filter_events {s : Schema} (keyed : s.keyed) (hook : Hook) (p : Position) :
    ((s.events p).filter (·.hook = hook)).Perm (s.enteredNodes.map (s.eventAt hook p)) := by
  induction s using children_induction generalizing p with
  | step k c ih =>
    obtain ⟨distinct, each⟩ := (keyed_mk_iff k c).mp keyed
    have entered : c.enteredPlaces = c.entered.steps.map fun e => (e.1.segments, e.2) :=
      c.entered.placedChildren_eq
    rw [events_mk, enteredNodes_mk, List.map_cons, List.map_flatMap]
    -- The call after comes last in the walk, but its node is the first one; hence only up to order.
    refine (Event.filter_around hook p _ _).trans (.cons _ ?_)
    rw [entered, List.flatMap_map, List.filter_flatMap]
    refine List.Perm.flatMap_left _ fun e listed => ?_
    rw [Children.steps_entered] at listed
    have step := (List.mem_filter.mp listed).1
    have member := mem_toList_of_steps step
    have found := (Children.mem_steps_iff distinct e.1 e.2).mp step
    have below := ih e.2 member ((Children.each_iff _ c).mp each e.2 member)
      (p.child k.xml e.1.segments)
    rw [List.map_map]
    refine below.trans (.of_eq (List.map_congr_left fun node _ => ?_))
    exact (eventAt_cons (s := ⟨k, c⟩) found hook p node).symm

end Schema

namespace Definitions

/-- The calls of a hook, for one definition after the other. -/
def calls (flavor : Flavor) (hook : Hook) (definitions : Definitions) : List Event :=
  definitions.flatMap fun e =>
    e.2.enteredNodes.map (e.2.eventAt hook { flavor, definition := e.1 })

theorem location_eventAt (flavor : Flavor) (hook : Hook) (name : String) (root : Schema)
    (node : Place × Schema) : (root.eventAt hook { flavor, definition := name } node).location =
      node.1.location flavor name := by
  simp [Event.location, Schema.eventAt, Position.location, Position.path, Place.location,
    Place.trail_eq]

theorem map_location_calls (flavor : Flavor) (hook : Hook) (definitions : Definitions) :
    (definitions.calls flavor hook).map Event.location =
      ((definitions.placedNodes.filter (·.1.2.isEntered)).map Prod.fst).map
        fun key => key.2.location flavor key.1 := by
  simp only [calls, placedNodes, Schema.enteredNodes, List.map_flatMap, List.filter_flatMap,
    List.filter_map, List.map_map, Function.comp_def, location_eventAt]

section
variable {definitions : Definitions} (keyed : ∀ e ∈ definitions, e.2.keyed)
include keyed

theorem filter_events (flavor : Flavor) (hook : Hook) :
    ((definitions.events flavor).filter (·.hook = hook)).Perm (definitions.calls flavor hook) := by
  rw [events, List.filter_flatMap]
  exact List.Perm.flatMap_left _ fun e listed => Schema.filter_events (keyed e listed) hook _

variable (distinct : definitions.Distinct)
include distinct

theorem nodup_calls (flavor : Flavor) (hook : Hook) :
    ((definitions.calls flavor hook).map Event.location).Nodup := by
  rw [map_location_calls]
  have sublist := (List.filter_sublist (l := definitions.placedNodes)
    (p := fun node => node.1.2.isEntered)).map Prod.fst
  refine ((nodup_placedNodes distinct keyed).sublist sublist).map fun key other same => ?_
  obtain ⟨name, place⟩ := Place.location_inj same
  exact Prod.ext name place

theorem mem_calls_iff {flavor : Flavor} {hook : Hook} {e : Event} :
    e ∈ definitions.calls flavor hook ↔ ∃ name root place t, definitions.get? name = some root ∧
      root.node? place = some t ∧ place.isEntered ∧
      e = root.eventAt hook { flavor, definition := name } (place, t) := by
  simp only [calls, List.mem_flatMap, List.mem_map]
  constructor
  · rintro ⟨⟨name, root⟩, listed, ⟨place, t⟩, node, rfl⟩
    obtain ⟨stands, entered⟩ := (Schema.mem_enteredNodes_iff (keyed _ listed)).mp node
    exact ⟨name, root, place, t, Table.get?_of_mem distinct listed, stands, entered, rfl⟩
  · rintro ⟨name, root, place, t, found, stands, entered, rfl⟩
    have listed := Table.mem_of_get? found
    have node := (Schema.mem_enteredNodes_iff (keyed _ listed)).mpr ⟨stands, entered⟩
    exact ⟨(name, root), listed, (place, t), node, rfl⟩

end

/-- A walk with hooks that change nothing is the list of its calls, which are well bracketed. Either
hook is called at the locations of all entered places and at each of them once, with the node that the
location leads to and the annotations of exactly the nodes above it. -/
theorem idle_walk_meets_once {definitions : Definitions} (distinct : definitions.Distinct)
    (keyed : ∀ e ∈ definitions, e.2.keyed) (named : ∀ name ∈ definitions.keys, name ≠ "")
    (flavor : Flavor) :
    (∀ (m : Type → Type) [Monad m] [LawfulMonad m] (growth : Nat)
      (visitor : Definitions → Visitor (ExceptT Error m)), (visitor definitions).Idle →
        definitions.walk flavor growth visitor = do
          let result ← ((definitions.events flavor).forM (Event.call (visitor definitions))).run
          return (definitions, result)) ∧
    Bracketed (definitions.events flavor) ∧
    ∀ hook : Hook,
      let calls := (definitions.events flavor).filter (·.hook = hook)
      (calls.map Event.location).Nodup ∧
      (∀ e ∈ calls, definitions.Locates e.location e.node) ∧
      (∀ location, location ∈ calls.map Event.location ↔ ∃ name place, place.isEntered ∧
        (definitions.node? name place).isSome ∧ location = place.location flavor name) ∧
      ∀ e ∈ calls, ∃ root place, definitions.get? e.position.definition = some root ∧
        e.location = place.location flavor e.position.definition ∧
        e.position.enclosing.reverse = (root.above place).map (·.keywords.xml) := by
  refine ⟨fun m _ _ growth visitor idle => walk_idle idle flavor growth,
    .flatMap fun e _ => e.2.bracketed_events _, fun hook => ?_⟩
  intro calls
  have called : calls.Perm (definitions.calls flavor hook) := filter_events keyed flavor hook
  have mem_iff {e : Event} := (called.mem_iff (a := e)).trans (mem_calls_iff keyed distinct)
  refine ⟨?_, fun e member => ?_, fun location => ⟨fun visited => ?_, ?_⟩, fun e member => ?_⟩
  · exact ((called.map Event.location).nodup_iff).mpr (nodup_calls keyed distinct flavor hook)
  · obtain ⟨name, root, place, t, found, stands, _, rfl⟩ := mem_iff.mp member
    have known := (Table.exists_get?_iff _ name).mp ⟨root, found⟩
    rw [location_eventAt]
    refine locates_location flavor (named name known) ?_
    rw [node?, found]
    exact stands
  · obtain ⟨e, member, rfl⟩ := List.mem_map.mp visited
    obtain ⟨name, root, place, t, found, stands, entered, rfl⟩ := mem_iff.mp member
    refine ⟨name, place, entered, ?_, location_eventAt flavor hook name root _⟩
    rw [node?, found, Option.bind_some, stands]
    rfl
  · rintro ⟨name, place, entered, isSome, rfl⟩
    obtain ⟨t, stands⟩ := Option.isSome_iff_exists.mp isSome
    obtain ⟨root, found, stands⟩ := Option.bind_eq_some_iff.mp stands
    have member := mem_iff.mpr ⟨name, root, place, t, found, stands, entered, rfl⟩
    exact List.mem_map.mpr ⟨_, member, location_eventAt flavor hook name root _⟩
  · obtain ⟨name, root, place, t, found, stands, _, rfl⟩ := mem_iff.mp member
    exact ⟨root, place, found, location_eventAt flavor hook name root _, by simp [Schema.eventAt]⟩

/-- An array as a property of an annotated object. -/
def nested : Definitions :=
  let array : Schema := { children := { items := some {} } }
  [("A/B", {
    keywords := { xml := some {} }
    children := { properties := some [("x~y", array)] } })]

/-- Notes the locations before the nodes below. -/
def noting (_ : Definitions) : Visitor (ExceptT Error (StateM (List String))) where
  before p s := do
    modify (· ++ [p.location])
    return s
  after _ s := return s

theorem idle_walk_meets_once_nested :
    (nested.walk .definitions 0 noting = do
      let result ← ((nested.events .definitions).forM (Event.call (noting nested))).run
      return (nested, result)) ∧
    Bracketed (nested.events .definitions) ∧
    "#/definitions/A~1B/properties/x~0y/items" ∈
      ((nested.events .definitions).filter (·.hook = .after)).map Event.location := by
  have keyed : ∀ e ∈ nested, e.2.keyed := by
    simp [nested, Schema.keyed_mk_iff, Children.each_iff, Children.toList, Table.Distinct, Table.keys,
      Table.values]
  obtain ⟨walked, bracketed, called⟩ :=
    idle_walk_meets_once (by decide) keyed (by decide) .definitions
  refine ⟨walked _ 0 noting ⟨fun _ _ => rfl, fun _ _ => rfl⟩, bracketed, ?_⟩
  obtain ⟨_, _, visited, _⟩ := called .after
  exact (visited _).mpr ⟨"A/B", [.property "x~y", .items], rfl, rfl, rfl⟩

end Definitions
end SchemaGraph
