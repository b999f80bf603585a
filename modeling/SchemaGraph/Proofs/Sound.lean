import SchemaGraph.Proofs.Grounded
import SchemaGraph.Proofs.Hierarchy
import SchemaGraph.Proofs.Integrity

/- Sound graphs: every reference is plain and has one of the names that the graph defines. That is a
   rule for schemas, and no pass over a graph which is grounded in it fails for want of a node. -/
namespace SchemaGraph

/-- The error is not that of a reference which means no node. -/
def Error.NotUnresolved (e : Error) : Prop := ∀ raw location, e ≠ .unresolvedReference raw location

/-- Means a whole definition, with one of the names. -/
def Reference.Among (names : List String) (r : Reference) : Prop := r.IsPlain ∧ r.name ∈ names

/-- Every reference in the schema is among the names. -/
abbrev Schema.Sound (names : List String) (s : Schema) : Prop := s.Each (Reference.Among names)

namespace Definitions
variable {names : List String} {graph : Definitions}

/-- The graph defines the names, and every reference in it is among them. -/
structure Sound (names : List String) (graph : Definitions) : Prop where
  defines : ∀ name ∈ names, name ∈ graph.keys
  each : ∀ e ∈ graph, e.2.Sound names

end Definitions

theorem Error.notUnresolved_depthExceeded (location : String) (max : Nat) :
    NotUnresolved (.depthExceeded location max) := by
  intro _ _ same
  cases same

/-- References among the names; nothing is asked of the rest. -/
def Rule.among (names : List String) : Rule where
  reference := Reference.Among names
  value _ := True
  extra _ _ := True
  allowed := Error.NotUnresolved
  names := names
  value_of_ne _ _ := trivial
  extra_nil _ := trivial
  extra_overSorted _ _ _ _ _ := trivial
  extra_filter _ _ _ _ := trivial
  depthExceeded := Error.notUnresolved_depthExceeded
  meant := Or.inl fun _ among => among

theorem Keywords.obeys_among {names : List String} {k : Keywords}
    (each : k.Each (Reference.Among names)) : k.Obeys (Rule.among names) :=
  obeys_of_each (fun _ => trivial) (fun _ _ => trivial) each trivial

theorem Definitions.sound_iff_grounded (names : List String) (graph : Definitions) :
    graph.Sound names ↔ graph.Grounded (Rule.among names) := by
  constructor
  · intro sound
    exact ⟨sound.defines, fun e member => Schema.obeys_of_every (fun _ => trivial)
      fun node inside => Keywords.obeys_among (sound.each e member node inside)⟩
  · intro grounded
    exact ⟨grounded.defines, fun e member => Schema.Obeys.each (grounded.obeys e member)⟩

namespace Document
variable {names : List String} {d : Document}

/-- No reference of the document goes on into a definition. -/
def Plain (d : Document) : Prop := ∀ placed ∈ d.placedReferences, placed.1.IsPlain

instance (d : Document) : Decidable d.Plain :=
  inferInstanceAs (Decidable (∀ placed ∈ d.placedReferences, placed.1.IsPlain))

theorem plain_iff (d : Document) : d.Plain ↔ ∀ r, d.Refers r → r.IsPlain := by
  simp only [Plain, refers_iff, Prod.forall, forall_exists_index]

theorem closed_iff_of_plain (plain : d.Plain) :
    d.Closed ↔ ∀ r, d.Refers r → r.name ∈ d.definitions.keys := by
  rw [closed_iff]
  refine forall₂_congr fun r refers => ?_
  rw [Definitions.target?_of_isPlain ((plain_iff d).mp plain r refers),
    ← Table.has_iff_mem_keys, Table.has]

structure Sound (names : List String) (d : Document) : Prop where
  graph : d.definitions.Sound names
  raw : ∀ r ∈ d.rawReferences, r.Among names

theorem Sound.refers (sound : d.Sound names) {r : Reference} (refers : d.Refers r) :
    r.Among names := by
  rcases refers with ⟨name, s, member, node, inside, refers⟩ | refers
  · exact (Keywords.each_iff _ _).mp (sound.graph.each (name, s) member node inside) r refers
  · exact sound.raw r refers

theorem Sound.closed (sound : d.Sound names) : d.Closed := by
  rw [closed_iff]
  intro r refers
  obtain ⟨plain, named⟩ := sound.refers refers
  rw [Definitions.target?_of_isPlain plain]
  exact (Table.has_iff_mem_keys _ _).mpr (sound.graph.defines r.name named)

theorem Sound.plain (sound : d.Sound names) : d.Plain :=
  (plain_iff d).mpr fun _ refers => (sound.refers refers).1

theorem each_refers (d : Document) : ∀ e ∈ d.definitions, e.2.Each d.Refers :=
  fun e member node inside => (Keywords.each_iff _ _).mpr fun _ refers =>
    Or.inl ⟨e.1, e.2, member, node, inside, refers⟩

/-- In a closed document every reference, plain or not, names a definition. -/
theorem each_of_closed (closed : d.Closed) :
    ∀ e ∈ d.definitions, e.2.Each fun r => r.name ∈ d.definitions.keys := by
  rw [closed_iff] at closed
  exact fun e member => (d.each_refers e member).mono fun r refers =>
    Definitions.mem_keys_of_target? (closed r refers)

theorem mem_keys_of_below (closed : d.Closed) (name base : String)
    (below : d.definitions.Below name base) : base ∈ d.definitions.keys := by
  obtain ⟨s, member, r, based, rfl⟩ := below
  exact (d.each_of_closed closed _ member).base r based

theorem sound_of_closed (closed : d.Closed) (plain : d.Plain) : d.Sound d.definitions.keys := by
  rw [closed_iff] at closed
  rw [plain_iff] at plain
  have among (r : Reference) (refers : d.Refers r) : r.Among d.definitions.keys :=
    ⟨plain r refers, Definitions.mem_keys_of_target? (closed r refers)⟩
  exact ⟨⟨fun _ named => named, fun e member => (d.each_refers e member).mono among⟩,
    fun r refers => among r (Or.inr refers)⟩

/-- The document that is left is sound, and no error comes from a reference. -/
def Settled {α : Type} (names : List String) (out : Document × Except Error α) : Prop :=
  out.1.Sound names ∧ Ends Error.NotUnresolved (fun _ => True) out.2

theorem Sound.settled {α : Type} (sound : d.Sound names) {out : Document × Except Error α}
    (rewritten : Rewritten (Rule.among names) d out) : Settled names out := by
  have sameRaw : out.1.rawReferences = d.rawReferences := by
    rw [rewritten.outer]
    rfl
  exact ⟨⟨(Definitions.sound_iff_grounded _ _).mpr rewritten.grounded, sameRaw ▸ sound.raw⟩,
    rewritten.ended⟩

end Document
end SchemaGraph
