import SchemaGraph.Pass.Attributes
import SchemaGraph.Proofs.Sound

/- Inlining attributes and reference integrity. The walk replaces each `$ref` to an attribute that it
   meets, and all attributes are removed; what it does not meet or does not replace is left dangling:
   references in the raw part, under `not` and additional properties, under other keywords than
   `$ref`, and those that inlined content brings along. -/
namespace SchemaGraph

namespace Schema

/-- The references that are no `$ref` in a node which a walk enters. -/
def passedReferences : Schema → List Reference :=
  para fun k c => { k with reference := none }.allReferences ++
    c.entered.toList.flatMap Prod.snd ++
    c.skipped.flatMap fun child => child.1.nodes.flatMap Keywords.allReferences

theorem mem_passedReferences_mk {k : Keywords} {c : Children Schema} {r : Reference} :
    r ∈ passedReferences ⟨k, c⟩ ↔ r ∈ { k with reference := none }.allReferences ∨
      (∃ child ∈ c.entered.toList, r ∈ child.passedReferences) ∨
      ∃ child ∈ c.skipped, ∃ node ∈ child.nodes, r ∈ node.allReferences := by
  rw [passedReferences, para_mk, Children.toList_entered_map, Children.skipped_map]
  simp [List.mem_flatMap]

theorem Each.passed {p : Reference → Prop} {s : Schema} (h : s.Each p) :
    ∀ r ∈ s.passedReferences, p r := by
  induction s using children_induction with
  | step k c ih =>
    have below := (Children.each_iff _ c).mp h.below
    intro r passed
    rcases mem_passedReferences_mk.mp passed with own | ⟨child, member, passed⟩ | skipped
    · have rest : Keywords.Each p { k with reference := none } :=
        { h.own with reference := by simp }
      exact (Keywords.each_iff _ _).mp rest r own
    · have inside := (c.mem_toList_iff child).mpr (Or.inl member)
      exact ih child inside (below child inside) r passed
    · obtain ⟨child, member, node, inside, refers⟩ := skipped
      have each := below child ((c.mem_toList_iff child).mpr (Or.inr member)) node inside
      exact (Keywords.each_iff _ _).mp each r refers

end Schema

namespace Attributes

def attributes (d : Document) : List String :=
  (d.definitions.filter fun entry => entry.2.isAttribute).map Prod.fst

/-- Attributes refer to no attributes, and the other definitions only where the walk inlines. -/
structure Inlinable (d : Document) : Prop where
  leaves : ∀ e ∈ d.definitions, e.2.isAttribute → ∀ node ∈ e.2.nodes, ∀ r ∈ node.allReferences,
    r.name ∉ attributes d
  met : ∀ e ∈ d.definitions, ∀ r ∈ e.2.passedReferences, r.name ∉ attributes d

section
variable {names attributes : List String} {q : Reference → Prop}

/-- Apart from the references that the walk may replace, all satisfy the predicate. -/
def Ready (names : List String) (q : Reference → Prop) (s : Schema) : Prop :=
  s.Sound names ∧ ∀ r ∈ s.passedReferences, q r

theorem Ready.own {k : Keywords} {c : Children Schema} (ready : Ready names q ⟨k, c⟩) :
    Keywords.Each q { k with reference := none } :=
  (Keywords.each_iff _ _).mpr fun r refers =>
    ready.2 r (Schema.mem_passedReferences_mk.mpr (Or.inl refers))

theorem Ready.entered {k : Keywords} {c : Children Schema} (ready : Ready names q ⟨k, c⟩) :
    c.entered.Each (Ready names q) := by
  refine (Children.each_iff _ _).mpr fun child member => ⟨?_, fun r passed => ?_⟩
  · have listed := (c.mem_toList_iff child).mpr (Or.inl member)
    exact (Children.each_iff _ _).mp ready.1.below child listed
  · exact ready.2 r (Schema.mem_passedReferences_mk.mpr (Or.inr (Or.inl ⟨child, member, passed⟩)))

theorem Ready.skipped {k : Keywords} {c : Children Schema} (ready : Ready names q ⟨k, c⟩) :
    ∀ child ∈ c.skipped, child.Each q := fun child member node inside =>
  (Keywords.each_iff _ _).mpr fun r refers => ready.2 r
    (Schema.mem_passedReferences_mk.mpr (Or.inr (Or.inr ⟨child, member, node, inside, refers⟩)))

theorem after_each (outside : ∀ r, Reference.Among names r → r.name ∉ attributes → q r)
    {graph : Definitions} (defines : ∀ name ∈ names, name ∈ graph.keys)
    (inlined : ∀ e ∈ graph, e.1 ∈ attributes → e.2.Each q) (position : Position) {k : Keywords}
    {c : Children Schema} (among : ∀ r, k.reference = some r → r.Among names)
    (own : Keywords.Each q { k with reference := none }) (below : c.Each (Schema.Each q)) :
    Ends (fun _ => False) (Schema.Each q) (after attributes graph position ⟨k, c⟩) := by
  rw [after]
  cases refers : k.reference with
  | none => exact .mk { own with reference := by simp [refers] } below
  | some r =>
    obtain ⟨plain, named⟩ := among r refers
    have noTail : r.tail.isEmpty = true := List.isEmpty_iff.mpr plain
    dsimp only
    rw [noTail, Bool.true_and]
    split
    · rename_i isAttribute
      obtain ⟨target, found⟩ := (Table.exists_get?_iff _ _).mpr (defines r.name named)
      have each := inlined _ (Table.mem_of_get? found) (List.contains_iff_mem.mp isAttribute)
      have rest : Schema.Each q ⟨{ k with reference := none }, c⟩ := .mk own below
      rw [Definitions.overlay, Definitions.resolve, Definitions.target?_of_isPlain plain, found]
      exact each.onto rest
    · rename_i isNone
      have satisfied := outside r ⟨plain, named⟩ fun member =>
        isNone (List.contains_iff_mem.mpr member)
      exact .mk { own with reference := by simpa [refers] using satisfied } below

theorem walk_root_each (outside : ∀ r, Reference.Among names r → r.name ∉ attributes → q r)
    {graph : Definitions} (defines : ∀ name ∈ names, name ∈ graph.keys)
    (inlined : ∀ e ∈ graph, e.1 ∈ attributes → e.2.Each q) (position : Position) {root : Schema}
    (ready : Ready names q root) :
    (Guarantee.plain.throwing fun _ => False).Holds (Schema.Each q)
      (root.walk (.ofAfter fun position s => ExceptT.mk (pure (after attributes graph position s)))
        root.levels position) := by
  refine Guarantee.walkAfter _ (fun _ _ => Ready.entered) (fun position k c walked ready => ?_)
    position (Nat.le_refl _) ready
  intro entered same
  exact after_each outside defines inlined position ready.1.own.reference ready.own
    ((Children.each_iff_entered _ _).mpr ⟨entered, same ▸ ready.skipped⟩)

end

section
variable {d : Document} {q : Reference → Prop}

theorem walk_each (outside : ∀ r, r.Among d.definitions.keys → r.name ∉ attributes d → q r)
    (inlined : ∀ e ∈ d.definitions, e.1 ∈ attributes d → e.2.Each q)
    (ready : ∀ e ∈ d.definitions, Ready d.definitions.keys q e.2) :
    ∃ definitions : Definitions, d.walkAfter (after (attributes d)) =
        ({ d with definitions }, .ok ()) ∧
      definitions.keys = d.definitions.keys ∧ ∀ e ∈ definitions, e.2.Each q := by
  let visitor (graph : Definitions) : Visitor (ExceptT Error Id) :=
    .ofAfter fun position s => ExceptT.mk (pure (after (attributes d) graph position s))
  have walked : Guarantee.plain.Holds (fun out : Definitions × Except Error Unit =>
      out.2 = .ok () ∧ out.1.keys = d.definitions.keys ∧ ∀ e ∈ out.1, e.2.Each q)
      (d.definitions.walk d.flavor 0 visitor) := by
    refine Guarantee.plain.walkFrom d.flavor 0 (fun _ => False)
      (fun finished rest => Table.keys (finished ++ rest) = d.definitions.keys ∧
        (∀ e ∈ finished, e.2.Each q) ∧ ∀ e ∈ rest, Ready d.definitions.keys q e.2 ∧
          (e.1 ∈ attributes d → e.2.Each q))
      (fun finished name root rest held => ?_) (fun finished held => ?_) ?_ [] d.definitions ?_
    · -- What is inlined in a root is an attribute before it or after it, and those are sound anyway.
      obtain ⟨sameKeys, before, later⟩ := held
      obtain ⟨⟨rootReady, _⟩, restReady⟩ := List.forall_mem_cons.mp later
      have attributesEach : ∀ e ∈ finished ++ (name, root) :: rest,
          e.1 ∈ attributes d → e.2.Each q := fun e member isAttribute =>
        (List.mem_append.mp member).elim (before e) fun inRest => (later e inRest).2 isAttribute
      refine Guarantee.mono _ (walk_root_each outside (fun name known => sameKeys ▸ known)
        attributesEach _ rootReady) fun changed each => ⟨?_, ?_, restReady⟩
      · rw [← sameKeys]
        simp [Table.keys]
      · exact List.forall_mem_append.mpr ⟨before, by simpa using each⟩
    · rw [List.append_nil] at held
      exact ⟨rfl, held.1, held.2.1⟩
    · exact fun _ _ _ _ => False.elim
    · exact ⟨rfl, by simp, fun e member => ⟨ready e member, inlined e member⟩⟩
  obtain ⟨success, sameKeys, each⟩ := walked
  exact ⟨_, Prod.ext rfl success, sameKeys, each⟩

/-- What holds of the document and of what the walk leaves, also where it fails, and does not depend
on the definitions that are dropped, holds of the result. -/
theorem of_run {motive : Document → Prop} (stays : motive d)
    (walked : motive (d.walkAfter (after (attributes d))).1)
    (dropped : ∀ left keep, motive left →
      motive { left with definitions := left.definitions.filter keep }) : motive (run d).1 := by
  rw [run]
  dsimp only
  rw [← attributes]
  split
  · exact stays
  · generalize d.walkAfter _ = out at walked
    obtain ⟨left, _ | _⟩ := out
    · exact walked
    · exact dropped left _ walked

theorem mem_attributes_iff (name : String) :
    name ∈ attributes d ↔ ∃ s, (name, s) ∈ d.definitions ∧ s.isAttribute := by
  simp [attributes]

theorem mem_attributes_iff_isAttribute (distinct : d.definitions.Distinct) {e : String × Schema}
    (member : e ∈ d.definitions) : e.1 ∈ attributes d ↔ e.2.isAttribute := by
  rw [mem_attributes_iff]
  constructor
  · rintro ⟨s, other, isAttribute⟩
    have same := (Table.get?_of_mem distinct other).symm.trans (Table.get?_of_mem distinct member)
    exact Option.some.inj same ▸ isAttribute
  · exact fun isAttribute => ⟨e.2, member, isAttribute⟩

theorem filter_attributes (distinct : d.definitions.Distinct) :
    d.definitions.keys.filter (attributes d).contains = attributes d := by
  rw [Table.keys, List.filter_map, attributes]
  refine congrArg (List.map Prod.fst) (List.filter_congr fun e member => ?_)
  rw [Function.comp_apply, Bool.eq_iff_iff, List.contains_iff_mem, ← attributes]
  exact mem_attributes_iff_isAttribute distinct member

/-- Inlining does not fail, and removes the attributes from what the walk leaves. -/
theorem run_each (distinct : d.definitions.Distinct)
    (outside : ∀ r, r.Among d.definitions.keys → r.name ∉ attributes d → q r)
    (inlined : ∀ e ∈ d.definitions, e.1 ∈ attributes d → e.2.Each q)
    (ready : ∀ e ∈ d.definitions, Ready d.definitions.keys q e.2) :
    ∃ definitions : Definitions, run d =
        ({ d with definitions := definitions.filter fun e => !(attributes d).contains e.1 },
          .ok { removed := attributes d }) ∧
      definitions.keys = d.definitions.keys ∧ ∀ e ∈ definitions, e.2.Each q := by
  rw [run]
  dsimp only
  rw [← attributes]
  split
  · rename_i none
    rw [List.isEmpty_iff] at none
    refine ⟨d.definitions, ?_, rfl, fun e member => ?_⟩
    · simp [none, Document.unreported, List.filter_eq_self.mpr]
    · exact (ready e member).1.mono fun r among => outside r among (by simp [none])
  · obtain ⟨definitions, walked, sameKeys, each⟩ := walk_each outside inlined ready
    refine ⟨definitions, ?_, sameKeys, each⟩
    rw [walked]
    dsimp only
    rw [sameKeys, filter_attributes distinct]

/-- Inlining does not fail and leaves plain references. A closed document stays closed exactly when
no reference to an attribute is left; and where all uses in the definitions can be inlined, exactly
when no raw reference means an attribute. -/
theorem closed_inlined_iff (d : Document) (distinct : d.definitions.Distinct) (closed : d.Closed)
    (plain : d.Plain) :
    (run d).2 = .ok { removed := attributes d } ∧ (run d).1.Plain ∧
    ((run d).1.Closed ↔ ∀ r, (run d).1.Refers r → r.name ∉ attributes d) ∧
    (Inlinable d → ((run d).1.Closed ↔ ∀ r ∈ d.rawReferences, r.name ∉ attributes d)) := by
  have sound := d.sound_of_closed closed plain
  obtain ⟨definitions, ran, sameKeys, each⟩ := run_each (q := Reference.Among d.definitions.keys)
    distinct (fun r among _ => among) (fun e member _ => sound.graph.each e member)
    fun e member => ⟨sound.graph.each e member, (sound.graph.each e member).passed⟩
  have among {r : Reference} (refers : (run d).1.Refers r) : r.Among d.definitions.keys := by
    rw [ran] at refers
    rcases refers with ⟨name, s, member, node, inside, refers⟩ | raw
    · have stays := each (name, s) (List.mem_filter.mp member).1
      exact (Keywords.each_iff _ _).mp (stays node inside) r refers
    · exact sound.raw r raw
  have left (name : String) : name ∈ (run d).1.definitions.keys ↔
      name ∈ d.definitions.keys ∧ name ∉ attributes d := by
    rw [ran, ← sameKeys]
    simp [Table.keys, and_comm]
  have plainRun := (Document.plain_iff _).mpr fun r refers => (among (r := r) refers).1
  have closed_iff : (run d).1.Closed ↔ ∀ r, (run d).1.Refers r → r.name ∉ attributes d := by
    rw [Document.closed_iff_of_plain plainRun]
    refine forall₂_congr fun r refers => ?_
    rw [left]
    exact and_iff_right (among refers).2
  refine ⟨by rw [ran], plainRun, closed_iff,
    fun inlinable => closed_iff.trans ⟨?_, ?_⟩⟩
  · intro none r raw
    exact none r (Or.inr (by rw [ran]; exact raw))
  · intro none r refers
    obtain ⟨definitions, ran, _, each⟩ := run_each (q := fun r => r.name ∉ attributes d) distinct
      (fun _ _ => id)
      (fun e member isAttribute node inside => (Keywords.each_iff _ _).mpr (inlinable.leaves e member
        ((mem_attributes_iff_isAttribute distinct member).mp isAttribute) node inside))
      fun e member => ⟨sound.graph.each e member, inlinable.met e member⟩
    rw [ran] at refers
    rcases refers with ⟨name, s, member, node, inside, refers⟩ | raw
    · have gone := each (name, s) (List.mem_filter.mp member).1
      exact (Keywords.each_iff _ _).mp (gone node inside) r refers
    · exact none r raw

def langHeader : Json :=
  .obj [("in", .str "header"), ("name", .str "lang"),
    ("schema", .obj [("$ref", .str "#/definitions/lang_attribute")])]

/-- The attribute is used in a definition, where it is inlined, and for a header of an operation. -/
def headers : Document where
  raw := [("paths", .obj [("/op", .obj [("get", .obj [("parameters", .arr [langHeader])])])]),
    ("definitions", .null)]
  flavor := .definitions
  hasSlot := true
  definitions :=
    let use : Schema := .ofReference (.toDefinition "lang_attribute" .definitions)
    [("lang_attribute",
      { keywords :=
          { type := some "string", xml := some { name := some "lang", attr := some true } } }),
    ("Note", { children := { properties := some [("lang", use)] } })]

theorem closed_inlined_iff_headers : headers.definitions.Distinct ∧ headers.Closed ∧
    headers.Plain ∧ (run headers).2 = .ok { removed := attributes headers } ∧
    (run headers).1.Plain ∧
    ((run headers).1.Closed ↔ ∀ r, (run headers).1.Refers r → r.name ∉ attributes headers) ∧
    ((run headers).1.Closed ↔ ∀ r ∈ headers.rawReferences, r.name ∉ attributes headers) := by
  have inlined := closed_inlined_iff headers (by decide) rfl (by decide)
  exact ⟨by decide, rfl, by decide, inlined.1, inlined.2.1, inlined.2.2.1,
    inlined.2.2.2 ⟨by decide, by decide⟩⟩

theorem attribute_of_header_left_dangling :
    headers.Closed ∧ headers.Plain ∧ ¬ (run headers).1.Closed := by
  refine ⟨rfl, by decide, ?_⟩
  intro closed
  cases closed

end
end Attributes
end SchemaGraph
