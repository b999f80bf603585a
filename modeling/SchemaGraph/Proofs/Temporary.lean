import SchemaGraph.Proofs.Expanded
import SchemaGraph.Proofs.Policy
import SchemaGraph.Proofs.Records

/- What only the generation of the schemas needs: shapes and uses in messages, records of the
   hierarchy, and temporary keys. A full run takes it from the nodes that the walks meet, but for uses
   in messages that stand beside no shape, and leaves it where no walk goes. -/
namespace SchemaGraph

/-- Nothing is left at the node of what only the generation needs. -/
structure Keywords.Final (k : Keywords) : Prop where
  typeOf : k.typeOf = none
  forPart : k.forPart = none
  noRecords : k.NoRecords
  extra : ∀ key ∈ Canonical.temporaryKeys, key ∉ k.extra.keys

theorem Keywords.final_iff (k : Keywords) : k.Final ↔ (k.typeOf.isNone ∧ k.forPart.isNone) ∧
    (k.ancestor.isNone ∧ k.descendants.isNone) ∧
      ∀ key ∈ Canonical.temporaryKeys, key ∉ k.extra.keys := by
  simp only [Option.isNone_iff_eq_none]
  exact ⟨fun h => ⟨⟨h.typeOf, h.forPart⟩, h.noRecords, h.extra⟩,
    fun ⟨⟨typeOf, forPart⟩, noRecords, extra⟩ => ⟨typeOf, forPart, noRecords, extra⟩⟩

instance : DecidablePred Keywords.Final := fun k => decidable_of_iff _ k.final_iff.symm

theorem Keywords.Final.redirect (f : Reference → Option Reference) {k : Keywords}
    (h : k.Final) : (k.redirect f).Final where
  typeOf := by simp [Keywords.redirect, h.typeOf]
  forPart := h.forPart
  noRecords := by simp [NoRecords, Keywords.redirect, h.noRecords.1, h.noRecords.2]
  extra := h.extra

theorem Canonical.temporary_not_mem_cleanExtra (extra : Table Json) :
    ∀ key ∈ temporaryKeys, key ∉ (cleanExtra extra).keys := by
  intro key temporary listed
  obtain ⟨e, kept, rfl⟩ := List.mem_map.mp listed
  have clean := (List.mem_filter.mp kept).2
  simp [temporary] at clean

namespace Schema

theorem every_iff_met (holds : Keywords → Prop) (s : Schema) : s.Every holds ↔
    ∀ node ∈ s.met [], holds node.2.keywords ∧
      ∀ child ∈ node.2.children.skipped, child.Every holds := by
  refine iff_forall_met (fun s => holds s.keywords ∧
    ∀ child ∈ s.children.skipped, child.Every holds) (fun k c => ?_) s
  rw [every_mk_iff, Children.each_iff_entered, and_assoc, and_comm (a := Children.Each _ _)]

theorem obeys_iff_met (R : Rule) (s : Schema) : s.Obeys R ↔
    ∀ node ∈ s.met [], node.2.keywords.Obeys R ∧
      ∀ child ∈ node.2.children.skipped, child.Obeys R ∧ R.skipped child := by
  refine iff_forall_met (fun s => s.keywords.Obeys R ∧
    ∀ child ∈ s.children.skipped, child.Obeys R ∧ R.skipped child) (fun k c => ?_) s
  rw [obeys_mk_iff]
  constructor
  · rintro ⟨own, below⟩
    obtain ⟨entered, skipped⟩ := (Children.each_iff_entered _ c).mp below.toEach
    exact ⟨⟨own, fun child listed => ⟨skipped child listed, below.skipped child listed⟩⟩, entered⟩
  · rintro ⟨⟨own, skipped⟩, entered⟩
    refine ⟨own, ?_, fun child listed => (skipped child listed).2⟩
    exact (Children.each_iff_entered _ c).mpr ⟨entered, fun child listed => (skipped child listed).1⟩

end Schema

theorem Definitions.every_iff_met (holds : Keywords → Prop) (definitions : Definitions) :
    (∀ e ∈ definitions, e.2.Every holds) ↔ ∀ node ∈ definitions.met, holds node.2.keywords ∧
      ∀ child ∈ node.2.children.skipped, child.Every holds := by
  rw [forall_met_iff fun s => holds s.keywords ∧ ∀ child ∈ s.children.skipped, child.Every holds]
  exact forall₂_congr fun e _ => e.2.every_iff_met holds

/-- What may be said of a node while shapes are expanded, given whether it has the shape of another
one and whether it is used in a message, and what holds where no walk goes. -/
structure Expansion where
  indirect : Bool → Bool → Prop
  hidden : Keywords → Prop
  indirect_neither : indirect false false
  indirect_or : ∀ shape part shape' part', indirect shape part → indirect shape' part' →
    indirect (shape || shape') (part || part')
  hidden_redirect : ∀ f k, hidden k → hidden (k.redirect f)
  typeOf_of_hidden : ∀ k, hidden k → k.typeOf = none
  indirect_of_hidden : ∀ k, hidden k → indirect false k.forPart.isSome

namespace Expansion
variable (E : Expansion)

/-- The policy before shapes are expanded, and after. -/
def policy (expanded : Bool) : Policy where
  rule := { Rule.any with
    indirect := fun shape part => E.indirect shape part ∧ (expanded → shape = false)
    skipped := fun s => s.Every E.hidden
    indirect_neither := ⟨E.indirect_neither, fun _ => rfl⟩
    indirect_or := fun shape part shape' part' first second =>
      ⟨E.indirect_or shape part shape' part' first.1 second.1, fun expanded =>
        Bool.or_eq_false_iff.mpr ⟨first.2 expanded, second.2 expanded⟩⟩ }
  permits _ := True
  names_eq_nil := rfl
  permits_of_ne _ _ := trivial
  reference_of_permits _ _ := trivial
  skipped_redirect f _ h := h.redirect (E.hidden_redirect f)

/-- What the policy asks of a node that the walks meet. -/
structure Admits (expanded : Bool) (s : Schema) : Prop where
  indirect : E.indirect s.keywords.typeOf.isSome s.keywords.forPart.isSome
  typeOf : expanded → s.keywords.typeOf = none
  hidden : ∀ child ∈ s.children.skipped, child.Every E.hidden

variable {E} {expanded : Bool}

theorem obeys_keywords_iff (k : Keywords) : k.Obeys (E.policy expanded).rule ↔
    E.indirect k.typeOf.isSome k.forPart.isSome ∧ (expanded → k.typeOf = none) := by
  have asked : k.Obeys (E.policy expanded).rule ↔
      (E.policy expanded).rule.indirect k.typeOf.isSome k.forPart.isSome :=
    ⟨Keywords.Obeys.indirect, Keywords.obeys_of_each (fun _ => trivial) (fun _ _ => trivial)
      ((Keywords.each_iff _ k).mpr fun _ _ => trivial)⟩
  refine asked.trans (and_congr_right fun _ => forall_congr' fun _ => ?_)
  rw [Option.isSome_eq_false_iff, Option.isNone_iff_eq_none]

theorem obeys_of_hidden {s : Schema} (h : s.Every E.hidden) : s.Obeys (E.policy expanded).rule := by
  induction s using Schema.children_induction with
  | step k c ih =>
    have below := (Children.each_iff _ c).mp h.below
    have typeOf := E.typeOf_of_hidden k h.own
    refine .mk ((obeys_keywords_iff k).mpr ⟨?_, fun _ => typeOf⟩) ⟨?_, fun child listed => ?_⟩
    · rw [typeOf]
      exact E.indirect_of_hidden k h.own
    · exact (Children.each_iff _ c).mpr fun child member => ih child member (below child member)
    · exact below child ((c.mem_toList_iff child).mpr (Or.inr listed))

theorem obeys_iff (s : Schema) : s.Obeys (E.policy expanded).rule ↔
    ∀ node ∈ s.met [], E.Admits expanded node.2 := by
  rw [Schema.obeys_iff_met]
  refine forall₂_congr fun node _ => ?_
  rw [obeys_keywords_iff]
  constructor
  · exact fun ⟨⟨indirect, typeOf⟩, below⟩ => ⟨indirect, typeOf, fun child listed => (below child listed).2⟩
  · exact fun h => ⟨⟨h.indirect, h.typeOf⟩, fun child listed =>
      ⟨obeys_of_hidden (h.hidden child listed), h.hidden child listed⟩⟩

theorem within_iff (definitions : Definitions) : definitions.Within (E.policy expanded) ↔
    ∀ node ∈ definitions.met, E.Admits expanded node.2 := by
  rw [Definitions.forall_met_iff (E.Admits expanded)]
  exact ⟨fun h e listed => (obeys_iff e.2).mp (h.obeys e listed),
    fun every => ⟨fun _ _ => trivial, fun e listed => (obeys_iff e.2).mpr (every e listed)⟩⟩

variable {d left : Document} {dictionary : Dictionary} {options : Options} {report : Report}

/-- The pass that expands shapes takes a run from the one policy to the other. -/
theorem admits_normalized (admits : ∀ node ∈ d.definitions.met, E.Admits false node.2)
    (accepted : d.normalize dictionary options = (left, .ok report)) :
    ∀ node ∈ left.definitions.met, E.Admits true node.2 := by
  let rest : List Pass := [.restrict, .squash, .collapseAnyOf, .relaxChoices, .foldRepetition,
    .squash, .typeDefaults, .prune, .cleanTypedefs, .inlineAttributes, .placeXmlHints,
    .dropEmptyQualifiers, .canonicalize, .sort]
  have order : Pass.sequence = [.copyHierarchies, .splitNillable, .expandTypes] ++ rest := rfl
  have ran : Pass.runAll dictionary options ([.copyHierarchies, .splitNillable] ++
      .expandTypes :: rest) {} d = (left, .ok report) := (Document.runAll_of_normalize accepted).1
  obtain ⟨own, here⟩ := Pass.ok_of_runAll ran
  have expanded := Definitions.everyMet_iff.mp (TypeExpansion.expanded_run here)
  have before := Pass.within_leave dictionary options
    ([.copyHierarchies, .splitNillable] ++ [.expandTypes]) ((within_iff _).mpr admits)
  rw [within_iff] at before
  rw [(Document.of_normalize accepted).1, order, Pass.leave_append, ← within_iff]
  refine Pass.within_leave dictionary options rest ((within_iff _).mpr fun node met => ?_)
  exact { before node met with typeOf := fun _ => expanded node met }

/-- Shapes alone. -/
def shapes : Expansion where
  indirect _ _ := True
  hidden k := k.typeOf = none
  indirect_neither := trivial
  indirect_or _ _ _ _ _ _ := trivial
  hidden_redirect f k h := by simp [Keywords.redirect, h]
  typeOf_of_hidden _ h := h
  indirect_of_hidden _ _ := trivial

/-- Uses in messages are told of where a shape is to be expanded. -/
def messages : Expansion where
  indirect shape part := part → shape
  hidden := Keywords.Final
  indirect_neither := id
  indirect_or shape part shape' part' first second := by
    simp only [Bool.or_eq_true]
    exact Or.imp first second
  hidden_redirect f _ h := h.redirect f
  typeOf_of_hidden _ h := h.typeOf
  indirect_of_hidden _ h := by simp [h.forPart]

end Expansion

/-- A use in a message is told of only beside a shape, and nothing that only the generation needs
stands where no walk goes. -/
structure Schema.Prepared (s : Schema) : Prop where
  forPart : s.keywords.forPart.isSome → s.keywords.typeOf.isSome
  hidden : ∀ child ∈ s.children.skipped, child.Every Keywords.Final

theorem Schema.prepared_iff (s : Schema) : s.Prepared ↔
    (s.keywords.forPart.isSome → s.keywords.typeOf.isSome) ∧
      ∀ child ∈ s.children.skipped, ∀ k ∈ child.nodes, k.Final :=
  ⟨fun h => ⟨h.forPart, h.hidden⟩, fun ⟨forPart, hidden⟩ => ⟨forPart, hidden⟩⟩

instance : DecidablePred Schema.Prepared := fun s => decidable_of_iff _ s.prepared_iff.symm

namespace Document
variable {d left : Document} {dictionary : Dictionary} {options : Options} {report : Report}

theorem cleared_normalized (accepted : d.normalize dictionary options = (left, .ok report)) :
    ∀ node ∈ left.definitions.met, node.2.keywords.NoRecords ∧
      ∀ key ∈ Canonical.temporaryKeys, key ∉ node.2.keywords.extra.keys := by
  intro node met
  rw [eq_leave_of_normalize accepted] at met
  have noRecords := Attributes.noRecords_run
    (Typedefs.noRecords_run (d := d.pruned dictionary options))
  generalize (Attributes.run (Typedefs.run (d.pruned dictionary options)).1).1 = inlined
    at met noRecords
  obtain ⟨before, stood, q, f, _, turned⟩ := Pass.exists_of_mem_met_finished met
  rw [turned]
  refine ⟨noRecords_turn_finisher _ _ q (Definitions.everyMet_iff.mp noRecords before stood), ?_⟩
  rw [extra_turn_finisher]
  exact Canonical.temporary_not_mem_cleanExtra _

/-- A full run leaves no records and no temporary keys on the nodes that the walks meet. So all is
final in the end exactly when none of these nodes has a shape to expand or a use in a message, and all
is final where no walk goes. No shape is left when none stood where no walk goes, and nothing at all
when, moreover, nothing else stood there and uses in messages stood beside shapes only. -/
theorem final_normalize_iff (dictionary : Dictionary) (options : Options) (d left : Document)
    (report : Report) (accepted : d.normalize dictionary options = (left, .ok report)) :
    (∀ node ∈ left.definitions.met, node.2.keywords.NoRecords ∧
      ∀ key ∈ Canonical.temporaryKeys, key ∉ node.2.keywords.extra.keys) ∧
    ((∀ e ∈ left.definitions, e.2.Every Keywords.Final) ↔
      ∀ node ∈ left.definitions.met, node.2.keywords.typeOf = none ∧
        node.2.keywords.forPart = none ∧
        ∀ child ∈ node.2.children.skipped, child.Every Keywords.Final) ∧
    ((∀ node ∈ d.definitions.met, ∀ child ∈ node.2.children.skipped,
        child.Every (·.typeOf = none)) →
      ∀ e ∈ left.definitions, e.2.Every (·.typeOf = none)) ∧
    ((∀ node ∈ d.definitions.met, node.2.Prepared) →
      ∀ e ∈ left.definitions, e.2.Every Keywords.Final) := by
  have cleared := cleared_normalized accepted
  have final : (∀ e ∈ left.definitions, e.2.Every Keywords.Final) ↔
      ∀ node ∈ left.definitions.met, node.2.keywords.typeOf = none ∧
        node.2.keywords.forPart = none ∧
        ∀ child ∈ node.2.children.skipped, child.Every Keywords.Final := by
    rw [Definitions.every_iff_met]
    refine forall₂_congr fun node met => ?_
    obtain ⟨noRecords, extra⟩ := cleared node met
    exact ⟨fun ⟨own, hidden⟩ => ⟨own.typeOf, own.forPart, hidden⟩,
      fun ⟨typeOf, forPart, hidden⟩ => ⟨⟨typeOf, forPart, noRecords, extra⟩, hidden⟩⟩
  refine ⟨cleared, final, fun hidden => ?_, fun prepared => final.mpr fun node met => ?_⟩
  · have admits := Expansion.shapes.admits_normalized
      (fun node met => ⟨trivial, nofun, hidden node met⟩) accepted
    refine (Definitions.every_iff_met _ _).mpr fun node met => ?_
    exact ⟨(admits node met).typeOf rfl, (admits node met).hidden⟩
  · have admits := Expansion.messages.admits_normalized
      (fun node met => ⟨(prepared node met).forPart, nofun, (prepared node met).hidden⟩)
      accepted node met
    have typeOf := admits.typeOf rfl
    refine ⟨typeOf, ?_, admits.hidden⟩
    by_contra used
    have shaped := admits.indirect (Option.isSome_iff_ne_none.mpr used)
    simp [typeOf] at shaped

/-- A message part, perhaps with the shape of another definition. -/
def partOf (shape : Option Reference) (additional : Option Schema) : Document where
  raw := [("paths", .obj [("/op", .obj [("$ref", .str "#/definitions/A")])]), ("definitions", .null)]
  flavor := .definitions
  hasSlot := true
  definitions :=
    [("A", { keywords := { typeOf := shape, forPart := some (.bool true) },
             children := { additional := additional.map .schema } }),
      ("B", { keywords := { type := some "string" } })]

theorem final_normalize_iff_shaped :
    let d := partOf (some (.toDefinition "B" .definitions)) none
    ∃ left, d.normalize {} {} = (left, .ok { removed := ["B"] }) ∧
      (∀ node ∈ d.definitions.met, node.2.Prepared) ∧
      ∀ e ∈ left.definitions, e.2.Every Keywords.Final := by
  intro d
  obtain ⟨left, accepted⟩ : ∃ left, d.normalize {} {} = (left, .ok { removed := ["B"] }) :=
    accepted_of_closed (by decide +kernel) (by decide +kernel) (by decide +kernel)
  have prepared : ∀ node ∈ d.definitions.met, node.2.Prepared := by decide +kernel
  exact ⟨left, accepted, prepared,
    (final_normalize_iff {} {} d left _ accepted).2.2.2 prepared⟩

/-- A choice that is marked with a temporary key. -/
def choice : Schema := { keywords := { extra := [("x-ibm-basic-choice", .bool true)] } }

/-- A use in a message that stands beside no shape is left, and so is a temporary key where no walk
goes. -/
theorem temporary_left : ∃ left,
    (partOf none (some choice)).normalize {} {} = (left, .ok { removed := ["B"] }) ∧
      ∃ e ∈ left.definitions, ¬ e.2.keywords.Final ∧
        ∃ child ∈ e.2.children.skipped, ¬ child.keywords.Final := by
  obtain ⟨left, accepted⟩ : ∃ left,
      (partOf none (some choice)).normalize {} {} = (left, .ok { removed := ["B"] }) :=
    accepted_of_closed (by decide +kernel) (by decide +kernel) (by decide +kernel)
  refine ⟨left, accepted, ?_⟩
  rw [eq_leave_of_normalize accepted]
  decide +kernel

end Document
end SchemaGraph
