import SchemaGraph.Proofs.Frame
import SchemaGraph.Proofs.PlainWalks
import SchemaGraph.Proofs.Records

/- Squashing what a full run leaves. The second squash of a run leaves every node settled; the passes
   after it keep the frames, but that untyped values and attributes make them inline references. So
   what is left to squash is found in the frames, and is the members that lose all they say. -/
namespace SchemaGraph

/-- Both graphs have the same frames, up to names and repetitions. -/
def Definitions.FramesWithin (after before : Definitions) : Prop :=
  ∀ e ∈ after, ∃ name s, (name, s) ∈ before ∧ e.2.frame = s.frame

namespace Definitions.FramesWithin
variable {first second third : Definitions}

theorem trans (h : third.FramesWithin second) (h' : second.FramesWithin first) :
    third.FramesWithin first := by
  intro e listed
  obtain ⟨name, s, stood, same⟩ := h e listed
  obtain ⟨name', s', stood', same'⟩ := h' (name, s) stood
  exact ⟨name', s', stood', same.trans same'⟩

theorem change {v : Visitor Id} (shallow : v.Shallow)
    (gist : ∀ p s, (v.turn p s).keywords.gist = s.keywords.gist)
    (trimmed : ∀ p s, (v.turn p s).children.trimmed = s.children.trimmed) (flavor : Flavor)
    (definitions : Definitions) : (definitions.change flavor v).FramesWithin definitions := by
  intro e listed
  obtain ⟨before, stood, rfl⟩ := List.mem_map.mp listed
  exact ⟨before.1, before.2, stood, Schema.frame_walk shallow gist trimmed _ _ _⟩

end Definitions.FramesWithin

namespace Defaults

/-- Values that are typed where they stand. -/
def typed (_ : Position) (s : Schema) : Schema :=
  let hasDefault := s.keywords.default.any Json.isTruthy
  if !hasDefault && s.keywords.enum.isNone then s
  else place (if hasDefault then s.keywords.default else none) s.keywords.enum s

/-- The node has a type of its own, or nothing that should have its type. -/
def Typed (k : Keywords) : Prop :=
  k.type = none → k.enum.isNone ∧ k.default.any Json.isTruthy = false

instance (k : Keywords) : Decidable (Typed k) :=
  inferInstanceAs (Decidable (k.type = none → k.enum.isNone ∧ k.default.any Json.isTruthy = false))

theorem after_eq_typed (maxDepth : Nat) (graph : Definitions) (p : Position) (s : Schema)
    (own : Typed s.keywords) : after maxDepth graph p s = .ok (typed p s) := by
  rw [after, typed]
  dsimp only
  split
  · rfl
  · rename_i given
    split
    · rfl
    · rename_i untyped
      obtain ⟨noEnum, noDefault⟩ := own (by simpa using untyped)
      simp [noEnum, noDefault] at given

theorem children_typed (p : Position) (s : Schema) : (typed p s).children = s.children := by
  rw [typed]
  split <;> rfl

theorem gist_typed (p : Position) (s : Schema) : (typed p s).keywords.gist = s.keywords.gist := by
  rw [typed]
  split
  · rfl
  · cases given : s.keywords.default.any Json.isTruthy <;>
    cases default : s.keywords.default <;> cases enum : s.keywords.enum <;>
    simp [place, Keywords.gist, default, enum]

theorem shallow_typed : Visitor.Shallow ⟨fun _ s => s, typed⟩ where
  keywords _ _ _ _ := rfl
  keeps _ _ := rfl
  after := {
    natural := fun p k c f => by
      change typed p ⟨k, c.mapEntered f⟩ =
        ⟨(typed p ⟨k, c⟩).keywords, (typed p ⟨k, c⟩).children.mapEntered f⟩
      rw [children_typed, typed, typed]
      dsimp only
      split <;> rfl
    places := fun p s => congrArg Children.enteredPlaces (children_typed p s)
    skipped := fun p s => congrArg Children.skipped (children_typed p s) }

theorem framesWithin_run (options : Options) {d : Document}
    (every : ∀ node ∈ d.definitions.met, Typed node.2.keywords) :
    (run options d).1.definitions.FramesWithin d.definitions := by
  have plain := Document.walkAfter_eq_changeAfter
    (fun graph p s => after_eq_typed options.maxDepth graph p s) (Definitions.everyMet_iff.mpr every)
  have ran : (run options d).1 = d.changeAfter typed := by
    rw [run, Document.walkPass, plain]
  rw [ran]
  exact .change shallow_typed gist_typed (fun p s => congrArg _ (children_typed p s)) _ _

end Defaults

theorem Pruning.framesWithin_run (options : Options) (d : Document) :
    (run options d).1.definitions.FramesWithin d.definitions :=
  fun e listed => ⟨e.1, e.2, List.mem_of_mem_filter listed, rfl⟩

theorem Schema.isAttribute_redirect (f : Reference → Option Reference) (s : Schema) :
    (s.redirect f).isAttribute = s.isAttribute := by
  obtain ⟨k, c⟩ := s
  rw [Schema.redirect_mk]
  rfl

namespace Typedefs
variable {d : Document}

theorem framesWithin_run : (run d).1.definitions.FramesWithin d.definitions := by
  have gist (p : Position) (s : Schema) :
      (Visitor.turn ⟨fun _ s => s, strip⟩ p s).keywords.gist = s.keywords.gist := by
    have turned : Visitor.turn ⟨fun _ s => s, strip⟩ p s = strip p s := rfl
    rw [turned]
    simp [strip, Keywords.gist, Function.comp_def]
  have stripped : (d.changeAfter strip).definitions.FramesWithin d.definitions :=
    .change shallow_strip gist (fun _ _ => rfl) _ _
  intro e listed
  obtain ⟨name, left, before, turned⟩ := exists_of_mem_run listed
  obtain ⟨name', s, first, same⟩ := stripped _ before
  rw [turned]
  exact ⟨name', s, first, (Schema.frame_redirect _ left).trans same⟩

theorem noAttribute_run (noAttribute : ∀ e ∈ d.definitions, ¬ e.2.isAttribute) :
    ∀ e ∈ (run d).1.definitions, ¬ e.2.isAttribute := by
  intro e listed
  obtain ⟨name, s, before, turned⟩ := exists_of_mem_run listed
  rw [turned, Schema.isAttribute_redirect]
  exact noAttribute_stripped noAttribute (name, s) before

end Typedefs

namespace Squash

/-- Later passes leave all nodes settled, as far as they keep the frames. -/
def Lasts (definitions : Definitions) : Prop :=
  ∀ node ∈ definitions.met, Lasting (node.1.head? != some "items") node.2

theorem lasts_iff (definitions : Definitions) :
    Lasts definitions ↔ ∀ e ∈ definitions, Still true e.2.frame := by
  simp only [Lasts, Definitions.mem_met_iff, forall_exists_index, and_imp]
  constructor
  · exact fun lasts e listed => (still_frame_iff [] e.2).mpr fun node inside =>
      lasts node e listed inside
  · exact fun still node e listed => (still_frame_iff [] e.2).mp (still e listed) node

theorem lasts_of_framesWithin {after before : Definitions} (within : after.FramesWithin before)
    (lasts : Lasts before) : Lasts after := by
  rw [lasts_iff] at lasts ⊢
  intro e listed
  obtain ⟨name, s, stood, same⟩ := within e listed
  rw [same]
  exact lasts _ stood

theorem squashFree_of_lasts {definitions : Definitions} (lasts : Lasts definitions) :
    SquashFree definitions := fun node met => (lasts node met).settled

theorem stays_of_lasts {definitions : Definitions} (lasts : Lasts definitions) :
    ∀ node ∈ definitions.met, ∀ member ∈ node.2.children.allOf.getD [], fades member = false := by
  intro node met
  cases held : node.2.children.allOf with
  | none => simp
  | some members => exact (lasts node met members held).2.1

/-- Where no member fades, the nodes stay settled. -/
theorem lasts_of_squashFree {definitions : Definitions} (free : SquashFree definitions)
    (stays : ∀ node ∈ definitions.met, ∀ member ∈ node.2.children.allOf.getD [],
      fades member = false) : Lasts definitions := by
  intro node met members held
  have stay := free node met members held
  have busy := stays node met
  rw [held] at busy
  exact ⟨stay.nonempty, busy, stay.apart⟩

end Squash

namespace Pass
variable (dictionary : Dictionary) (options : Options) (d : Document)

theorem frame_finisher (levels : Nat) (p : Position) (s : Schema) :
    (s.walk (finisher options.pureXml options.v3Nullable) levels p).run.frame = s.frame := by
  refine Schema.frame_walk (shallow_finisher _ _) (fun p s => ?_) (fun p s => ?_) levels p s
  · rw [turn_finisher, Canonical.polish_eq, Keywords.gist_cleaned]
    rfl
  · rw [turn_finisher, Canonical.polish_eq]
    rcases Canonical.keptProperties_cases (s.withXml (XmlHints.shown options.pureXml p s)) with
      ⟨empty, _, gone⟩ | kept
    · rw [Schema.children_withXml] at empty ⊢
      rw [gone, Children.trimmed, Children.trimmed, empty]
      rfl
    · rw [kept]
      rfl

theorem lasts_finished_iff : Squash.Lasts (leave dictionary options finishing d).definitions ↔
    Squash.Lasts d.definitions := by
  have sorted (e : String × Schema) := (List.mergeSort_perm (d.definitions.change d.flavor
    (finisher options.pureXml options.v3Nullable)) fun a b => decide (a.1 ≤ b.1)).mem_iff (a := e)
  rw [leave_finishing, Squash.lasts_iff, Squash.lasts_iff]
  refine Iff.trans (forall_congr' fun e => imp_congr_left (sorted e)) ?_
  rw [Definitions.forall_mem_change_iff]
  simp only [frame_finisher]

end Pass

/-! In pure mode the members say no more in the end than what later passes leave of them. -/

namespace Schema

/-- What is met from a node on is met from the root. -/
theorem met_of_met {node inner : List String × Schema} {trail : List String} {s : Schema}
    (met : node ∈ s.met trail) (inside : inner ∈ node.2.met node.1) : inner ∈ s.met trail := by
  induction s using children_induction generalizing trail with
  | step k c ih =>
    rcases mem_met_mk.mp met with rfl | ⟨placed, listed, below⟩
    · exact inside
    · exact mem_met_mk.mpr (Or.inr ⟨placed, listed, ih placed.2 (mem_toList_of_placed listed) below⟩)

theorem member_met (trail : List String) {s member : Schema} {members : List Schema}
    (held : s.children.allOf = some members) (listed : member ∈ members) :
    ∃ i : Nat, (toString i :: "allOf" :: trail, member) ∈ s.met trail := by
  obtain ⟨k, c⟩ := s
  obtain ⟨i, bound, rfl⟩ := List.getElem_of_mem listed
  refine ⟨i, mem_met_mk.mpr (Or.inr ⟨(["allOf", toString i], members[i]), ?_, ?_⟩)⟩
  · change c.allOf = some members at held
    rw [Children.enteredPlaces_eq, held]
    simp only [List.mem_append]
    refine Or.inl (Or.inl (Or.inr ?_))
    rw [Option.getD_some, Children.mapMembers, List.mapIdx_eq_zipIdx_map]
    exact List.mem_map.mpr ⟨(members[i], i), List.mem_zipIdx_iff_getElem?.mpr (by simp), rfl⟩
  · exact mem_met_self _ _

end Schema

namespace XmlHints

/-- Nobody reads the annotation of a member. -/
theorem isRead_member {p : Position} {i : Nat} {trail : List String}
    (here : p.trail = toString i :: "allOf" :: trail) (s : Schema) : isRead p s = false := by
  simp [isRead, Position.isRoot, Position.parentKey?, Position.key?, here, Step.index_ne_items]

end XmlHints

namespace Pass
variable {dictionary : Dictionary} {options : Options} {d : Document}

theorem fades_member_finished (isPure : options.pureXml)
    (noRecords : ∀ e ∈ d.definitions, e.2.EveryMet Keywords.NoRecords)
    {node : List String × Schema}
    (met : node ∈ (leave dictionary options finishing d).definitions.met) {members : List Schema}
    (held : node.2.children.allOf = some members) {member : Schema} (listed : member ∈ members) :
    Squash.fades member = member.isIdle := by
  obtain ⟨e, stands, inside⟩ := Definitions.mem_met_iff.mp met
  obtain ⟨i, below⟩ := Schema.member_met node.1 held listed
  obtain ⟨before, stood, q, f, here, turned⟩ := exists_of_mem_met_finished
    (Definitions.mem_met_iff.mpr ⟨e, stands, Schema.met_of_met inside below⟩)
  change member = _ at turned
  have hidden : ((finisher options.pureXml options.v3Nullable).turn q before.2).keywords.xml = none := by
    rw [xml_turn_finisher, XmlHints.shown, isPure, XmlHints.isRead_member here]
    rfl
  have own := noRecords_turn_finisher options.pureXml options.v3Nullable q
    (Definitions.everyMet_iff.mp noRecords before stood)
  have clean := extra_turn_finisher options.pureXml options.v3Nullable q before.2
  generalize (finisher options.pureXml options.v3Nullable).turn q before.2 = left at turned own clean hidden
  have same : left.keywords.faded = left.keywords := by
    obtain ⟨k, c⟩ := left
    dsimp only at hidden clean own ⊢
    have cleaned : Canonical.cleanExtra k.extra = k.extra := by
      rw [clean, Canonical.cleanExtra_cleanExtra]
    rw [Keywords.faded, cleaned, ← hidden, ← own.1, ← own.2]
  rw [Squash.fades, turned, same]

/-- In pure mode what is left to squash in the end is all that was there before finishing. -/
theorem squashFree_finished_iff (isPure : options.pureXml)
    (noRecords : ∀ e ∈ d.definitions, e.2.EveryMet Keywords.NoRecords) :
    Squash.SquashFree (leave dictionary options finishing d).definitions ↔
      Squash.Lasts d.definitions := by
  rw [← lasts_finished_iff dictionary options]
  refine ⟨fun free => Squash.lasts_of_squashFree free fun node met => ?_, Squash.squashFree_of_lasts⟩
  cases held : node.2.children.allOf with
  | none => simp
  | some members =>
    intro member listed
    rw [fades_member_finished isPure noRecords met held listed]
    exact (free node met members held).busy member listed

/-- The passes of a full run up to the second squash. -/
def simplifying : List Pass :=
  [copyHierarchies, splitNillable, expandTypes, restrict, squash, collapseAnyOf, relaxChoices,
    foldRepetition, squash]

theorem beforePruning_eq : beforePruning = simplifying ++ [typeDefaults] := rfl

end Pass

namespace Document

/-- What the second squash leaves in a full run. -/
def simplified (dictionary : Dictionary) (options : Options) (d : Document) : Document :=
  Pass.leave dictionary options Pass.simplifying d

/-- What a full run finishes: typedefs are folded and attributes inlined. -/
def unfinished (dictionary : Dictionary) (options : Options) (d : Document) : Document :=
  (Attributes.run (Typedefs.run (d.pruned dictionary options)).1).1

theorem pruned_eq (dictionary : Dictionary) (options : Options) (d : Document) :
    d.pruned dictionary options =
      (Pruning.run options (Defaults.run options (d.simplified dictionary options)).1).1 := by
  rw [pruned, Pass.beforePruning_eq, Pass.leave_append, simplified]
  rfl

theorem squashFree_simplified (dictionary : Dictionary) (options : Options) (d : Document) :
    Squash.SquashFree (d.simplified dictionary options).definitions := by
  have last : Pass.simplifying = Pass.simplifying.dropLast ++ [.squash] := rfl
  rw [simplified, last, Pass.leave_append]
  exact Squash.squashFree_run _

theorem noRecords_unfinished {dictionary : Dictionary} {options : Options} {d : Document} :
    ∀ e ∈ (d.unfinished dictionary options).definitions, e.2.EveryMet Keywords.NoRecords := by
  rw [unfinished]
  exact Attributes.noRecords_run Typedefs.noRecords_run

theorem framesWithin_unfinished {dictionary : Dictionary} {options : Options} {d : Document}
    (typed : ∀ node ∈ (d.simplified dictionary options).definitions.met,
      Defaults.Typed node.2.keywords)
    (noAttribute : ∀ e ∈ (d.pruned dictionary options).definitions, ¬ e.2.isAttribute) :
    (d.unfinished dictionary options).definitions.FramesWithin
      (d.simplified dictionary options).definitions := by
  have kept : (d.pruned dictionary options).definitions.FramesWithin
      (Defaults.run options (d.simplified dictionary options)).1.definitions := by
    rw [pruned_eq]
    exact Pruning.framesWithin_run options _
  have first := Defaults.framesWithin_run options typed
  rw [unfinished, Attributes.run_of_noAttribute (Typedefs.noAttribute_run noAttribute)]
  exact Typedefs.framesWithin_run.trans (kept.trans first)

/-- The second squash of a full run leaves nothing to squash. In the end there is something to squash,
in pure mode, exactly when some node is left unsettled by typing values, folding typedefs and inlining
attributes, or has a member that says nothing but what finishing takes away. There is nothing where
these inline no reference and no member of the squashed schemas fades. -/
theorem squash_normalized_iff (dictionary : Dictionary) (options : Options) (d left : Document)
    (report : Report) (accepted : d.normalize dictionary options = (left, .ok report)) :
    Squash.run (d.simplified dictionary options) = (d.simplified dictionary options).unreported ∧
    (Squash.Lasts (d.unfinished dictionary options).definitions →
      Squash.run left = left.unreported) ∧
    (options.pureXml → (Squash.run left = left.unreported ↔
      Squash.Lasts (d.unfinished dictionary options).definitions)) ∧
    ((∀ node ∈ (d.simplified dictionary options).definitions.met, Defaults.Typed node.2.keywords) →
      (∀ e ∈ (d.pruned dictionary options).definitions, ¬ e.2.isAttribute) →
      (∀ node ∈ (d.simplified dictionary options).definitions.met,
        ∀ member ∈ node.2.children.allOf.getD [], Squash.fades member = false) →
      Squash.run left = left.unreported) := by
  have free := squashFree_simplified dictionary options d
  have finished := eq_leave_of_normalize accepted
  rw [← unfinished] at finished
  have lasting (lasts : Squash.Lasts (d.unfinished dictionary options).definitions) :
      Squash.run left = left.unreported := by
    rw [Squash.run_eq_unreported_iff, finished]
    exact Squash.squashFree_of_lasts ((Pass.lasts_finished_iff dictionary options _).mpr lasts)
  refine ⟨(Squash.run_eq_unreported_iff _).mpr free, lasting, fun isPure => ?_,
    fun typed noAttribute stays => lasting ?_⟩
  · rw [Squash.run_eq_unreported_iff, finished]
    exact Pass.squashFree_finished_iff isPure noRecords_unfinished
  · exact Squash.lasts_of_framesWithin (framesWithin_unfinished typed noAttribute)
      (Squash.lasts_of_squashFree free stays)

/-- An extension of `B` by one member. -/
def extending (member : Schema) : Document where
  raw := [("paths", .obj [("/op", .obj [("$ref", .str "#/definitions/A")])]), ("definitions", .null)]
  flavor := .definitions
  hasSlot := true
  definitions :=
    [("A", { keywords := {},
             children := { allOf := some [.ofReference (.toDefinition "B" .definitions), member] } }),
     ("B", { keywords := { type := some "object" }, children := {} })]

/-- A member with a description. -/
def described : Schema := { keywords := { description := some "more" }, children := {} }

theorem squash_normalized_iff_described :
    ∃ left, (extending described).normalize {} {} = (left, .ok {}) ∧
      Squash.run left = left.unreported := by
  obtain ⟨left, accepted⟩ : ∃ left, (extending described).normalize {} {} = (left, .ok {}) :=
    accepted_of_closed (by decide +kernel) (by decide +kernel) (by decide +kernel)
  exact ⟨left, accepted, (squash_normalized_iff {} {} _ left {} accepted).2.2.2
    (by decide +kernel) (by decide +kernel) (by decide +kernel)⟩

/-- A member with an annotation. -/
def annotated : Schema := { keywords := { xml := some { uri := some "urn:a" } }, children := {} }

/-- Finishing takes the annotation, and leaves a member that says nothing. -/
theorem emptied_member_left :
    ∃ left, (extending annotated).normalize {} {} = (left, .ok {}) ∧
      Squash.run left ≠ left.unreported := by
  obtain ⟨left, accepted⟩ : ∃ left, (extending annotated).normalize {} {} = (left, .ok {}) :=
    accepted_of_closed (by decide +kernel) (by decide +kernel) (by decide +kernel)
  refine ⟨left, accepted, fun same => ?_⟩
  rw [Squash.run_eq_unreported_iff, eq_leave_of_normalize accepted,
    Pass.squashFree_finished_iff rfl (Attributes.noRecords_run Typedefs.noRecords_run)] at same
  have stays := Squash.stays_of_lasts same
  revert stays
  decide +kernel

end Document

end SchemaGraph
