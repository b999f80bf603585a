import SchemaGraph.Proofs.Outline
import SchemaGraph.Proofs.Pruning
import SchemaGraph.Proofs.Runs
import SchemaGraph.Proofs.Unique

/- Orphans of a full run. -/
namespace SchemaGraph

namespace Pruning
variable {definitions : Definitions} {root : String → Prop}

/-- What is needed with a definition: what it refers to, and the extensions of the polymorphic
definitions that it uses as values. -/
def Brings (definitions : Definitions) (name other : String) : Prop :=
  ∃ s, definitions.get? name = some s ∧ ∃ o ∈ s.occurrences, o.reference.name = other ∨
    (o.structural = false ∧ isPolymorphic definitions o.reference.name ∧
      other ∈ definitions.extensions o.reference.name)

theorem Needed.brings {name other : String} (needed : Needed definitions root name)
    (brings : Brings definitions name other) : Needed definitions root other := by
  obtain ⟨s, found, o, occurs, rfl | ⟨value, polymorphic, extension⟩⟩ := brings
  · exact .reference needed found occurs
  · exact .extension needed found occurs value polymorphic extension

theorem Brings.mem_keys {name other : String} (brings : Brings definitions name other) :
    name ∈ definitions.keys := by
  obtain ⟨s, found, _⟩ := brings
  exact (Table.exists_get?_iff _ _).mp ⟨s, found⟩

/-- What holds of the roots, and of whatever is brought along by what it holds of, holds of all that
is needed. -/
theorem Needed.closed {motive : String → Prop} (roots : ∀ name, root name → motive name)
    (step : ∀ name other, motive name → Brings definitions name other → motive other)
    {name : String} (needed : Needed definitions root name) : motive name := by
  induction needed with
  | root isRoot => exact roots _ isRoot
  | reference _ found occurs ih => exact step _ _ ih ⟨_, found, _, occurs, Or.inl rfl⟩
  | extension _ found occurs value polymorphic extension ih =>
    exact step _ _ ih ⟨_, found, _, occurs, Or.inr ⟨value, polymorphic, extension⟩⟩

end Pruning

open Pruning (Needed Brings Rooted)

/-- Every definition is needed, where elements are not kept for themselves. -/
def Document.OrphanFree (d : Document) : Prop :=
  ∀ name ∈ d.definitions.keys, Needed d.definitions (Rooted false d) name

section
variable {before after : Definitions} (distinct : before.Distinct)
  (same : after.outline = before.outline)
include same

theorem Pruning.isPolymorphic_of_outline (name : String) :
    isPolymorphic after name = isPolymorphic before name := by
  have seen (definitions : Definitions) : isPolymorphic definitions name =
      (definitions.outline name).any fun o => o.polymorphic.any Json.isTruthy := by
    rw [isPolymorphic, Definitions.outline]
    cases definitions.get? name <;> rfl
  rw [seen, seen, same]

theorem Definitions.exists_get?_of_outline {name : String} {s : Schema}
    (found : before.get? name = some s) : ∃ t, after.get? name = some t ∧ t.outline = s.outline := by
  have here := congrFun same name
  rw [outline, outline, found, Option.map_some, Option.map_eq_some_iff] at here
  exact here

include distinct

theorem Definitions.ExtensionOf.retrace {base name : String} {s : Schema}
    (extension : ExtensionOf before base name s) :
    ∃ t, ExtensionOf after base name t ∧ t.outline = s.outline := by
  have still {name base : String} {s : Schema} (member : (name, s) ∈ before) (h : Extends s base) :
      ∃ t, (name, t) ∈ after ∧ Extends t base ∧ t.outline = s.outline := by
    obtain ⟨t, found, alike⟩ := exists_get?_of_outline same (Table.get?_of_mem distinct member)
    refine ⟨t, Table.mem_of_get? found, ?_, alike⟩
    have bases : t.base? = s.base? := congrArg Outline.base alike
    rw [Extends, bases]
    exact h
  induction extension with
  | direct member extendsBase =>
    obtain ⟨t, there, extendsToo, alike⟩ := still member extendsBase
    exact ⟨t, .direct there extendsToo, alike⟩
  | through _ marked member extendsMiddle ih =>
    obtain ⟨m, before, sameMiddle⟩ := ih
    obtain ⟨t, there, extendsToo, alike⟩ := still member extendsMiddle
    refine ⟨t, .through before ?_ there extendsToo, alike⟩
    have marks := congrArg Outline.polymorphic sameMiddle
    change m.keywords.polymorphic = _ at marks
    rw [marks]
    exact marked

theorem Pruning.Brings.retrace {name other : String} (brings : Brings before name other) :
    Brings after name other := by
  obtain ⟨s, found, o, occurs, why⟩ := brings
  obtain ⟨t, there, alike⟩ := Definitions.exists_get?_of_outline same found
  have occurrences : t.occurrences = s.occurrences :=
    congrFun (congrArg Outline.occurrences alike) false
  refine ⟨t, there, o, occurrences ▸ occurs, why.imp_right ?_⟩
  rintro ⟨value, polymorphic, extension⟩
  obtain ⟨e, inside⟩ := (Definitions.mem_extensions_iff _ _ _).mp extension
  obtain ⟨e, inside, _⟩ := inside.retrace distinct same
  exact ⟨value, by rwa [isPolymorphic_of_outline same],
    (Definitions.mem_extensions_iff _ _ _).mpr ⟨e, inside⟩⟩

end

namespace Document
variable {d after : Document}

theorem rooted_false_iff (d : Document) (name : String) : Rooted false d name ↔
    name ∈ d.definitions.keys ∧ (name = Pruning.security ∨ Pruning.headerSuffix <:+ name.toList ∨
      ∃ o ∈ d.pathOccurrences, o.reference.name = name) := by
  simp [Rooted, Table.mem_keys_iff]

theorem Retraced.symm (h : d.Retraced after) (distinct : d.definitions.Distinct) :
    after.Retraced d := ⟨h.raw.symm, h.keys.symm, fun _ => (h.outline distinct).symm⟩

theorem Retraced.rooted (h : d.Retraced after) {name : String} (rooted : Rooted false d name) :
    Rooted false after name := by
  rw [rooted_false_iff] at rooted ⊢
  rw [h.keys.mem_iff, pathOccurrences, paths?, h.raw]
  exact rooted

theorem Retraced.needed (h : d.Retraced after) (distinct : d.definitions.Distinct) {name : String}
    (needed : Needed d.definitions (Rooted false d) name) :
    Needed after.definitions (Rooted false after) name :=
  needed.closed (fun _ rooted => .root (h.rooted rooted)) fun _ _ needed brings =>
    needed.brings (brings.retrace distinct (h.outline distinct))

theorem Retraced.orphanFree (h : d.Retraced after) (distinct : d.definitions.Distinct)
    (orphanFree : d.OrphanFree) : after.OrphanFree := fun name listed =>
  h.needed distinct (orphanFree name (h.keys.mem_iff.mp listed))

/-- Whether there are orphans is seen in the operations and the outlines. -/
theorem Retraced.orphanFree_iff (h : d.Retraced after) (distinct : d.definitions.Distinct) :
    after.OrphanFree ↔ d.OrphanFree :=
  ⟨(h.symm distinct).orphanFree (h.distinct distinct), h.orphanFree distinct⟩

end Document

namespace Pruning
variable {options : Options} {d : Document}

section
variable (distinct : d.definitions.Distinct)
include distinct

theorem get?_run {name : String} {s : Schema} (kept : Kept options d name)
    (found : d.definitions.get? name = some s) :
    (run options d).1.definitions.get? name = some s :=
  Table.get?_of_mem (Table.distinct_filter distinct _)
    ((mem_run_iff distinct options name s).mpr ⟨Table.mem_of_get? found, kept⟩)

/-- What a kept definition brings along, it still brings along. -/
theorem Brings.run {name other : String} (kept : Kept options d name)
    (brings : Brings d.definitions name other) :
    Brings (run options d).1.definitions name other := by
  obtain ⟨s, found, o, occurs, why⟩ := brings
  refine ⟨s, get?_run distinct kept found, o, occurs, why.imp_right ?_⟩
  rintro ⟨value, polymorphic, extension⟩
  have usedKept : Kept options d o.reference.name := .reference kept found occurs
  have marked : isPolymorphic (Pruning.run options d).1.definitions o.reference.name := by
    obtain ⟨b, stood, marks⟩ := (isPolymorphic_iff _ _).mp polymorphic
    exact (isPolymorphic_iff _ _).mpr ⟨b, get?_run distinct usedKept stood, marks⟩
  -- Every extension on the way is one that the use keeps.
  have onTheWay (e : String) (t : Schema)
      (inside : Definitions.ExtensionOf d.definitions o.reference.name e t) :
      (e, t) ∈ (Pruning.run options d).1.definitions :=
    (mem_run_iff distinct options e t).mpr ⟨inside.mem, .extension kept found occurs value
      polymorphic ((Definitions.mem_extensions_iff _ _ _).mpr ⟨t, inside⟩)⟩
  obtain ⟨e, inside⟩ := (Definitions.mem_extensions_iff _ _ _).mp extension
  refine ⟨value, marked, (Definitions.mem_extensions_iff _ _ _).mpr ⟨e, ?_⟩⟩
  clear why extension
  induction inside with
  | direct member extendsBase =>
    exact .direct (onTheWay _ _ (.direct member extendsBase)) extendsBase
  | through before marks member extendsMiddle ih =>
    exact .through ih marks (onTheWay _ _ (.through before marks member extendsMiddle)) extendsMiddle

/-- Pruning leaves no orphan. -/
theorem orphanFree_run (noElements : options.keepRootElements = false) :
    (run options d).1.OrphanFree := by
  have still {name : String} (kept : Kept options d name) : Kept options d name ∧
      Needed (run options d).1.definitions (Rooted false (run options d).1) name := by
    refine Needed.closed (motive := fun name => Kept options d name ∧
      Needed (run options d).1.definitions (Rooted false (run options d).1) name)
      (fun name rooted => ?_) (fun name other known brings => ?_) kept
    · rw [noElements] at rooted
      have isKept : Kept options d name := .root (noElements ▸ rooted)
      obtain ⟨s, member, why⟩ := rooted
      exact ⟨isKept, .root ⟨s, (mem_run_iff distinct options name s).mpr ⟨member, isKept⟩, why⟩⟩
    · exact ⟨known.1.brings brings, known.2.brings (brings.run distinct known.1)⟩
  intro name listed
  exact (still ((mem_keys_run_iff distinct options name).mp listed).2).2

end

end Pruning

/-- The new name of a definition, its own if it has no other. -/
def Renaming.newName (names : Renaming) (name : String) : String := (names.get? name).getD name

theorem Renaming.newName_of_not_mem {names : Renaming} {name : String} (other : name ∉ names.keys) :
    names.newName name = name := by
  rw [newName, (Table.get?_eq_none_iff _ _).mpr other, Option.getD_none]

namespace Typedefs
variable {d : Document}

/-- A name that is given up and not vacated was taken again. -/
theorem mem_values_of_not_vacated {name : String} {names : Renaming} (given : name ∈ names.keys)
    (taken : ¬ Vacated name names) : name ∈ names.values := by
  induction names with
  | nil => cases given
  | cons entry rest ih =>
    obtain ⟨notHere, notLater⟩ := not_or.mp taken
    rcases List.mem_cons.mp given with rfl | later
    · exact List.mem_cons_of_mem _ (not_not.mp fun unlisted => notHere ⟨rfl, unlisted⟩)
    · exact List.mem_cons_of_mem _ (ih later notLater)

/-- Every definition that is left has the new name of one that was there. -/
theorem exists_newName_of_mem_keys_run (distinct : d.definitions.Distinct) {name : String}
    (left : name ∈ (run d).1.definitions.keys) :
    ∃ old ∈ d.definitions.keys, (newNames d).newName old = name := by
  obtain ⟨known, kept⟩ := (mem_keys_run_iff distinct name).mp left
  have retaken (given : name ∈ (newNames d).values) :
      ∃ old ∈ d.definitions.keys, (newNames d).newName old = name := by
    obtain ⟨⟨old, type⟩, renamed, rfl⟩ := List.mem_map.mp given
    refine ⟨old, (mem_newNames renamed).1, ?_⟩
    rw [Renaming.newName, Table.get?_of_mem (distinct_newNames distinct) renamed, Option.getD_some]
  by_cases given : name ∈ (newNames d).keys
  · exact retaken (mem_values_of_not_vacated given kept)
  · rcases known with stood | taken
    · refine ⟨name, stood, ?_⟩
      exact Renaming.newName_of_not_mem given
    · exact retaken taken

/-- Without typedefs the records go and nothing else changes. -/
theorem run_of_noTypedef (noTypedef : ∀ name ∈ d.definitions.keys, ¬ isTypedef name) :
    (run d).1 = d.changeAfter strip := by
  have noNames : newNames d = [] := by
    refine List.eq_nil_iff_forall_not_mem.mpr fun e renamed => ?_
    obtain ⟨known, typedef, _⟩ := mem_newNames renamed
    exact noTypedef e.1 known typedef
  rw [run_eq, folded, noNames]
  exact Document.rename_nil _

/-- The records of a node lead nowhere. -/
def Unrecorded (k : Keywords) : Prop := k.ancestor = none ∧ k.descendants.getD [] = []

theorem outline_strip (position : Position) {s : Schema} (unrecorded : Unrecorded s.keywords) :
    (strip position s).outline = s.outline := by
  obtain ⟨k, c⟩ := s
  obtain ⟨noAncestor, noDescendants⟩ := unrecorded
  have references (structural : Bool) : Keywords.references { k with
      ancestor := none, descendants := none,
      uniqueName := k.uniqueName.map typeName } structural = k.references structural := by
    simp only [Keywords.references]
    rw [noAncestor, noDescendants]
    rfl
  rw [strip, Schema.outline_mk, Schema.outline_mk, Outline.of, Outline.of]
  simp only [references]

theorem retraced_strip (unrecorded : ∀ e ∈ d.definitions, e.2.Every Unrecorded) :
    d.Retraced (d.changeAfter strip) where
  raw := rfl
  keys := .of_eq (keys_stripped d)
  outline _ := Definitions.outline_change (v := ⟨fun _ s => s, strip⟩) d.flavor
    (fun _ _ every => ⟨every, rfl⟩) (fun position _ own => outline_strip position own) unrecorded

theorem noAttribute_stripped (noAttribute : ∀ e ∈ d.definitions, ¬ e.2.isAttribute) :
    ∀ e ∈ (d.changeAfter strip).definitions, ¬ e.2.isAttribute := by
  have same (levels : Nat) (position : Position) (s : Schema) :
      Schema.isAttribute (s.walk ⟨fun _ s => s, strip⟩ levels position : Id Schema) =
        s.isAttribute := by
    cases levels <;> rfl
  intro _ member
  obtain ⟨e, stood, rfl⟩ := List.mem_map.mp member
  exact fun isAttribute => noAttribute e stood ((same _ _ _).symm.trans isAttribute)

end Typedefs

namespace Attributes
variable {d : Document}

theorem run_of_noAttribute (noAttribute : ∀ e ∈ d.definitions, ¬ e.2.isAttribute) :
    (run d).1 = d := by
  have none : d.definitions.filter (fun entry => entry.2.isAttribute) = [] :=
    List.filter_eq_nil_iff.mpr noAttribute
  rw [run]
  dsimp only
  rw [none]
  rfl

end Attributes

namespace Pass

theorem distinct_leave (dictionary : Dictionary) (options : Options) (passes : List Pass)
    {d : Document} (distinct : d.definitions.Distinct) :
    (leave dictionary options passes d).definitions.Distinct :=
  List.foldlRecOn (motive := fun d : Document => d.definitions.Distinct) passes _ distinct
    fun _ distinct pass _ => pass.distinct_run dictionary options distinct

/-- The passes of a full run before pruning. -/
def beforePruning : List Pass :=
  [copyHierarchies, splitNillable, expandTypes, restrict, squash, collapseAnyOf, relaxChoices,
    foldRepetition, squash, typeDefaults]

/-- The passes after the attributes were inlined. -/
def finishing : List Pass := [placeXmlHints, dropEmptyQualifiers, canonicalize, sort]

theorem finishing_subset_contentOnly : ∀ pass ∈ finishing, pass ∈ contentOnly := by decide

theorem sequence_eq :
    sequence = beforePruning ++ [prune, cleanTypedefs, inlineAttributes] ++ finishing := rfl

theorem retraced_finishing (dictionary : Dictionary) (options : Options) (d : Document) :
    d.Retraced (leave dictionary options finishing d) :=
  ((XmlHints.retraced_run options.pureXml d).trans (XmlHints.retraced_dropEmptyQualifiers _)).trans
    ((Canonical.retraced_run options _).trans (Canonical.retraced_sort _))

theorem sound_finishing (dictionary : Dictionary) (options : Options) {names : List String}
    {d : Document} (sound : d.Sound names) :
    (leave dictionary options finishing d).Sound names :=
  List.foldlRecOn (motive := fun d : Document => d.Sound names) finishing _ sound
    fun _ sound pass member =>
      (run_settled dictionary options (finishing_subset_contentOnly pass member) sound).1

end Pass

namespace Document

/-- What pruning leaves in a full run. -/
def pruned (dictionary : Dictionary) (options : Options) (d : Document) : Document :=
  (Pruning.run options (Pass.leave dictionary options Pass.beforePruning d)).1

/-- The name under which a full run leaves a definition that pruning keeps. -/
def finalName (dictionary : Dictionary) (options : Options) (d : Document) : String → String :=
  (Typedefs.newNames (d.pruned dictionary options)).newName

/-- A definition that is left under another name has lost a reason why it was needed. -/
def Loses (newName : String → String) (before after : Document) (name : String) : Prop :=
  (Rooted false before name ∧ ¬ Rooted false after (newName name)) ∨
    ∃ other, Brings before.definitions other name ∧
      ¬ Brings after.definitions (newName other) (newName name)

theorem distinct_pruned (dictionary : Dictionary) (options : Options) {d : Document}
    (distinct : d.definitions.Distinct) : (d.pruned dictionary options).definitions.Distinct :=
  Pass.distinct_run dictionary options
    (Pass.distinct_leave dictionary options Pass.beforePruning distinct) .prune

variable {d left : Document} {dictionary : Dictionary} {options : Options} {report : Report}

theorem eq_leave_of_normalize (accepted : d.normalize dictionary options = (left, .ok report)) :
    left = Pass.leave dictionary options Pass.finishing
      (Attributes.run (Typedefs.run (d.pruned dictionary options)).1).1 := by
  rw [(of_normalize accepted).1, Pass.sequence_eq, Pass.leave_append, Pass.leave_append]
  rfl

/-- A definition of what a full run leaves was kept by pruning, perhaps under another name. -/
theorem exists_finalName_of_normalize (distinct : d.definitions.Distinct)
    (accepted : d.normalize dictionary options = (left, .ok report)) {name : String}
    (listed : name ∈ left.definitions.keys) :
    ∃ old ∈ (d.pruned dictionary options).definitions.keys,
      d.finalName dictionary options old = name := by
  rw [eq_leave_of_normalize accepted, (Pass.retraced_finishing dictionary options _).keys.mem_iff]
    at listed
  exact Typedefs.exists_newName_of_mem_keys_run (distinct_pruned dictionary options distinct)
    ((Attributes.keys_run _).subset listed)

/-- Without typedefs and attributes only the records go. -/
theorem retraced_of_normalize
    (accepted : d.normalize dictionary options = (left, .ok report))
    (noTypedef : ∀ name ∈ (d.pruned dictionary options).definitions.keys, ¬ Typedefs.isTypedef name)
    (noAttribute : ∀ e ∈ (d.pruned dictionary options).definitions, ¬ e.2.isAttribute) :
    ((d.pruned dictionary options).changeAfter Typedefs.strip).Retraced left := by
  rw [eq_leave_of_normalize accepted, Typedefs.run_of_noTypedef noTypedef,
    Attributes.run_of_noAttribute (Typedefs.noAttribute_stripped noAttribute)]
  exact Pass.retraced_finishing dictionary options _

/-- Pruning leaves no orphan. What a full run leaves has none exactly when each definition that
lost a reason for which pruning kept it is needed still. Where nothing is folded or inlined, the
reasons that are lost are the records of ancestors and descendants, so that no orphan is left when
there are none. -/
theorem orphanFree_normalize_iff (dictionary : Dictionary) (options : Options) (d left : Document)
    (report : Report) (distinct : d.definitions.Distinct)
    (noElements : options.keepRootElements = false)
    (accepted : d.normalize dictionary options = (left, .ok report)) :
    (d.pruned dictionary options).OrphanFree ∧
    (left.OrphanFree ↔ ∀ name, d.finalName dictionary options name ∈ left.definitions.keys →
      Loses (d.finalName dictionary options) (d.pruned dictionary options) left name →
      Needed left.definitions (Rooted false left) (d.finalName dictionary options name)) ∧
    ((∀ name ∈ (d.pruned dictionary options).definitions.keys, ¬ Typedefs.isTypedef name) →
      (∀ e ∈ (d.pruned dictionary options).definitions, ¬ e.2.isAttribute) →
      (left.OrphanFree ↔ ((d.pruned dictionary options).changeAfter Typedefs.strip).OrphanFree) ∧
      ((∀ e ∈ (d.pruned dictionary options).definitions, e.2.Every Typedefs.Unrecorded) →
        left.OrphanFree)) := by
  have orphanFree : (d.pruned dictionary options).OrphanFree := Pruning.orphanFree_run
    (Pass.distinct_leave dictionary options Pass.beforePruning distinct) noElements
  refine ⟨orphanFree, ⟨fun free name listed _ => free _ listed, ?_⟩, ?_⟩
  · intro anyway _ listed
    obtain ⟨old, stood, rfl⟩ := exists_finalName_of_normalize distinct accepted listed
    refine Needed.closed (motive := fun name =>
      d.finalName dictionary options name ∈ left.definitions.keys →
        Needed left.definitions (Rooted false left) (d.finalName dictionary options name))
      (fun name rooted listed => ?_) (fun name other ih brings listed => ?_) (orphanFree old stood)
      listed
    · by_cases still : Rooted false left (d.finalName dictionary options name)
      · exact .root still
      · exact anyway name listed (Or.inl ⟨rooted, still⟩)
    · by_cases still : Brings left.definitions (d.finalName dictionary options name)
          (d.finalName dictionary options other)
      · exact (ih still.mem_keys).brings still
      · exact anyway other listed (Or.inr ⟨name, brings, still⟩)
  · intro noTypedef noAttribute
    have finished := retraced_of_normalize accepted noTypedef noAttribute
    have stripped : ((d.pruned dictionary options).changeAfter
        Typedefs.strip).definitions.Distinct := by
      rw [Table.Distinct, Typedefs.keys_stripped]
      exact distinct_pruned dictionary options distinct
    refine ⟨finished.orphanFree_iff stripped, fun unrecorded => ?_⟩
    exact finished.orphanFree stripped ((Typedefs.retraced_strip unrecorded).orphanFree
      (distinct_pruned dictionary options distinct) orphanFree)

/-- A definition with a record of its descendant. -/
def recording (properties : Option (Table Schema)) : Document where
  raw := [("paths", .obj [("/op", .obj [("$ref", .str "#/definitions/A")])]), ("definitions", .null)]
  flavor := .definitions
  hasSlot := true
  definitions :=
    [("A", { keywords := { type := some "object",
                           descendants := some [.toDefinition "B" .definitions] },
             children := { properties } }),
      ("B", { keywords := { type := some "string" } })]

/-- A run is accepted when the document is closed before the passes that only finish it. -/
theorem accepted_of_closed
    (ran : (Pass.runAll dictionary options Pass.sequence {} d).2.toOption = some report)
    (closed : (Attributes.run (Typedefs.run (d.pruned dictionary options)).1).1.Closed)
    (plain : (Attributes.run (Typedefs.run (d.pruned dictionary options)).1).1.Plain) :
    ∃ left, d.normalize dictionary options = (left, .ok report) := by
  rw [normalize]
  generalize done : Pass.runAll dictionary options Pass.sequence {} d = out at ran
  obtain ⟨left, _ | result⟩ := out
  · cases ran
  · cases ran
    have finished := Pass.leave_of_runAll done
    rw [Pass.sequence_eq, Pass.leave_append, Pass.leave_append] at finished
    have leftClosed : left.Closed := by
      rw [finished]
      exact (Pass.sound_finishing dictionary options (sound_of_closed closed plain)).closed
    refine ⟨left, ?_⟩
    dsimp only
    rw [verify, leftClosed]
    rfl

/-- A property refers to the descendant as well. -/
def referring : Document := recording (some [("b", Pruning.useOf "B")])

theorem orphanFree_normalize_iff_referring :
    ∃ left, referring.definitions.Distinct ∧ ({} : Options).keepRootElements = false ∧
      referring.normalize {} {} = (left, .ok {}) ∧ (referring.pruned {} {}).OrphanFree ∧
      (left.OrphanFree ↔ ((referring.pruned {} {}).changeAfter Typedefs.strip).OrphanFree) := by
  have distinct : referring.definitions.Distinct := by decide
  obtain ⟨left, accepted⟩ : ∃ left, referring.normalize {} {} = (left, .ok {}) :=
    accepted_of_closed (by decide +kernel) (by decide +kernel) (by decide +kernel)
  obtain ⟨pruned, _, without⟩ :=
    orphanFree_normalize_iff {} {} referring left {} distinct rfl accepted
  exact ⟨left, distinct, rfl, accepted, pruned,
    (without (by decide +kernel) (by decide +kernel)).1⟩

/-- The record is all that `B` is kept for, and the record goes. -/
theorem recorded_left_orphan : ∃ left, (recording none).definitions.Distinct ∧
    (recording none).normalize {} {} = (left, .ok {}) ∧ ¬ left.OrphanFree := by
  obtain ⟨left, accepted⟩ : ∃ left, (recording none).normalize {} {} = (left, .ok {}) :=
    accepted_of_closed (by decide +kernel) (by decide +kernel) (by decide +kernel)
  refine ⟨left, by decide, accepted, fun orphanFree => ?_⟩
  have finished := retraced_of_normalize accepted (by decide +kernel) (by decide +kernel)
  have needed := (finished.orphanFree_iff (by decide +kernel)).mp orphanFree "B" (by decide +kernel)
  generalize stood : ((recording none).pruned {} {}).changeAfter Typedefs.strip = stripped at needed
  have root : ∀ name ∈ stripped.definitions.keys, (name = Pruning.security ∨
      Pruning.headerSuffix <:+ name.toList ∨
      ∃ o ∈ stripped.pathOccurrences, o.reference.name = name) → name = "A" := by
    rw [← stood]
    decide +kernel
  have silent : (stripped.definitions.get? "A").map Schema.occurrences = some [] := by
    rw [← stood]
    decide +kernel
  have only := needed.closed (motive := (· = "A"))
    (fun name rooted => root name ((rooted_false_iff _ _).mp rooted).1
      ((rooted_false_iff _ _).mp rooted).2)
    (fun name other same brings => by
      obtain ⟨s, found, o, occurs, _⟩ := brings
      rw [same] at found
      rw [found, Option.map_some, Option.some.injEq] at silent
      rw [silent] at occurs
      cases occurs)
  exact absurd only (by decide)

end Document

end SchemaGraph
