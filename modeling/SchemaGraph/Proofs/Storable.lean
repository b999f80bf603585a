import SchemaGraph.Proofs.Policy
import SchemaGraph.Proofs.ReadBack

/- Storable documents: readable, and with a name for every definition that a reference can be made
   of. Every pass leaves a storable document storable, also where it fails. -/
namespace SchemaGraph

/-- Readable schemas, and names that references can be made of. -/
def Policy.storable : Policy where
  rule := .readable
  permits name := name ≠ ""
  names_eq_nil := rfl
  permits_of_ne _ h := h
  reference_of_permits _ h := h
  skipped_redirect _ _ _ := trivial

/-- The definitions have names, and their schemas are readable. -/
abbrev Definitions.Storable (definitions : Definitions) : Prop := definitions.Within .storable

namespace Document

/-- The definitions are lifted from a slot, if there are any. -/
structure Lodged (d : Document) : Prop where
  lifted : d.Lifted
  slot : d.hasSlot = false → d.definitions = []

structure Storable (d : Document) : Prop extends d.Lodged where
  definitions : d.definitions.Storable

variable {d : Document}

theorem Storable.readable (h : d.Storable) : d.Readable := ⟨h.lifted, h.slot, h.definitions.obeys⟩

/-- Documents that differ in their definitions only are lifted alike. -/
theorem Lifted.withDefinitions (lifted : d.Lifted) (definitions : Definitions) :
    Lifted { d with definitions } := by
  cases lifted with
  | definitions slot flavored has => exact .definitions slot flavored has
  | components absent outer slot flavored has => exact .components absent outer slot flavored has
  | bare absent noSlot flavored hasNone => exact .bare absent noSlot flavored hasNone

/-- No pass adds definitions to none. -/
theorem Lodged.withDefinitions (h : d.Lodged) {definitions : Definitions}
    (empty : d.definitions = [] → definitions = []) : Lodged { d with definitions } :=
  ⟨h.lifted.withDefinitions definitions, fun noSlot => empty (h.slot noSlot)⟩

theorem Lodged.rewritten (h : d.Lodged) {R : Rule} {α : Type} {out : Document × Except Error α}
    (rewritten : d.Rewritten R out) : out.1.Lodged := by
  rw [rewritten.outer]
  refine h.withDefinitions fun empty => ?_
  have same := rewritten.keys
  rw [empty] at same
  exact List.map_eq_nil_iff.mp (List.perm_nil.mp same)

theorem Lodged.rename (h : d.Lodged) (names : Renaming) : (d.rename names).Lodged where
  lifted := h.lifted.rename names
  slot noSlot := by
    rw [Document.rename, Definitions.rename, h.slot noSlot]
    rfl

end Document

theorem Pruning.lodged_run (options : Options) {d : Document} (h : d.Lodged) :
    (run options d).1.Lodged := by
  refine h.withDefinitions fun empty => ?_
  rw [empty]
  rfl

/-- Where the schemas obey the rule that asks nothing, inlining only fails where its walk fails. -/
theorem Attributes.lodged_run {d : Document} (h : d.Lodged) : (run d).1.Lodged := by
  have walked := h.rewritten (Document.rewritten_walkAfter d.definitions.grounded_any
    fun _ grounded position _ => after_ends grounded (attributes d) position)
  refine of_run h walked fun left keep lodged => lodged.withDefinitions fun empty => ?_
  rw [empty]
  rfl

theorem Typedefs.lodged_run {d : Document} (h : d.Lodged) : (run d).1.Lodged := by
  have stripped : (d.changeAfter strip).Lodged :=
    h.rewritten (Document.rewritten_changeAfter d.definitions.grounded_any fun position _ =>
      obeys_strip position)
  rw [run_eq]
  refine Document.Lodged.rename (stripped.withDefinitions fun empty => ?_) _
  have none : newNames d = [] := by
    rw [newNames, empty]
    rfl
  rw [none, empty]
  rfl

theorem NilSplit.lodged_run (options : Options) {d : Document} (h : d.Lodged) :
    (run options d).1.Lodged := by
  rw [run_eq]
  refine h.withDefinitions fun empty => ?_
  have none : NilSplit.turned options d = [] := by
    rw [NilSplit.turned, empty]
    rfl
  rw [none]
  cases nillableNames options d <;> rfl

namespace HierarchyCopies

theorem lodged_replaced (dictionary : Dictionary) (options : Options) {d : Document}
    (h : d.Lodged) : (replaced dictionary options d).1.Lodged := by
  unfold replaced
  dsimp only
  split
  · unfold replaceElements
    refine (h.rename (elements dictionary options d)).withDefinitions fun empty => ?_
    rw [empty]
    exact List.foldlRecOn (motive := fun t : Definitions => t = []) _ _ rfl
      fun t empty name _ => by rw [empty]; rfl
  · exact h

theorem lodged_run (dictionary : Dictionary) (options : Options) {d : Document} (h : d.Lodged) :
    (run dictionary options d).1.Lodged := by
  have replaced := lodged_replaced dictionary options h
  rw [run_eq]
  generalize HierarchyCopies.replaced dictionary options d = out at replaced ⊢
  refine replaced.withDefinitions fun empty => ?_
  rw [empty]
  rfl

end HierarchyCopies

namespace Pass

theorem lodged_run (dictionary : Dictionary) (options : Options) {d : Document} (h : d.Lodged)
    (pass : Pass) : (pass.run dictionary options d).1.Lodged := by
  have content (member : pass ∈ contentOnly) : (pass.run dictionary options d).1.Lodged :=
    h.rewritten (run_rewritten dictionary options member d.definitions.grounded_any)
  cases pass with
  | copyHierarchies => exact HierarchyCopies.lodged_run dictionary options h
  | splitNillable => exact NilSplit.lodged_run options h
  | prune => exact Pruning.lodged_run options h
  | cleanTypedefs => exact Typedefs.lodged_run h
  | inlineAttributes => exact Attributes.lodged_run h
  | _ => exact content (by decide)

/-- Every pass, also where it fails. -/
theorem storable_run (dictionary : Dictionary) (options : Options) {d : Document} (h : d.Storable)
    (pass : Pass) : (pass.run dictionary options d).1.Storable :=
  ⟨pass.lodged_run dictionary options h.toLodged, pass.within_run dictionary options h.definitions⟩

end Pass
end SchemaGraph
