import SchemaGraph.Proofs.Attributes
import SchemaGraph.Proofs.Orphans
import SchemaGraph.Proofs.RawTexts

/- The raw part of a document in a full run. Only the replacement of elements and the cleanup of
   typedefs come to it, each with a redirection; so only texts change, where redirections turn them
   and where they name what was replaced or folded. -/
namespace SchemaGraph

theorem Document.raw_rename (d : Document) (names : Renaming) :
    (d.rename names).raw = d.raw.mapValues (Json.mapTexts (Json.redirectAt names.apply?) []) := by
  rw [rename, funext (Json.redirect_eq names.apply?)]

namespace Document
variable (dictionary : Dictionary) (options : Options) (d : Document)

/-- The candidates among the elements with their types, where the copies that they would take are
too many; none otherwise. -/
def replacedElements : Renaming :=
  let elements := HierarchyCopies.elements dictionary options d
  if HierarchyCopies.threshold < HierarchyCopies.copiesFor
      (HierarchyCopies.plans d.definitions options.maxDepth) d.definitions options.maxDepth
      elements.keys then elements
  else []

/-- The typedefs that a full run folds with the names of their types; none where it fails before. -/
def foldedTypedefs : Renaming :=
  match Pass.runAll dictionary options (Pass.beforePruning ++ [.prune]) {} d with
  | (left, .ok _) => Typedefs.newNames left
  | (_, .error _) => []

end Document

theorem HierarchyCopies.raw_run (dictionary : Dictionary) (options : Options) (d : Document) :
    (run dictionary options d).1.raw = (d.rename (d.replacedElements dictionary options)).raw := by
  rw [run_eq, replaced, Document.replacedElements]
  dsimp only
  split
  · rfl
  · rw [Document.rename_nil]

theorem Attributes.raw_run (d : Document) : (run d).1.raw = d.raw :=
  of_run (motive := (·.raw = d.raw)) rfl rfl fun _ _ => id

theorem Typedefs.raw_run (d : Document) : (run d).1.raw = (d.rename (newNames d)).raw := by
  rw [run_eq]
  rfl

namespace Pass
variable (dictionary : Dictionary) (options : Options)

/-- All other passes leave the raw part alone, also where they fail. -/
theorem raw_run (d : Document) {pass : Pass} (noCopies : pass ≠ copyHierarchies)
    (noTypedefs : pass ≠ cleanTypedefs) : (pass.run dictionary options d).1.raw = d.raw := by
  have content (member : pass ∈ contentOnly) : (pass.run dictionary options d).1.raw = d.raw := by
    rw [(run_rewritten dictionary options member d.definitions.grounded_any).outer]
  cases pass with
  | copyHierarchies => exact absurd rfl noCopies
  | splitNillable => rw [run, NilSplit.run_eq]
  | prune => rfl
  | cleanTypedefs => exact absurd rfl noTypedefs
  | inlineAttributes => exact Attributes.raw_run d
  | _ => exact content (by decide)

theorem raw_runAll {passes : List Pass}
    (others : ∀ pass ∈ passes, pass ≠ copyHierarchies ∧ pass ≠ cleanTypedefs) (report : Report)
    (d : Document) : (runAll dictionary options passes report d).1.raw = d.raw := by
  induction passes generalizing report d with
  | nil => rfl
  | cons pass rest ih =>
    obtain ⟨noCopies, noTypedefs⟩ := others pass List.mem_cons_self
    have kept := raw_run dictionary options d noCopies noTypedefs
    rw [runAll]
    generalize pass.run dictionary options d = out at kept ⊢
    obtain ⟨next, _ | own⟩ := out
    · exact kept
    · exact (ih (fun pass later => others pass (List.mem_cons_of_mem _ later)) _ next).trans kept

/-- Up to the cleanup of typedefs only the replacement of elements comes to the raw part. -/
theorem raw_runAll_pruning (d : Document) :
    (runAll dictionary options (beforePruning ++ [prune]) {} d).1.raw =
      (d.rename (d.replacedElements dictionary options)).raw := by
  rw [← HierarchyCopies.raw_run dictionary options d]
  exact raw_runAll dictionary options (by decide) _ (HierarchyCopies.run dictionary options d).1

end Pass

/-- What two renamings in a row make of a reference; nothing where neither has a name for it. -/
def Reference.renamedBy (first second : Renaming) (r : Reference) : Option Reference :=
  if r.name ∈ first.keys ∨ r.name ∈ second.keys then
    some (r.renamed (second.newName (first.newName r.name)))
  else none

theorem Renaming.apply?_eq (names : Renaming) (r : Reference) : names.apply? r =
    if r.name ∈ names.keys then some (r.renamed (names.newName r.name)) else none := by
  rw [ Renaming.apply?, newName]
  cases found : names.get? r.name with
  | none => rw [if_neg ((Table.get?_eq_none_iff _ _).mp found), Option.map_none]
  | some name =>
    rw [if_pos ((Table.exists_get?_iff _ _).mp ⟨name, found⟩), Option.map_some, Option.getD_some]

namespace Keywords

/-- A reference that was written for another name is turned like one that stood there. -/
theorem redirectText_renamed {names : Renaming} (unnamed : "" ∉ names.keys) (r : Reference)
    (name : String) : redirectText names.apply? (r.renamed name).raw =
      (r.renamed (names.newName name)).raw := by
  by_cases empty : name = ""
  · have unread : Reference.parse? (r.renamed name).raw = none := by
      rw [Reference.parse?_raw_eq]
      exact if_pos empty
    rw [redirectText_of_parse?_eq_none unread, Renaming.newName_of_not_mem (empty ▸ unnamed)]
  · have read : Reference.parse? (r.renamed name).raw = some (r.renamed name) :=
      Reference.parse?_raw empty
    rw [redirectText_of_parse? read, Renaming.apply?_eq]
    split
    · rfl
    · rename_i other
      rw [show names.newName name = name from Renaming.newName_of_not_mem other]
      rfl

theorem redirectText_renamedBy {first second : Renaming} (unnamed : "" ∉ second.keys)
    (raw : String) : redirectText second.apply? (redirectText first.apply? raw) =
      redirectText (Reference.renamedBy first second) raw := by
  cases read : Reference.parse? raw with
  | none => rw [redirectText_of_parse?_eq_none read, redirectText_of_parse?_eq_none read,
      redirectText_of_parse?_eq_none read]
  | some r =>
    rw [redirectText_of_parse? read, redirectText_of_parse? read, Renaming.apply?_eq,
      Reference.renamedBy]
    by_cases known : r.name ∈ first.keys
    · rw [if_pos known, if_pos (Or.inl known)]
      exact redirectText_renamed unnamed r _
    · rw [if_neg known, Option.map_none, Option.getD_none, redirectText_of_parse? read,
        Renaming.apply?_eq, Renaming.newName_of_not_mem known]
      simp only [known, false_or]

end Keywords

namespace Document
variable (dictionary : Dictionary) (options : Options) (d : Document)

theorem raw_normalize_renamed : (d.normalize dictionary options).1.raw =
    ((d.rename (d.replacedElements dictionary options)).rename
      (d.foldedTypedefs dictionary options)).raw := by
  have pruned := Pass.raw_runAll_pruning dictionary options d
  rw [fst_normalize, raw_rename _ (foldedTypedefs _ _ _), ← pruned, foldedTypedefs,
    show Pass.sequence = (Pass.beforePruning ++ [.prune]) ++
      .cleanTypedefs :: .inlineAttributes :: Pass.finishing from rfl, Pass.runAll_append]
  generalize Pass.runAll dictionary options (Pass.beforePruning ++ [.prune]) {} d = out
  obtain ⟨next, _ | report⟩ := out
  · rw [← raw_rename next [], rename_nil]
  · rw [← raw_rename, ← Typedefs.raw_run]
    exact Pass.raw_runAll dictionary options (by decide) _ (Typedefs.run next).1

theorem typedef_of_mem_foldedTypedefs {e : String × String}
    (folded : e ∈ d.foldedTypedefs dictionary options) :
    Typedefs.isTypedef e.1 ∧ e.2 = Typedefs.typeName e.1 := by
  rw [foldedTypedefs] at folded
  split at folded
  · exact (Typedefs.mem_newNames folded).2
  · cases folded

/-- In a full run, whether it is accepted or fails, texts of the raw part change and nothing else.
The texts that change are references under `$ref` or among the values of a discriminator's mapping;
they name an element that was replaced or a typedef that was folded, and they keep their flavor and
their tail. -/
theorem raw_normalize :
    let elements := d.replacedElements dictionary options
    let typedefs := d.foldedTypedefs dictionary options
    let text := Json.redirectAt (Reference.renamedBy elements typedefs)
    (d.normalize dictionary options).1.raw = d.raw.mapValues (Json.mapTexts text []) ∧
    (∀ trail raw, text trail raw = raw ∨
      (trail.head? = some (.key "$ref") ∨ Json.isMapped trail) ∧
        ∃ r, Reference.parse? raw = some r ∧ (r.name ∈ elements.keys ∨ r.name ∈ typedefs.keys) ∧
          text trail raw = (r.renamed (typedefs.newName (elements.newName r.name))).raw) ∧
    (∀ e ∈ elements, ∃ s, (e.1, s) ∈ d.definitions ∧ HierarchyCopies.replacement? dictionary
      options.maxDepth d.definitions d.definitions.usage e.1 s = .ok (some e.2)) ∧
    ∀ e ∈ typedefs, Typedefs.isTypedef e.1 ∧ e.2 = Typedefs.typeName e.1 := by
  intro elements typedefs text
  have typedef : ∀ e ∈ typedefs, Typedefs.isTypedef e.1 ∧ e.2 = Typedefs.typeName e.1 :=
    fun e => typedef_of_mem_foldedTypedefs dictionary options d
  have unnamed : "" ∉ typedefs.keys := by
    intro member
    obtain ⟨e, folded, empty⟩ := List.mem_map.mp member
    exact absurd (empty ▸ (typedef e folded).1) (by decide)
  refine ⟨?_, fun trail raw => ?_, fun e member => ?_, typedef⟩
  · have composed (trail : List Json.Step) (raw : String) :
        Json.redirectAt typedefs.apply? trail (Json.redirectAt elements.apply? trail raw) =
          text trail raw := by
      simp only [text, Json.redirectAt]
      split
      · exact Keywords.redirectText_renamedBy unnamed raw
      · rfl
    rw [raw_normalize_renamed, raw_rename, raw_rename, Table.mapValues_mapValues]
    refine congrArg (d.raw.mapValues ·) (funext fun value => ?_)
    rw [Json.mapTexts_mapTexts]
    exact congrArg (Json.mapTexts · [] value) (funext₂ composed)
  · by_cases target : Json.isTarget trail
    · cases read : Reference.parse? raw with
      | none => exact Or.inl ((if_pos target).trans (Keywords.redirectText_of_parse?_eq_none read _))
      | some r =>
        have turned : text trail raw =
            ((Reference.renamedBy elements typedefs r).map (·.raw)).getD raw :=
          (if_pos target).trans (Keywords.redirectText_of_parse? read _)
        rw [Reference.renamedBy] at turned
        split at turned
        · rename_i known
          exact Or.inr ⟨Json.place_of_isTarget target, r, rfl, known, turned⟩
        · exact Or.inl turned
    · exact Or.inl (if_neg target)
  · rw [show elements = d.replacedElements dictionary options from rfl, replacedElements] at member
    split at member
    · exact HierarchyCopies.replacement?_of_mem_elements member
    · cases member

end Document
end SchemaGraph
