import SchemaGraph.Pass.Pruning
import SchemaGraph.Proofs.Attributes
import SchemaGraph.Proofs.ContentPasses
import SchemaGraph.Proofs.HierarchyCopies
import SchemaGraph.Proofs.NilCopies
import SchemaGraph.Proofs.Typedefs

/- Definitions are known by their names: no pass, whether it fails or not, leaves two of one name
   when it finds none. -/
namespace SchemaGraph

namespace Table
variable {α : Type} {t : Table α}

theorem distinct_snoc (h : t.Distinct) {key : String} (unknown : ¬ t.has key) (value : α) :
    Distinct (t ++ [(key, value)]) := by
  rw [has_iff_mem_keys] at unknown
  rw [Distinct, keys_append, List.nodup_append]
  refine ⟨h, by simp [keys], fun known listed other same => ?_⟩
  rw [List.mem_singleton.mp same]
  rintro rfl
  exact unknown listed

theorem distinct_filter (h : t.Distinct) (keep : String × α → Bool) :
    Distinct (t.filter keep) := List.Nodup.sublist (List.filter_sublist.map Prod.fst) h

end Table

theorem Document.Rewritten.distinct {R : Rule} {α : Type} {d : Document}
    {out : Document × Except Error α} (h : d.Rewritten R out) (distinct : d.definitions.Distinct) :
    out.1.definitions.Distinct := h.keys.nodup_iff.mpr distinct

namespace HierarchyCopies

theorem distinct_addCopy {state : Progress} (distinct : state.1.Distinct) (name : String)
    (copy : Schema) : (addCopy state name copy).1.Distinct := by
  rw [addCopy]
  split
  · exact distinct
  · rename_i free
    exact Table.distinct_snoc distinct free copy

theorem distinct_copySubtype (dictionary : Dictionary) (xml : Option Xml) {state : Progress}
    (distinct : state.1.Distinct) (entry : String × Copy) :
    (copySubtype dictionary xml state entry).1.Distinct := by
  rw [copySubtype]
  split
  · exact distinct
  · split
    · exact distinct
    · exact distinct_addCopy distinct _ _

theorem distinct_copyAncestors (xml : Option Xml) (suffix : String) (ancestors : List Reference)
    {state : Progress} (distinct : state.1.Distinct) :
    (copyAncestors xml suffix ancestors state).1.Distinct := by
  induction ancestors generalizing state with
  | nil => exact distinct
  | cons ancestor rest ih =>
    rw [copyAncestors_cons]
    apply ih
    rw [copyAncestor]
    split
    · exact distinct
    · exact distinct_addCopy distinct _ _

theorem distinct_copyHierarchy (dictionary : Dictionary) (plans : Table (Table Copy))
    (maxDepth : Nat) {state : Progress} (distinct : state.1.Distinct) (root : String) :
    (copyHierarchy dictionary plans maxDepth state root).1.Distinct := by
  rw [copyHierarchy]
  split
  · rename_i copies s _ _
    have below : (copies.foldl (copySubtype dictionary s.keywords.xml) state).1.Distinct :=
      List.foldlRecOn (motive := fun state : Progress => state.1.Distinct) copies _ distinct
        fun _ distinct entry _ => distinct_copySubtype dictionary _ distinct entry
    dsimp only
    generalize copies.foldl (copySubtype dictionary s.keywords.xml) state = middle at below
    have whole := distinct_copyAncestors s.keywords.xml (copySuffix root)
      (middle.1.ancestors root maxDepth) below
    split
    · exact whole
    · rw [Table.Distinct, Table.keys_modify]
      exact whole
  · exact distinct

theorem distinct_run (dictionary : Dictionary) (options : Options) {d : Document}
    (distinct : d.definitions.Distinct) : (run dictionary options d).1.definitions.Distinct := by
  rw [run_eq]
  exact List.foldlRecOn (motive := fun state : Progress => state.1.Distinct) _ _
    (distinct_replaced distinct) fun _ distinct root _ =>
      distinct_copyHierarchy dictionary _ _ distinct root

end HierarchyCopies

namespace NilSplit

theorem distinct_markAll (flavor : Flavor) (maxDepth : Nat) (split names : List String)
    {definitions : Definitions} (distinct : definitions.Distinct) (created : List String) :
    (markAll flavor maxDepth split names definitions created).1.Distinct := by
  induction names generalizing definitions created with
  | nil => exact distinct
  | cons name rest ih =>
    unfold markAll
    split
    · exact distinct
    · split
      · exact ih (Table.distinct_put distinct _ _) _
      · exact ih (Table.distinct_put (Table.distinct_put distinct _ _) _ _) _

theorem distinct_run (options : Options) {d : Document} (distinct : d.definitions.Distinct) :
    (run options d).1.definitions.Distinct := by
  rw [run_eq]
  apply distinct_markAll
  rw [Table.Distinct, keys_turned]
  exact distinct

end NilSplit

namespace Typedefs

theorem distinct_settle {state : Definitions × Report} (distinct : state.1.Distinct)
    (entry : String × String) : (settle state entry).1.Distinct := by
  cases found : state.1.get? entry.1 with
  | none =>
    rw [settle_of_get?_eq_none found]
    exact distinct
  | some s =>
    have erased : (state.1.erase entry.1).Distinct := Table.distinct_filter distinct _
    rw [settle_eq found]
    split
    · exact erased
    · rename_i free
      exact Table.distinct_snoc erased free s

theorem distinct_run {d : Document} (distinct : d.definitions.Distinct) :
    (run d).1.definitions.Distinct := by
  have stripped : (d.changeAfter strip).definitions.Distinct := by
    rw [Table.Distinct, keys_stripped]
    exact distinct
  rw [run_eq, Document.rename, Definitions.rename, Table.Distinct, Table.keys_mapValues]
  exact List.foldlRecOn (motive := fun state : Definitions × Report => state.1.Distinct) _ _
    stripped fun _ distinct entry _ => distinct_settle distinct entry

end Typedefs

/-- Inlining adds no definition. -/
theorem Attributes.keys_run (d : Document) :
    (run d).1.definitions.keys.Subperm d.definitions.keys := by
  have ends (x : Except Error Schema) : Ends Rule.any.allowed (Schema.Obeys .any) x := by
    cases x with
    | ok s => exact s.obeys_any
    | error e => trivial
  have walked := (Document.rewritten_walkAfter d.definitions.grounded_any
    fun graph _ position s _ => ends (after (attributes d) graph position s)).keys
  exact of_run (motive := (·.definitions.keys.Subperm d.definitions.keys)) (.refl _) walked.subperm
    fun _ _ left => (List.filter_sublist.map Prod.fst).subperm.trans left

/-- No pass gives two definitions one name. -/
theorem Pass.distinct_run (dictionary : Dictionary) (options : Options) {d : Document}
    (distinct : d.definitions.Distinct) (pass : Pass) :
    (pass.run dictionary options d).1.definitions.Distinct := by
  have content (member : pass ∈ contentOnly) :
      (pass.run dictionary options d).1.definitions.Distinct :=
    (run_rewritten dictionary options member d.definitions.grounded_any).distinct distinct
  cases pass with
  | copyHierarchies => exact HierarchyCopies.distinct_run dictionary options distinct
  | splitNillable => exact NilSplit.distinct_run options distinct
  | prune => exact Table.distinct_filter distinct _
  | cleanTypedefs => exact Typedefs.distinct_run distinct
  | inlineAttributes =>
    obtain ⟨names, same, among⟩ := Attributes.keys_run d
    exact same.nodup_iff.mp (List.Nodup.sublist among distinct)
  | _ => exact content (by decide)

end SchemaGraph
