import Mathlib.Data.Finset.Dedup
import Mathlib.Data.Finset.SDiff
import Mathlib.Data.Finset.Lattice.Basic
import SchemaGraph.Proofs.NilFrame
import SchemaGraph.Proofs.Orphans

/- What the passes report of the names of the definitions. A report accounts for the names when those
   that are left are the ones before it without the removed ones, and the created ones; so the names
   that a full run leaves can be told from its reports. -/
namespace SchemaGraph

namespace Report

/-- What becomes of a set of names by what was removed and created. -/
def replay (names : Finset String) (r : Report) : Finset String :=
  names \ r.removed.toFinset ∪ r.created.toFinset

/-- The report says what became of the names. -/
structure Accounts (before after : List String) (r : Report) : Prop where
  names : ∀ name, name ∈ after ↔ (name ∈ before ∧ name ∉ r.removed) ∨ name ∈ r.created
  removed : ∀ name ∈ r.removed, name ∈ before
  created : r.created.Nodup

variable {before after : List String} {r : Report}

theorem Accounts.replay (h : r.Accounts before after) :
    after.toFinset = r.replay before.toFinset := by
  ext name
  simp [Report.replay, h.names name]

/-- Nothing to report where the names are the same. -/
theorem accounts_of_perm (same : after.Perm before) (silent : r = {}) :
    r.Accounts before after := by
  subst silent
  exact ⟨fun name => by simp [same.mem_iff], by simp, List.nodup_nil⟩

/-- Names that were only removed. -/
theorem accounts_of_filter (keep : String → Bool) (silent : r.created = [])
    (removed : r.removed = before.filter fun name => !keep name) :
    r.Accounts before (before.filter keep) := by
  refine ⟨fun name => ?_, fun name gone => ?_, ?_⟩
  · rw [silent, removed]
    cases kept : keep name <;> simp [kept]
  · rw [removed] at gone
    exact (List.mem_filter.mp gone).1
  · rw [silent]
    exact List.nodup_nil

end Report

open Report (Accounts)

/-- Filtering a table by its keys filters the keys. -/
theorem Table.keys_filter {α : Type} (keep : String → Bool) (t : Table α) :
    keys (t.filter fun entry => keep entry.1) = t.keys.filter keep := by
  rw [keys, keys, List.filter_map]
  rfl

section
variable {m : Type → Type} [Monad m] {g : Guarantee m}

/-- A walk keeps the sequence of names, also when it fails. -/
theorem Document.keys_walkAfterM (anything : ∀ {α : Type} (x : m α), g.Holds (fun _ => True) x)
    (after : Definitions → Position → Schema → ExceptT Error m Schema) (d : Document) :
    g.Holds (fun out => out.1.definitions.keys = d.definitions.keys) (d.walkAfterM after) := by
  have keeps (graph : Definitions) (position : Position) (s : Schema) :
      (g.throwing Rule.any.allowed).Holds (Schema.Obeys .any) (after graph position s) :=
    g.mono (anything (after graph position s).run) fun result _ => by
      cases result with
      | ok changed => exact changed.obeys_any
      | error e => trivial
  refine g.bind (Definitions.walkFrom_grounded (R := .any) d.flavor 0
    (fun graph _ => Visitor.keeps_ofAfter fun position s _ => keeps graph position s) []
    d.definitions d.definitions.grounded_any) fun out walked => ?_
  exact g.pure walked.2.1

end

namespace Document

theorem keys_walkAfter (after : Definitions → Position → Schema → Except Error Schema)
    (d : Document) : (d.walkAfter after).1.definitions.keys = d.definitions.keys :=
  d.keys_walkAfterM (g := .plain) (fun _ => trivial) _

theorem keys_walkState {σ : Type}
    (after : Definitions → Position → Schema → ExceptT Error (StateM σ) Schema) (start : σ)
    (d : Document) :
    ((d.walkAfterM after).run start).1.1.definitions.keys = d.definitions.keys :=
  d.keys_walkAfterM (g := .state σ) (fun _ _ => trivial) after start

end Document

/-- The pass reports nothing, and the sequence of names is the one before. -/
def Document.Untitled (d : Document) (out : Outcome) : Prop :=
  out.1.definitions.keys = d.definitions.keys ∧ ∀ report, out.2 = .ok report → report = {}

namespace Document
variable {d : Document}

theorem untitled_unreported {left : Document}
    (same : left.definitions.keys = d.definitions.keys) : d.Untitled left.unreported := by
  refine ⟨same, ?_⟩
  rintro _ ⟨⟩
  rfl

theorem untitled_failed {left : Document} (e : Error)
    (same : left.definitions.keys = d.definitions.keys) : d.Untitled (left, .error e) :=
  ⟨same, fun _ ended => by cases ended⟩

theorem untitled_changeAfter (after : Position → Schema → Schema) :
    d.Untitled (d.changeAfter after).unreported := untitled_unreported (d.keys_change _)

theorem untitled_walkPass (after : Definitions → Position → Schema → Except Error Schema) :
    d.Untitled (d.walkPass after) := by
  have same := keys_walkAfter after d
  rw [walkPass]
  generalize d.walkAfter after = out at same
  obtain ⟨left, _ | _⟩ := out
  · exact untitled_failed _ same
  · exact untitled_unreported same

end Document

theorem TypeExpansion.keys_expandAll (dictionary : Dictionary) (maxDepth rounds : Nat)
    (d : Document) :
    (expandAll dictionary maxDepth rounds d).1.definitions.keys = d.definitions.keys := by
  have round {d : Document} {out : (Document × Except Error Unit) × Bool}
      (walked : (d.walkAfterM (after dictionary maxDepth)).run false = out) :
      out.1.1.definitions.keys = d.definitions.keys :=
    walked ▸ Document.keys_walkState (after dictionary maxDepth) false d
  fun_induction expandAll dictionary maxDepth rounds d with
  | case1 rounds d left noted e walked => exact round walked
  | case2 rounds d left _ walked => exact round walked
  | case3 d left _ walked => exact round walked
  | case4 d left _ rounds walked ih => exact ih.trans (round walked)

theorem TypeExpansion.untitled_run (dictionary : Dictionary) (options : Options) (d : Document) :
    d.Untitled (run dictionary options d) := by
  have same := keys_expandAll dictionary options.maxDepth options.maxDepth d
  rw [run]
  generalize expandAll dictionary options.maxDepth options.maxDepth d = out at same
  obtain ⟨left, _ | _⟩ := out
  · exact Document.untitled_failed _ same
  · dsimp only
    split
    · refine Document.untitled_unreported ?_
      rw [Table.keys_mapValues]
      exact same
    · exact Document.untitled_unreported same

theorem Restriction.untitled_run (options : Options) (d : Document) :
    d.Untitled (run options d) := by
  have same := Document.keys_walkState (after options.maxDepth) 0 d
  rw [run]
  generalize StateT.run (d.walkAfterM (after options.maxDepth)) 0 = out at same
  obtain ⟨⟨left, _ | _⟩, found⟩ := out
  · exact Document.untitled_failed _ same
  · dsimp only
    split
    · exact Document.untitled_unreported same
    · exact Document.untitled_unreported ((left.keys_change _).trans same)

namespace HierarchyCopies

/-- The definitions are those of the given names and the copies, in this order. -/
def Copied (names : List String) (state : Progress) : Prop := state.1.keys = names ++ state.2

variable {names : List String} {state : Progress}

theorem Copied.addCopy (h : Copied names state) (name : String) (copy : Schema) :
    Copied names (addCopy state name copy) := by
  unfold HierarchyCopies.addCopy
  split
  · exact h
  · rw [Copied, Table.keys_append, h, List.append_assoc]
    rfl

theorem Copied.copySubtype (h : Copied names state) (dictionary : Dictionary) (xml : Option Xml)
    (entry : String × Copy) : Copied names (copySubtype dictionary xml state entry) := by
  unfold HierarchyCopies.copySubtype
  split
  · exact h
  · split
    · exact h
    · exact h.addCopy _ _

theorem Copied.copyAncestors (h : Copied names state) (xml : Option Xml) (suffix : String)
    (ancestors : List Reference) : Copied names (copyAncestors xml suffix ancestors state) := by
  induction ancestors generalizing state with
  | nil => exact h
  | cons ancestor rest ih =>
    rw [copyAncestors_cons]
    apply ih
    rw [copyAncestor]
    split
    · exact h
    · exact h.addCopy _ _

theorem Copied.copyHierarchy (h : Copied names state) (dictionary : Dictionary)
    (plans : Table (Table Copy)) (maxDepth : Nat) (root : String) :
    Copied names (copyHierarchy dictionary plans maxDepth state root) := by
  unfold HierarchyCopies.copyHierarchy
  split
  · rename_i copies s _ _
    have below : Copied names
        (copies.foldl (HierarchyCopies.copySubtype dictionary s.keywords.xml) state) :=
      List.foldlRecOn (motive := Copied names) copies _ h
        fun _ copied entry _ => copied.copySubtype dictionary _ entry
    dsimp only
    have whole := below.copyAncestors s.keywords.xml (copySuffix root)
      (Definitions.ancestors (copies.foldl
        (HierarchyCopies.copySubtype dictionary s.keywords.xml) state).1 root maxDepth)
    split
    · exact whole
    · rw [Copied, Table.keys_modify]
      exact whole
  · exact h

theorem Copied.copyHierarchies (h : Copied names state) (dictionary : Dictionary)
    (plans : Table (Table Copy)) (maxDepth : Nat) (roots : List String) :
    Copied names (roots.foldl (HierarchyCopies.copyHierarchy dictionary plans maxDepth) state) :=
  List.foldlRecOn (motive := Copied names) roots _ h
    fun _ copied root _ => copied.copyHierarchy dictionary plans maxDepth root

section
variable {dictionary : Dictionary} {options : Options} {d : Document}

theorem mem_keys_of_mem_removed {name : String}
    (removed : name ∈ (replaced dictionary options d).2) : name ∈ d.definitions.keys := by
  dsimp only [replaced] at removed
  split at removed
  · have stood := (List.mem_filter.mp removed).2
    rwa [Table.has_iff_mem_keys, Document.rename, Definitions.rename, Table.keys_mapValues] at stood
  · cases removed

theorem mem_keys_replaced_iff (name : String) :
    name ∈ (replaced dictionary options d).1.definitions.keys ↔
      name ∈ d.definitions.keys ∧ name ∉ (replaced dictionary options d).2 := by
  refine ⟨fun left => ?_, fun ⟨known, stays⟩ => (mem_keys_replaced known).resolve_right stays⟩
  dsimp only [replaced] at left ⊢
  split at left
  · rename_i many
    rw [if_pos many]
    obtain ⟨s, member⟩ := (Table.mem_keys_iff _ _).mp left
    obtain ⟨renamed, stays⟩ := (Table.mem_foldl_erase_iff _ _ _).mp member
    have known := (Table.mem_keys_iff _ _).mpr ⟨s, renamed⟩
    rw [Document.rename, Definitions.rename, Table.keys_mapValues] at known
    exact ⟨known, stays⟩
  · rename_i few
    rw [if_neg few]
    exact ⟨left, List.not_mem_nil⟩

variable (dictionary options d) in
/-- The copies that are reported, and the elements. -/
theorem report_run : ∃ warnings, (run dictionary options d).2 = .ok {
      warnings
      created := ((replaced dictionary options d).1.definitions.keys.foldl
        (copyHierarchy dictionary (plans d.definitions options.maxDepth) options.maxDepth)
        ((replaced dictionary options d).1.definitions, [])).2
      removed := (replaced dictionary options d).2 } := by
  rw [run, replaced, elements]
  cases replacements dictionary options.maxDepth d.definitions with
  | ok elements => exact ⟨[], rfl⟩
  | error e =>
    cases e with
    | unexpectedTransform stage message => exact ⟨[⟨stage, message⟩], rfl⟩
    | _ => exact ⟨[], rfl⟩

/-- When elements are replaced, some are removed. -/
theorem replaced_of_kept (kept : (replaced dictionary options d).2 = []) :
    replaced dictionary options d = (d, []) := by
  unfold replaced at kept ⊢
  dsimp only at kept ⊢
  split
  · rename_i many
    rw [if_pos many] at kept
    exfalso
    cases elements : elements dictionary options d with
    | nil =>
      rw [elements] at many
      exact absurd many (by simp [copiesFor, Table.keys])
    | cons entry rest =>
      have listed : entry ∈ HierarchyCopies.elements dictionary options d := by simp [elements]
      obtain ⟨s, defined, _⟩ := replacement?_of_mem_elements listed
      have known : entry.1 ∈ d.definitions.keys := (Table.mem_keys_iff _ _).mpr ⟨s, defined⟩
      have removed : entry.1 ∈ (replaceElements (HierarchyCopies.elements dictionary options d)
          d).2 := by
        refine List.mem_filter.mpr ⟨List.mem_map_of_mem listed, ?_⟩
        rw [Table.has_iff_mem_keys, Document.rename, Definitions.rename, Table.keys_mapValues]
        exact known
      rw [kept] at removed
      cases removed
  · rfl

/-- Where nothing is replaced, the run is the copying. -/
theorem run_of_kept (kept : (replaced dictionary options d).2 = []) :
    let left := d.definitions.keys.foldl
      (copyHierarchy dictionary (plans d.definitions options.maxDepth) options.maxDepth)
      (d.definitions, [])
    (run dictionary options d).1 = { d with definitions := left.1 } ∧
      ∃ warnings, (run dictionary options d).2 = .ok { warnings, created := left.2 } := by
  have same := replaced_of_kept kept
  obtain ⟨warnings, reported⟩ := report_run dictionary options d
  rw [same] at reported
  refine ⟨?_, warnings, reported⟩
  rw [run_eq, same]

theorem accounts_run (distinct : d.definitions.Distinct) {report : Report}
    (ended : (run dictionary options d).2 = .ok report) :
    report.Accounts d.definitions.keys (run dictionary options d).1.definitions.keys := by
  have distinctLeft := distinct_run dictionary options distinct
  obtain ⟨warnings, reported⟩ := report_run dictionary options d
  rw [run_eq] at distinctLeft ⊢
  rw [reported] at ended
  cases ended
  have copied : Copied (replaced dictionary options d).1.definitions.keys
      ((replaced dictionary options d).1.definitions, []) := (List.append_nil _).symm
  replace copied := copied.copyHierarchies dictionary (plans d.definitions options.maxDepth)
    options.maxDepth (replaced dictionary options d).1.definitions.keys
  rw [Table.Distinct, copied] at distinctLeft
  refine ⟨fun name => ?_, fun name => mem_keys_of_mem_removed, (List.nodup_append.mp distinctLeft).2.1⟩
  rw [copied, List.mem_append, mem_keys_replaced_iff]

end

end HierarchyCopies

namespace NilSplit

theorem accounts_run {options : Options} {d : Document} {report : Report}
    (ended : (run options d).2 = .ok report) :
    report.Accounts d.definitions.keys (run options d).1.definitions.keys := by
  obtain ⟨left, rfl, keys⟩ := run_of_ok ended
  rw [left]
  refine ⟨fun name => ?_, by simp, ?_⟩
  · by_cases known : name ∈ d.definitions.keys <;> simp [keys, known]
  · have nodup := (nodup_nillableNames options d).filter (plainNames options d).contains
    exact nodup.map fun a b same => (String.append_left_inj _).mp same

end NilSplit

namespace Typedefs
variable {names : Renaming} {state : Definitions × Report}

/-- A name is created when it is free once the typedef is removed. -/
theorem created_settle {entry : String × String} (known : entry.1 ∈ state.1.keys) :
    ∃ created, (settle state entry).2.created = state.2.created ++ created ∧ created.Nodup ∧
      (∀ name ∈ created, name = entry.2 ∧ (name ∈ state.1.keys → name = entry.1)) ∧
      ∀ name, name ∈ (settle state entry).1.keys ↔
        (name ∈ state.1.keys ∧ name ≠ entry.1) ∨ name ∈ created := by
  obtain ⟨s, found⟩ := (Table.exists_get?_iff _ _).mpr known
  have left := mem_keys_settle_iff known
  by_cases taken : (state.1.erase entry.1).has entry.2
  · refine ⟨[], ?_, List.nodup_nil, by simp, fun name => ?_⟩
    · rw [settle_eq found, if_pos taken, List.append_nil]
    · rw [Table.has_iff_mem_keys, mem_keys_erase_iff] at taken
      rw [left]
      refine ⟨?_, fun stays => Or.inl (stays.resolve_right List.not_mem_nil)⟩
      rintro (stays | rfl)
      · exact Or.inl stays
      · exact Or.inl taken
  · refine ⟨[entry.2], ?_, List.nodup_singleton _, fun name made => ?_, fun name => ?_⟩
    · rw [settle_eq found, if_neg taken]
    · rw [Table.has_iff_mem_keys, mem_keys_erase_iff, not_and_not_right] at taken
      rw [List.mem_singleton.mp made]
      exact ⟨rfl, taken⟩
    · rw [left, List.mem_singleton]

/-- A name is created once: it is free then, so it is none of those that are given up later. -/
theorem created_foldl_settle (distinct : names.Distinct)
    (known : ∀ e ∈ names, e.1 ∈ state.1.keys) :
    ∃ created, (names.foldl settle state).2.created = state.2.created ++ created ∧
      created.Nodup ∧ (∀ name ∈ created, name ∈ state.1.keys → name ∈ names.keys) ∧
      ∀ name, name ∈ (names.foldl settle state).1.keys ↔
        (name ∈ state.1.keys ∧ name ∉ names.keys) ∨ name ∈ created := by
  induction names generalizing state with
  | nil => exact ⟨[], by simp [Table.keys]⟩
  | cons entry rest ih =>
    obtain ⟨knownHere, knownLater⟩ := List.forall_mem_cons.mp known
    obtain ⟨fresh, distinctRest⟩ := List.nodup_cons.mp distinct
    obtain ⟨first, reportedFirst, nodupFirst, freeFirst, leftFirst⟩ := created_settle knownHere
    obtain ⟨others, reported, nodup, free, left⟩ :=
      ih distinctRest (known_settle distinct knownHere knownLater)
    have keys : Table.keys (entry :: rest) = entry.1 :: Table.keys rest := rfl
    -- What is created here is not given up later, for whatever is given up later is there already.
    have stays (name : String) (made : name ∈ first) : name ∉ Table.keys rest := by
      intro later
      obtain ⟨e, listed, rfl⟩ := List.mem_map.mp later
      have same := (freeFirst e.1 made).2 (knownLater e listed)
      exact fresh (same ▸ later)
    refine ⟨first ++ others, ?_, ?_, fun name made stood => ?_, fun name => ?_⟩
    · rw [List.foldl_cons, reported, reportedFirst, List.append_assoc]
    · refine List.nodup_append.mpr ⟨nodupFirst, nodup, fun a made b again same => ?_⟩
      subst same
      exact stays a made (free a again ((leftFirst a).mpr (Or.inr made)))
    · rw [keys, List.mem_cons]
      rcases List.mem_append.mp made with here | later
      · exact Or.inl ((freeFirst name here).2 stood)
      · by_cases own : name = entry.1
        · exact Or.inl own
        · exact Or.inr (free name later ((leftFirst name).mpr (Or.inl ⟨stood, own⟩)))
    · rw [List.foldl_cons, left, leftFirst, keys, List.mem_cons, List.mem_append]
      have := stays name
      tauto

theorem accounts_run {d : Document} (distinct : d.definitions.Distinct) {report : Report}
    (ended : (run d).2 = .ok report) :
    report.Accounts d.definitions.keys (run d).1.definitions.keys := by
  have known : ∀ e ∈ newNames d,
      e.1 ∈ (((d.changeAfter strip).definitions, {}) : Definitions × Report).1.keys := fun e renamed => by
    rw [keys_stripped]
    exact (mem_newNames renamed).1
  obtain ⟨created, reported, nodup, _, left⟩ :=
    created_foldl_settle (distinct_newNames distinct) known
  have removed := removed_foldl_settle (distinct_newNames distinct) known
  rw [run_eq] at ended ⊢
  cases ended
  rw [List.nil_append] at reported removed
  refine ⟨fun name => ?_, fun name gone => ?_, reported ▸ nodup⟩
  · rw [Document.rename, Definitions.rename, Table.keys_mapValues, folded, left, reported, removed,
      keys_stripped]
  · rw [removed] at gone
    obtain ⟨e, renamed, rfl⟩ := List.mem_map.mp gone
    exact (mem_newNames renamed).1

end Typedefs

theorem Pruning.accounts_run {options : Options} {d : Document} {report : Report}
    (ended : (run options d).2 = .ok report) :
    report.Accounts d.definitions.keys (run options d).1.definitions.keys := by
  cases ended
  have kept := d.definitions.keys_filter
    (needed d.definitions (roots options.keepRootElements d)).has
  rw [run, kept]
  exact Report.accounts_of_filter _ rfl rfl

theorem Attributes.accounts_run {d : Document} {report : Report}
    (ended : (run d).2 = .ok report) :
    report.Accounts d.definitions.keys (run d).1.definitions.keys := by
  unfold run at ended ⊢
  dsimp only at ended ⊢
  split at ended
  · rename_i none
    rw [if_pos none]
    cases ended
    exact Report.accounts_of_perm (.refl _) rfl
  · rename_i some
    rw [if_neg some]
    have same := Document.keys_walkAfter
      (after ((d.definitions.filter fun entry => entry.2.isAttribute).map Prod.fst)) d
    generalize d.walkAfter _ = out at same ended ⊢
    obtain ⟨left, _ | _⟩ := out
    · cases ended
    · cases ended
      rw [← same]
      dsimp only
      rw [left.definitions.keys_filter fun name => !List.contains _ name]
      refine Report.accounts_of_filter _ rfl (List.filter_congr fun name _ => ?_)
      rw [Bool.not_not]

namespace Pass

/-- The passes that add, remove or move definitions. -/
def retitling : List Pass :=
  [copyHierarchies, splitNillable, prune, cleanTypedefs, inlineAttributes, sort]

theorem untitled_run (dictionary : Dictionary) (options : Options) (d : Document) {pass : Pass}
    (other : pass ∉ retitling) : d.Untitled (pass.run dictionary options d) := by
  cases pass with
  | expandTypes => exact TypeExpansion.untitled_run dictionary options d
  | restrict => exact Restriction.untitled_run options d
  | squash => exact Document.untitled_changeAfter _
  | collapseAnyOf => exact Document.untitled_walkPass _
  | relaxChoices => exact Document.untitled_changeAfter _
  | foldRepetition => exact Document.untitled_walkPass _
  | typeDefaults => exact Document.untitled_walkPass _
  | placeXmlHints => exact Document.untitled_unreported (d.keys_change _)
  | dropEmptyQualifiers => exact Document.untitled_changeAfter _
  | canonicalize => exact Document.untitled_changeAfter _
  | _ => exact absurd (by decide) other

theorem accounts_run (dictionary : Dictionary) (options : Options) {d : Document}
    (distinct : d.definitions.Distinct) (pass : Pass) {report : Report}
    (ended : (pass.run dictionary options d).2 = .ok report) :
    report.Accounts d.definitions.keys (pass.run dictionary options d).1.definitions.keys := by
  by_cases other : pass ∈ retitling
  · cases pass with
    | copyHierarchies => exact HierarchyCopies.accounts_run distinct ended
    | splitNillable => exact NilSplit.accounts_run ended
    | prune => exact Pruning.accounts_run ended
    | cleanTypedefs => exact Typedefs.accounts_run distinct ended
    | inlineAttributes => exact Attributes.accounts_run ended
    | sort =>
      cases ended
      exact Report.accounts_of_perm ((List.mergeSort_perm _ _).map Prod.fst) rfl
    | _ => exact absurd other (by decide)
  · obtain ⟨same, silent⟩ := untitled_run dictionary options d other
    exact Report.accounts_of_perm (.of_eq same) (silent report ended)

/-- The reports of passes that run one after the other, until one fails. -/
def reports (dictionary : Dictionary) (options : Options) : List Pass → Document → List Report
  | [], _ => []
  | pass :: rest, d =>
    match pass.run dictionary options d with
    | (left, .ok own) => own :: reports dictionary options rest left
    | (_, .error _) => []

end Pass

/-- The names of the definitions, in no order. -/
def Document.names (d : Document) : Finset String := d.definitions.keys.toFinset

namespace Pass
variable {dictionary : Dictionary} {options : Options} {d left : Document}

theorem replay_run (distinct : d.definitions.Distinct) {pass : Pass} {report : Report}
    (ran : pass.run dictionary options d = (left, .ok report)) :
    left.names = report.replay d.names := by
  have accounts := accounts_run dictionary options distinct pass (congrArg Prod.snd ran)
  rw [ran] at accounts
  exact accounts.replay

/-- Replaying the reports one after the other follows the names through all passes. -/
theorem replay_runAll {passes : List Pass} (distinct : d.definitions.Distinct)
    {start report : Report}
    (ran : runAll dictionary options passes start d = (left, .ok report)) :
    (reports dictionary options passes d).foldl Report.replay d.names = left.names ∧
      report = (reports dictionary options passes d).foldl (· ++ ·) start := by
  induction passes generalizing d start with
  | nil =>
    cases ran
    exact ⟨rfl, rfl⟩
  | cons pass rest ih =>
    rw [runAll] at ran
    split at ran
    · rename_i next own here
      have distinctNext := pass.distinct_run dictionary options distinct
      rw [here] at distinctNext
      obtain ⟨names, sum⟩ := ih distinctNext ran
      rw [reports, here]
      dsimp only [List.foldl_cons]
      rw [← replay_run distinct here]
      exact ⟨names, sum⟩
    · cases ran

/-- Only the names of passes run. -/
theorem exists_pass_of_runNamed {name : String} {report : Report}
    (ran : runNamed dictionary options d name = (left, .ok report)) :
    ∃ pass : Pass, pass.name = name ∧ pass.run dictionary options d = (left, .ok report) := by
  rw [runNamed] at ran
  split at ran
  · rename_i pass named
    have same := List.find?_some named
    exact ⟨pass, by simpa using same, ran⟩
  · cases ran

end Pass

/-- The report of a pass tells which names are left, of the names before it, and the passes that do
not add, remove or sort definitions leave the sequence of names alone; so the reports of a full run
tell which names it leaves. -/
theorem Document.names_of_reports (dictionary : Dictionary) (options : Options) (d : Document)
    (distinct : d.definitions.Distinct) :
    (∀ name left report, Pass.runNamed dictionary options d name = (left, .ok report) →
      left.names = d.names \ report.removed.toFinset ∪ report.created.toFinset ∧
      (∀ removed ∈ report.removed, removed ∈ d.names) ∧ report.created.Nodup ∧
      (name ∉ Pass.retitling.map Pass.name → left.definitions.keys = d.definitions.keys)) ∧
    ∀ left report, d.normalize dictionary options = (left, .ok report) →
      (Pass.reports dictionary options Pass.sequence d).foldl Report.replay d.names = left.names ∧
      report = (Pass.reports dictionary options Pass.sequence d).foldl (· ++ ·) {} := by
  constructor
  · intro name left report ran
    obtain ⟨pass, rfl, runs⟩ := Pass.exists_pass_of_runNamed ran
    have accounts := pass.accounts_run dictionary options distinct (congrArg Prod.snd runs)
    refine ⟨Pass.replay_run distinct runs, fun removed gone => ?_, accounts.created, fun other => ?_⟩
    · exact List.mem_toFinset.mpr (accounts.removed removed gone)
    · have same := pass.untitled_run dictionary options d fun retitles =>
        other (List.mem_map_of_mem retitles)
      rw [runs] at same
      exact same.1
  · intro left report accepted
    exact Pass.replay_runAll distinct (Document.runAll_of_normalize accepted).1

/-- A typedef that is used with and without nil, and a definition that nobody needs. -/
def Document.clinic : Document where
  raw := [("paths", .obj [("/op", .obj [("$ref", .str "#/definitions/Ward")])]), ("definitions", .null)]
  flavor := .definitions
  hasSlot := true
  definitions :=
    let use (nullable : Option Bool) : Schema :=
      NilSplit.mark nullable (.ofReference (.toDefinition "Bed_typedef_Number" .definitions))
    [("Ward", { children := { properties := some [("a", use (some true)), ("b", use none)] } }),
      ("Bed_typedef_Number", { keywords := { type := some "string" } }),
      ("Spare", { keywords := { type := some "object" } })]

theorem Document.names_of_reports_clinic :
    clinic.definitions.Distinct ∧
    (∃ left report, Pass.runNamed {} {} clinic "remove_any_ofs" = (left, .ok report) ∧
      "remove_any_ofs" ∉ Pass.retitling.map Pass.name ∧
      left.definitions.keys = clinic.definitions.keys) ∧
    ∃ left report, clinic.normalize {} {} = (left, .ok report) ∧
      (Pass.reports {} {} Pass.sequence clinic).foldl Report.replay clinic.names = left.names ∧
      left.names = {"Ward", "Bed_type_Number", "Bed_type_Number_nil"} := by
  have distinct : clinic.definitions.Distinct := by decide
  obtain ⟨alone, full⟩ := names_of_reports {} {} clinic distinct
  refine ⟨distinct, ?_, ?_⟩
  · have ran : Pass.runNamed {} {} clinic "remove_any_ofs" =
        ((Pass.runNamed {} {} clinic "remove_any_ofs").1, .ok {}) := rfl
    have other : "remove_any_ofs" ∉ Pass.retitling.map Pass.name := by decide
    exact ⟨_, _, ran, other, (alone _ _ _ ran).2.2.2 other⟩
  · let report : Report := {
      created := ["Bed_typedef_Number_nil", "Bed_type_Number", "Bed_type_Number_nil"]
      removed := ["Spare", "Bed_typedef_Number", "Bed_typedef_Number_nil"] }
    obtain ⟨left, accepted⟩ : ∃ left, clinic.normalize {} {} = (left, .ok report) :=
      accepted_of_closed (by decide +kernel) (by decide +kernel) (by decide +kernel)
    have names := (full left report accepted).1
    have reported : Pass.reports {} {} Pass.sequence clinic =
        ({} : Report) :: { created := ["Bed_typedef_Number_nil"] } ::
        (List.replicate 8 ({} : Report) ++ { removed := ["Spare"] } ::
          { created := ["Bed_type_Number", "Bed_type_Number_nil"],
            removed := ["Bed_typedef_Number", "Bed_typedef_Number_nil"] } ::
          List.replicate 5 ({} : Report)) := by decide +kernel
    refine ⟨left, report, accepted, names, names.symm.trans ?_⟩
    rw [reported]
    decide

end SchemaGraph
