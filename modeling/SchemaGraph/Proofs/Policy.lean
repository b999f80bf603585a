import SchemaGraph.Proofs.Attributes
import SchemaGraph.Proofs.ContentPasses
import SchemaGraph.Proofs.HierarchyCopies
import SchemaGraph.Proofs.NilCopies
import SchemaGraph.Proofs.Runs
import SchemaGraph.Proofs.Typedefs

/- Policies: rules for the schemas, and what names definitions may have, such that renaming breaks
   neither. Every pass leaves the definitions within a policy when it finds them so, also where it
   fails. -/
namespace SchemaGraph

structure Policy where
  rule : Rule
  /-- Asked of the names of definitions. -/
  permits : String → Prop
  names_eq_nil : rule.names = []
  permits_of_ne : ∀ name, name ≠ "" → permits name
  reference_of_permits : ∀ r, permits r.name → rule.reference r
  skipped_redirect : ∀ f s, rule.skipped s → rule.skipped (s.redirect f)

theorem append_ne_empty {a b : String} (h : b ≠ "") : a ++ b ≠ "" := by
  intro same
  apply h
  rw [String.ext_iff] at same ⊢
  simp only [String.toList_append, String.toList_empty, List.append_eq_nil_iff] at same
  simp [same.2]

variable {P : Policy}

theorem Policy.permits_append (P : Policy) (name : String) {suffix : String} (h : suffix ≠ "") :
    P.permits (name ++ suffix) := P.permits_of_ne _ (append_ne_empty h)

namespace Definitions

/-- The names are permitted, and the schemas obey the rule. -/
structure Within (P : Policy) (definitions : Definitions) : Prop where
  named : ∀ name ∈ definitions.keys, P.permits name
  obeys : ∀ e ∈ definitions, e.2.Obeys P.rule

variable {definitions : Definitions}

theorem Within.grounded (h : definitions.Within P) : definitions.Grounded P.rule :=
  ⟨by simp [P.names_eq_nil], h.obeys⟩

theorem Within.get? (h : definitions.Within P) {name : String} {s : Schema}
    (found : definitions.get? name = some s) : P.permits name ∧ s.Obeys P.rule :=
  ⟨h.named name ((Table.exists_get?_iff _ _).mp ⟨s, found⟩), h.obeys _ (Table.mem_of_get? found)⟩

theorem within_iff (definitions : Definitions) :
    definitions.Within P ↔ ∀ e ∈ definitions, P.permits e.1 ∧ e.2.Obeys P.rule := by
  constructor
  · exact fun h e member => ⟨h.named e.1 (List.mem_map_of_mem member), h.obeys e member⟩
  · intro each
    exact ⟨List.forall_mem_map.mpr fun e member => (each e member).1, fun e member => (each e member).2⟩

theorem Within.subset (h : definitions.Within P) {others : Definitions}
    (among : ∀ e ∈ others, e ∈ definitions) : others.Within P := by
  rw [within_iff] at h ⊢
  exact fun e member => h e (among e member)

theorem Within.put (h : definitions.Within P) {name : String} (named : P.permits name) {s : Schema}
    (obeys : s.Obeys P.rule) : Within P (Table.put definitions name s) := by
  rw [within_iff] at h ⊢
  intro e member
  rcases Table.mem_of_mem_put member with old | rfl
  · exact h e old
  · exact ⟨named, obeys⟩

theorem Within.snoc (h : definitions.Within P) {name : String} (named : P.permits name) {s : Schema}
    (obeys : s.Obeys P.rule) : Within P (definitions ++ [(name, s)]) := by
  rw [within_iff] at h ⊢
  intro e member
  rcases List.mem_append.mp member with old | new
  · exact h e old
  · rw [List.mem_singleton.mp new]
    exact ⟨named, obeys⟩

theorem Within.map (h : definitions.Within P) {f : String × Schema → String × Schema}
    (sameName : ∀ e, (f e).1 = e.1) (obeys : ∀ e ∈ definitions, (f e).2.Obeys P.rule) :
    Within P (definitions.map f) := by
  rw [within_iff] at h ⊢
  intro _ member
  obtain ⟨e, listed, rfl⟩ := List.mem_map.mp member
  exact ⟨sameName e ▸ (h e listed).1, obeys e listed⟩

theorem Within.rewritten {d : Document} (h : d.definitions.Within P) {α : Type}
    {out : Document × Except Error α} (rewritten : d.Rewritten P.rule out) :
    out.1.definitions.Within P :=
  ⟨fun name listed => h.named name (rewritten.keys.mem_iff.mp listed), rewritten.grounded.obeys⟩

end Definitions

theorem Keywords.Obeys.redirect {f : Reference → Option Reference}
    (turns : ∀ r t, f r = some t → P.permits t.name) {k : Keywords} (h : k.Obeys P.rule) :
    (k.redirect f).Obeys P.rule := by
  have named (r : Reference) (before : P.rule.reference r) : P.rule.reference ((f r).getD r) := by
    cases turned : f r with
    | none => exact before
    | some t => exact P.reference_of_permits t (turns r t turned)
  refine { h with toEach := h.toEach.redirect named, discriminator := ?_, indirect := ?_ }
  · simp only [Keywords.redirect, Option.map_eq_some_iff]
    rintro _ ⟨d, held, rfl⟩
    exact h.discriminator d held
  · simpa only [Keywords.redirect, Option.isSome_map] using h.indirect

theorem Schema.Obeys.redirect {f : Reference → Option Reference}
    (turns : ∀ r t, f r = some t → P.permits t.name) {s : Schema} (h : s.Obeys P.rule) :
    (s.redirect f).Obeys P.rule := by
  induction s using children_induction with
  | step k c ih =>
    have below := (Children.each_iff _ c).mp h.below.toEach
    rw [redirect_mk]
    refine .mk (h.own.redirect turns) ⟨(Children.each_map_iff _ _ c).mpr
      ((Children.each_iff _ c).mpr fun child member => ih child member (below child member)), ?_⟩
    rw [Children.skipped_map]
    exact List.forall_mem_map.mpr fun s listed => P.skipped_redirect f s (h.below.skipped s listed)

theorem Renaming.permits_of_apply? {names : Renaming} (named : ∀ e ∈ names, P.permits e.2)
    (r t : Reference) (turned : names.apply? r = some t) : P.permits t.name := by
  obtain ⟨name, found, rfl⟩ := Option.map_eq_some_iff.mp turned
  exact named _ (Table.mem_of_get? found)

theorem Definitions.Within.rename {d : Document} (h : d.definitions.Within P) {names : Renaming}
    (named : ∀ e ∈ names, P.permits e.2) : (d.rename names).definitions.Within P :=
  h.map (fun _ => rfl) fun e member =>
    (h.obeys e member).redirect (Renaming.permits_of_apply? named)

theorem Pruning.within_run (options : Options) {d : Document} (h : d.definitions.Within P) :
    (run options d).1.definitions.Within P := h.subset fun _ => List.mem_of_mem_filter

namespace Attributes

theorem after_ends {R : Rule} {graph : Definitions} (grounded : graph.Grounded R)
    (attributes : List String) (position : Position) {s : Schema} (h : s.Obeys R) :
    Ends R.allowed (Schema.Obeys R) (after attributes graph position s) := by
  rw [after]
  split
  · rename_i r refers
    split
    · exact grounded.overlay (h.own.reference r refers) h position.location
    · exact h
  · exact h

theorem within_run {d : Document} (h : d.definitions.Within P) :
    (run d).1.definitions.Within P := by
  have walked := h.rewritten (Document.rewritten_walkAfter h.grounded
    fun _ grounded position _ => after_ends grounded (attributes d) position)
  exact of_run (motive := (·.definitions.Within P)) h walked
    fun _ _ left => left.subset fun _ => List.mem_of_mem_filter

end Attributes

namespace Typedefs

theorem obeys_strip {R : Rule} (position : Position) {s : Schema} (h : s.Obeys R) :
    (strip position s).Obeys R :=
  .mk { h.own with ancestor := by simp, descendants := by simp } h.below

theorem within_settle {state : Definitions × Report} (h : state.1.Within P)
    {entry : String × String} (named : P.permits entry.2) : (settle state entry).1.Within P := by
  cases found : state.1.get? entry.1 with
  | none =>
    rw [settle_of_get?_eq_none found]
    exact h
  | some s =>
    have erased : Definitions.Within P (state.1.erase entry.1) :=
      h.subset fun e => List.mem_of_mem_filter
    rw [settle_eq found]
    split
    · exact erased
    · exact erased.snoc named (h.get? found).2

theorem within_run {d : Document} (h : d.definitions.Within P) :
    (run d).1.definitions.Within P := by
  have named : ∀ e ∈ newNames d, P.permits e.2 := by
    intro e renamed
    obtain ⟨_, typedef, same⟩ := mem_newNames renamed
    exact same ▸ P.permits_of_ne _ (typeName_ne_empty typedef)
  have stripped : (d.changeAfter strip).definitions.Within P :=
    h.rewritten (Document.rewritten_changeAfter h.grounded fun position _ => obeys_strip position)
  have settled : (folded d).definitions.Within P :=
    List.foldlRecOn (motive := fun (state : Definitions × Report) => state.1.Within P) _ _
      stripped fun _ settled e renamed => within_settle settled (named e renamed)
  rw [run_eq]
  exact settled.rename named

end Typedefs

namespace NilSplit

theorem obeys_clear {R : Rule} (name : String) (trail : List String) {k : Keywords}
    (h : k.Obeys R) : (clear name trail k).Obeys R := by
  rw [clear]
  split
  · exact { h with }
  · exact h

theorem reference_withSuffix (r : Reference) : P.rule.reference (r.withSuffix suffix) :=
  P.reference_of_permits _ (P.permits_append r.name (by decide))

theorem obeys_turn (split : List String) (sites : List Site) (name : String) (trail : List String)
    {k : Keywords} (h : k.Obeys P.rule) : (turn split sites name trail k).Obeys P.rule := by
  rw [turn]
  split
  · split
    · exact { h with reference := forall_eq_some (reference_withSuffix _) }
    · exact h
  · exact h

theorem obeys_nillableCopy (name : String) (hasAncestors : Bool) {s : Schema}
    (h : s.Obeys P.rule) : (nillableCopy name hasAncestors s).Obeys P.rule := by
  unfold nillableCopy
  dsimp only
  split
  · have based : (s.mapBase (·.withSuffix suffix)).Obeys P.rule :=
      h.mapBase fun _ _ => reference_withSuffix _
    exact .mk { based.own with } based.below
  · exact .mk { h.own with } h.below

theorem obeys_mark {R : Rule} (nullable : Option Bool) {s : Schema} (h : s.Obeys R) :
    (mark nullable s).Obeys R := .mk { h.own with } h.below

theorem within_markAll (flavor : Flavor) (maxDepth : Nat) (split names : List String)
    {definitions : Definitions} (h : definitions.Within P) (created : List String) :
    (markAll flavor maxDepth split names definitions created).1.Within P := by
  induction names generalizing definitions created with
  | nil => exact h
  | cons name rest ih =>
    unfold markAll
    split
    · exact h
    · rename_i s found
      obtain ⟨named, obeys⟩ := h.get? found
      split
      · exact ih (h.put named (obeys_mark _ obeys)) _
      · have plain : Schema.Obeys P.rule
            (if s.keywords.xNullable = some true then mark none s else s) := by
          split
          · exact obeys_mark _ obeys
          · exact obeys
        exact ih ((h.put named plain).put (P.permits_append name (by decide))
          (obeys_nillableCopy name _ obeys)) _

theorem within_run (options : Options) {d : Document} (h : d.definitions.Within P) :
    (run options d).1.definitions.Within P := by
  have cleared := Definitions.forall_change (Schema.hereditary_obeys P.rule)
    (Visitor.keeps_rekey fun name trail s obeys =>
      .mk (obeys_clear name trail obeys.own) obeys.below) d.flavor h.obeys
  have turns := Definitions.forall_change (Schema.hereditary_obeys P.rule)
    (Visitor.keeps_rekey fun name trail s obeys => .mk (obeys_turn (splitNames options d)
      (demand d).sites name trail obeys.own) obeys.below) d.flavor cleared
  have turned : Definitions.Within P (turned options d) := by
    refine ⟨fun name listed => h.named name ?_, turns⟩
    rwa [keys_turned] at listed
  rw [run_eq]
  exact within_markAll _ _ _ _ turned _

end NilSplit

namespace HierarchyCopies

theorem copySuffix_ne_empty (root : String) : copySuffix root ≠ "" := by
  intro same
  have written := congrArg String.toList same
  rw [copySuffix, String.toList_append] at written
  cases written

theorem within_addCopy {state : Progress} (h : state.1.Within P) {name : String}
    (named : P.permits name) {copy : Schema} (obeys : copy.Obeys P.rule) :
    (addCopy state name copy).1.Within P := by
  rw [addCopy]
  split
  · exact h
  · exact h.snoc named obeys

section
variable {xml : Option Xml} (given : ∀ x, xml = some x → P.rule.extra Xml.names x.extra)
include given

theorem within_copySubtype (dictionary : Dictionary) {state : Progress} (h : state.1.Within P)
    {entry : String × Copy} (named : P.permits entry.2.name) (based : P.permits entry.2.base) :
    (copySubtype dictionary xml state entry).1.Within P := by
  rw [copySubtype]
  split
  · exact h
  · split
    · exact h
    · rename_i s found
      have copy : (s.mapBase (·.renamed entry.2.base)).Obeys P.rule :=
        (h.get? found).2.mapBase fun _ _ => P.reference_of_permits _ based
      exact within_addCopy h named (.mk { copy.own with xml := given } copy.below)

theorem within_copyAncestors {suffix : String} (suffixed : suffix ≠ "")
    (ancestors : List Reference) {state : Progress} (h : state.1.Within P) :
    (copyAncestors xml suffix ancestors state).1.Within P := by
  induction ancestors generalizing state with
  | nil => exact h
  | cons ancestor rest ih =>
    rw [copyAncestors_cons]
    apply ih
    rw [copyAncestor]
    split
    · exact h
    · rename_i s found
      have copy : (if rest.isEmpty then s else s.mapBase (·.withSuffix suffix)).Obeys P.rule := by
        split
        · exact (h.get? found).2
        · exact (h.get? found).2.mapBase fun r _ =>
            P.reference_of_permits _ (P.permits_append r.name suffixed)
      exact within_addCopy h (P.permits_append _ suffixed)
        (.mk { copy.own with xml := given } copy.below)

end

theorem within_copyHierarchy (dictionary : Dictionary) (original : Definitions) (maxDepth : Nat)
    {state : Progress} (h : state.1.Within P) (root : String) :
    (copyHierarchy dictionary (plans original maxDepth) maxDepth state root).1.Within P := by
  have suffixed := copySuffix_ne_empty root
  rw [copyHierarchy]
  split
  · rename_i copies s planned found
    obtain ⟨named, obeys⟩ := h.get? found
    have below : (copies.foldl (copySubtype dictionary s.keywords.xml) state).1.Within P := by
      refine List.foldlRecOn (motive := fun state : Progress => state.1.Within P) copies _ h
        fun _ h entry member => ?_
      have copy := planned_of_get? planned entry member
      refine within_copySubtype obeys.own.xml dictionary h ?_ ?_
      · rw [copy.named]
        exact P.permits_append _ suffixed
      · rcases copy.based with itself | ⟨base, _, _, same⟩
        · rwa [itself]
        · rw [same]
          exact P.permits_append _ suffixed
    dsimp only
    generalize copies.foldl (copySubtype dictionary s.keywords.xml) state = middle at below ⊢
    have whole := within_copyAncestors obeys.own.xml suffixed
      (middle.1.ancestors root maxDepth) below
    split
    · exact whole
    · refine whole.map (fun e => by dsimp only; split <;> rfl) fun e member => ?_
      dsimp only
      split
      · exact (whole.obeys e member).mapBase fun r _ =>
          P.reference_of_permits _ (P.permits_append r.name suffixed)
      · exact whole.obeys e member
  · exact h

theorem within_replaced (dictionary : Dictionary) (options : Options) {d : Document}
    (h : d.definitions.Within P) : (replaced dictionary options d).1.definitions.Within P := by
  unfold replaced
  dsimp only
  split
  · have renamed : (d.rename (elements dictionary options d)).definitions.Within P :=
      h.rename fun e member => h.named e.2 (replaces_of_mem_elements member).2
    unfold replaceElements
    exact renamed.subset fun e member => ((Table.mem_foldl_erase_iff _ _ _).mp member).1
  · exact h

theorem within_run (dictionary : Dictionary) (options : Options) {d : Document}
    (h : d.definitions.Within P) : (run dictionary options d).1.definitions.Within P := by
  rw [run_eq]
  exact List.foldlRecOn (motive := fun state : Progress => state.1.Within P) _ _
    (within_replaced dictionary options h) fun _ h root _ =>
      within_copyHierarchy dictionary _ _ h root

end HierarchyCopies

namespace Pass

theorem within_run (dictionary : Dictionary) (options : Options) {d : Document}
    (h : d.definitions.Within P) (pass : Pass) :
    (pass.run dictionary options d).1.definitions.Within P := by
  have content (member : pass ∈ contentOnly) :
      (pass.run dictionary options d).1.definitions.Within P :=
    h.rewritten (run_rewritten dictionary options member h.grounded)
  cases pass with
  | copyHierarchies => exact HierarchyCopies.within_run dictionary options h
  | splitNillable => exact NilSplit.within_run options h
  | prune => exact Pruning.within_run options h
  | cleanTypedefs => exact Typedefs.within_run h
  | inlineAttributes => exact Attributes.within_run h
  | _ => exact content (by decide)

theorem within_leave (dictionary : Dictionary) (options : Options) (passes : List Pass) {d : Document}
    (h : d.definitions.Within P) : (leave dictionary options passes d).definitions.Within P :=
  List.foldlRecOn (motive := fun d : Document => d.definitions.Within P) passes _ h
    fun _ h pass _ => within_run dictionary options h pass

end Pass
end SchemaGraph
