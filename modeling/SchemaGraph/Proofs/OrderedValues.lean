import SchemaGraph.Proofs.ContentPasses
import SchemaGraph.Proofs.FoldedContent
import SchemaGraph.Proofs.SettledValues

/- Definitions that refer to earlier ones only. What a site draws in from them has been settled before
   the walk comes to the site, so everything that is left is settled. -/
namespace SchemaGraph

instance (holds : Keywords → Prop) [DecidablePred holds] (s : Schema) :
    Decidable (s.EveryMet holds) :=
  inferInstanceAs (Decidable (∀ node ∈ s.met [], holds node.2.keywords))

theorem Schema.everyMet_iff {holds : Keywords → Prop} (s : Schema) :
    s.EveryMet holds ↔ holds s.keywords ∧ s.children.entered.Each (EveryMet holds) := by
  obtain ⟨k, c⟩ := s
  exact everyMet_mk_iff k c

namespace Defaults

/-- Only without type does a node refer to something, and then to one of the definitions. -/
def Cites (names : List String) (k : Keywords) : Prop :=
  ∀ r ∈ k.reference, k.type = none ∧ r.IsPlain ∧ r.name ∈ names

instance (names : List String) (k : Keywords) : Decidable (Cites names k) :=
  inferInstanceAs (Decidable (∀ r ∈ k.reference, k.type = none ∧ r.IsPlain ∧ r.name ∈ names))

/-- Every definition cites only those before it, the named ones included. -/
def InOrder : List String → Definitions → Prop
  | _, [] => True
  | names, (name, root) :: rest => root.EveryMet (Cites names) ∧ InOrder (names ++ [name]) rest

/-- Settled, and what it refers to is among the definitions. -/
structure IsFinal (names : List String) (k : Keywords) : Prop where
  settled : IsSettled k
  cites : Cites names k

section
variable {names : List String} {t k : Keywords}

theorem Cites.mono {more : List String} (fewer : names ⊆ more) (cites : Cites names k) :
    Cites more k := fun r refers =>
  have ⟨untyped, plain, known⟩ := cites r refers
  ⟨untyped, plain, fewer known⟩

theorem IsFinal.mono {more : List String} (fewer : names ⊆ more) (final : IsFinal names k) :
    IsFinal more k := ⟨final.settled, final.cites.mono fewer⟩

/-- The keywords of what a reference means over those of the node that refers. -/
theorem Cites.laid (cites : Cites names t) (untyped : k.type = none) :
    Cites names (t.onto { k with reference := none }) := by
  intro r refers
  obtain ⟨noType, known⟩ := cites r (Option.or_none.symm.trans refers)
  exact ⟨by rw [Keywords.onto, noType]; exact untyped, known⟩

theorem isSite_eq_false_iff : isSite k = false ↔
    (k.type = none → (∀ v, k.default = some v → v.isTruthy = false) ∧ k.enum = none) := by
  rw [isSite]
  cases k.type <;> cases k.default <;> cases k.enum <;> simp

/-- A node whose values are among those of a settled node of its type. -/
theorem IsSettled.of_fewer {k' : Keywords} (settled : IsSettled k) (type : k'.type = k.type)
    (default : ∀ v, k'.default = some v → v.isTruthy = true → k.default = some v)
    (enum : ∀ l, k'.enum = some l → k.enum = some l) : IsSettled k' := by
  refine ⟨⟨fun t v typed said truthy => ?_, fun t l typed listed => ?_⟩,
    isSite_eq_false_iff.mpr fun untyped => ?_⟩
  · exact settled.typed.default t v (type.symm.trans typed) (default v said truthy) truthy
  · exact settled.typed.enum t l (type.symm.trans typed) (enum l listed)
  · obtain ⟨untrue, unlisted⟩ := isSite_eq_false_iff.mp settled.noSite (type.symm.trans untyped)
    refine ⟨fun v said => Bool.eq_false_iff.mpr fun truthy => ?_, ?_⟩
    · exact absurd truthy (Bool.eq_false_iff.mp (untrue v (default v said truthy)))
    · cases listed : k'.enum with
      | none => rfl
      | some l => cases unlisted.symm.trans (enum l listed)

theorem IsSettled.laid (target : IsSettled t) (own : IsSettled k) (untyped : k.type = none) :
    IsSettled (t.onto { k with reference := none }) := by
  obtain ⟨untrue, unlisted⟩ := isSite_eq_false_iff.mp own.noSite untyped
  refine target.of_fewer ?_ (fun v said truthy => ?_) fun l listed => ?_
  · change t.type.or k.type = _
    rw [untyped, Option.or_none]
  · rcases Option.or_eq_some_iff.mp said with above | ⟨_, below⟩
    · exact above
    · exact absurd truthy (Bool.eq_false_iff.mp (untrue v below))
  · rcases Option.or_eq_some_iff.mp listed with above | ⟨_, below⟩
    · exact above
    · cases unlisted.symm.trans below

end

/-- What a node is when its references have been inlined: what it has drawn in is final, and itself it
is settled if it was. -/
structure Draws (names : List String) (k : Keywords) (left : Schema) : Prop where
  cites : Cites names left.keywords
  below : left.children.entered.Each (Schema.EveryMet (IsFinal names))
  settled : IsSettled k → IsSettled left.keywords

theorem Draws.everyMet {names : List String} {k : Keywords} {left : Schema}
    (draws : Draws names k left) (settled : IsSettled k) : left.EveryMet (IsFinal names) :=
  left.everyMet_iff.mpr ⟨⟨draws.settled settled, draws.cites⟩, draws.below⟩

section
open Inlining
variable {names : List String} {allowed : Error → Prop}
  {deeper : Reference → Schema → Except Error Schema}

theorem inlineNode_draws {k : Keywords} {c : Children Child} (cites : Cites names k)
    (follows : ∀ r, k.reference = some r →
      Ends allowed (Draws names k) (deeper r ⟨k, c.map Prod.fst⟩))
    (below : c.entered.Each fun child => child.1.EveryMet (IsFinal names) ∧
      Ends allowed (Schema.EveryMet (IsFinal names)) (child.2 ())) :
    Ends allowed (Draws names k) (inlineNode deeper k c ()) := by
  have node : (c.entered.map Prod.fst).Each (Schema.EveryMet (IsFinal names)) :=
    (Children.each_map_iff _ _ _).mpr (below.imp fun _ => And.left)
  exact ends_inlineNode follows (below.imp fun _ => And.right) ⟨cites, node, id⟩
    fun _ _ _ _ items allOf oneOf anyOf => ⟨cites, { node with items, allOf, oneOf, anyOf }, id⟩

theorem inline_draws (follows : ∀ k c r, Cites names k →
      c.entered.Each (Schema.EveryMet (IsFinal names)) → k.reference = some r →
      Ends allowed (Draws names k) (deeper r ⟨k, c⟩))
    {k : Keywords} {c : Children Schema} (cites : Cites names k)
    (below : c.entered.Each (Schema.EveryMet (IsFinal names))) :
    Ends allowed (Draws names k) (Schema.para (inlineNode deeper) ⟨k, c⟩ ()) := by
  have whole (s : Schema) : Cites names s.keywords →
      s.children.entered.Each (Schema.EveryMet (IsFinal names)) →
      Ends allowed (Draws names s.keywords) (s.para (inlineNode deeper) ()) := by
    induction s using Schema.children_induction with
    | step k c ih =>
      intro cites below
      have same : (c.map fun child => (child, child.para (inlineNode deeper))).map Prod.fst = c := by
        rw [Children.map_map]
        exact c.map_id
      rw [Schema.para_mk]
      refine inlineNode_draws cites (fun r refers => ?_) ?_
      · rw [same]
        exact follows k c r cites below refers
      · refine (Children.each_map_iff _ _ c.entered).mpr ((Children.each_iff _ _).mpr ?_)
        intro child member
        have final := (Children.each_iff _ _).mp below child member
        obtain ⟨own, each⟩ := child.everyMet_iff.mp final
        have ends := ih child ((c.mem_toList_iff child).mpr (Or.inl member)) own.cites each
        exact ⟨final, ends.mono fun left draws => draws.everyMet own.settled⟩
  exact whole ⟨k, c⟩ cites below

/-- The graph has the definitions, and they are final. -/
def Holds (names : List String) (graph : Definitions) : Prop :=
  ∀ name ∈ names, ∃ s, graph.get? name = some s ∧ s.EveryMet (IsFinal names)

theorem inlineWithin_draws {graph : Definitions} (holds : Holds names graph) (location : String)
    (max budget : Nat) {k : Keywords} {c : Children Schema} (cites : Cites names k)
    (below : c.entered.Each (Schema.EveryMet (IsFinal names))) :
    Ends (fun _ => True) (Draws names k) (inlineWithin graph location max budget ⟨k, c⟩) := by
  induction budget generalizing k c with
  | zero =>
    refine inline_draws (fun k c r _ _ _ => ?_) cites below
    cases graph.resolve r location <;> exact trivial
  | succ budget ih =>
    refine inline_draws (fun k c r cites below refers => ?_) cites below
    obtain ⟨untyped, plain, known⟩ := cites r refers
    obtain ⟨target, found, final⟩ := holds r.name known
    obtain ⟨own, each⟩ := target.everyMet_iff.mp final
    have resolved : graph.resolve r location = .ok target := by
      rw [Definitions.resolve, Definitions.target?_of_isPlain plain, found]
    rw [Definitions.overlay, resolved]
    refine (ih (c := target.children.onto c) (own.cites.laid untyped) (each.onto below)).mono
      fun left draws => ?_
    exact { draws with settled := fun settled => draws.settled (own.settled.laid settled untyped) }

end

section
variable {names : List String} {maxDepth : Nat} {graph : Definitions}

/-- The values of a site go to a node with a type, and the site keeps none. -/
theorem everyMet_settle_of_draws (site : Keywords) {k : Keywords} {inlined : Schema}
    (draws : Draws names k inlined) : (settle site inlined).EveryMet (IsFinal names) := by
  refine everyMet_settle (fun k t type final => ?_) ?_
  · have spares : IsSettled
        (spared (movedDefault site inlined.keywords) inlined.keywords.enum k) := by
      refine final.settled.of_fewer rfl (fun v said _ => ?_) fun l listed => ?_
      · exact (Option.ite_none_left_eq_some.mp said).2
      · exact (Option.ite_none_left_eq_some.mp listed).2
    exact ⟨⟨(isTyped_placed_iff type _ _).mpr spares.typed, isSite_of_typed type⟩, final.cites⟩
  · have bare : IsSettled (vacated inlined).keywords := by
      refine ⟨⟨fun _ _ _ said => ?_, fun _ _ _ listed => ?_⟩, Bool.and_false _⟩
      · cases said
      · cases listed
    exact (Schema.everyMet_iff _).mpr ⟨⟨bare, draws.cites⟩, draws.below⟩

theorem everyMet_after (holds : Holds names graph) {p : Position} {k : Keywords}
    {below : Children Schema} {left : Schema} (cites : Cites names k)
    (each : below.entered.Each (Schema.EveryMet (IsFinal names)))
    (ended : after maxDepth graph p ⟨k, below⟩ = .ok left) : left.EveryMet (IsFinal names) := by
  cases carries : isSite k with
  | true =>
    rw [after_of_site (s := ⟨k, below⟩) carries] at ended
    have draws := inlineWithin_draws holds p.location maxDepth maxDepth cites each
    rw [Inlining.inlineReferences] at ended
    cases inlines : Inlining.inlineWithin graph p.location maxDepth maxDepth ⟨k, below⟩ with
    | error e =>
      rw [inlines] at ended
      cases ended
    | ok inlined =>
      rw [inlines] at ended draws
      cases ended
      exact everyMet_settle_of_draws k draws
  | false =>
    have settled := settled_of_after (s := ⟨k, below⟩) carries ended
    rw [after_of_no_site (s := ⟨k, below⟩) carries] at ended
    cases ended
    refine (Schema.everyMet_iff _).mpr ⟨⟨settled, ?_⟩, ?_⟩
    · split <;> exact cites
    · split <;> exact each

/-- Over definitions that are final, a walk leaves a definition that cites only them final. -/
theorem everyMet_of_walked (holds : Holds names graph) {s left : Schema}
    (cites : s.EveryMet (Cites names)) (walked : Walked (after maxDepth graph) s left) :
    left.EveryMet (IsFinal names) := by
  induction s using Schema.children_induction generalizing left with
  | step k c ih =>
    obtain ⟨own, each⟩ := (Schema.everyMet_mk_iff _ _).mp cites
    obtain ⟨p, below, related, ended⟩ := walked.exists_hook
    refine everyMet_after holds own ((Children.each_iff _ _).mpr fun child' member => ?_) ended
    obtain ⟨child, listed, childWalked⟩ := exists_of_mem_right related.toList_entered member
    exact ih child ((c.mem_toList_iff child).mpr (Or.inl listed))
      ((Children.each_iff _ _).mp each child listed) childWalked

end

/-- Where no definition cites a later one, all that is left is settled. -/
theorem settled_of_inOrder {options : Options} {d left : Document}
    (ran : run options d = (left, .ok {})) (ordered : InOrder [] d.definitions) :
    ∀ e ∈ left.definitions, e.2.EveryMet IsSettled := by
  have states {finished rest : Definitions}
      (reached : Reached (after options.maxDepth) d finished rest) :
      InOrder finished.keys rest ∧ ∀ e ∈ finished, e.2.EveryMet (IsFinal finished.keys) := by
    induction reached with
    | start => exact ⟨ordered, by simp⟩
    | @step finished later name root left before walked ih =>
      obtain ⟨⟨cites, further⟩, final⟩ := ih
      have holds : Holds finished.keys (finished ++ (name, root) :: later) := by
        intro name known
        obtain ⟨s, found⟩ := (Table.exists_get?_iff _ _).mpr known
        refine ⟨s, ?_, final _ (Table.mem_of_get? found)⟩
        rw [Table.get?_append, found]
        rfl
      have last := everyMet_of_walked holds cites (walked_of_walkedRoot walked)
      have keys : Table.keys (finished ++ [(name, left)]) = finished.keys ++ [name] :=
        Table.keys_append _ _
      have more : finished.keys ⊆ finished.keys ++ [name] := List.subset_append_left _ _
      rw [keys]
      refine ⟨further, List.forall_mem_append.mpr ⟨fun e member => ?_, ?_⟩⟩
      · exact fun node met => (final e member node met).mono more
      · exact List.forall_mem_singleton.mpr fun node met => (last node met).mono more
  intro e member node met
  exact ((states (walkPass_eq_ok_iff.mp ran).1).2 e member node met).settled

end Defaults
end SchemaGraph
