import SchemaGraph.Pipeline
import SchemaGraph.Proofs.Rewrites
import SchemaGraph.Proofs.Sound

/- The passes that change what the definitions say and leave their names alone. On a grounded document
   each of them finds every reference that it follows, and what it writes refers only to names that
   are there; so the document is grounded afterwards and at every error on the way. -/
namespace SchemaGraph

variable {R : Rule} {graph : Definitions}

namespace Inlining
theorem runList_ends {allowed : Error → Prop} {holds : Schema → Prop} {list : Option (List Child)}
    (good : ∀ l, list = some l → ∀ child ∈ l, Ends allowed holds (child.2 ())) :
    Ends allowed (fun changed => ∀ l, changed = some l → ∀ s ∈ l, holds s) (runList list) :=
  (Guarantee.checked allowed).walkOption fun l found =>
    (Guarantee.checked allowed).mapM fun child member => good l found child member

/-- A node is left to `deeper`, stays as it is, or has its items and compositions inlined. -/
theorem ends_inlineNode {allowed : Error → Prop} {good holds : Schema → Prop}
    {deeper : Reference → Schema → Except Error Schema} {k : Keywords} {c : Children Child}
    (follows : ∀ r, k.reference = some r → Ends allowed holds (deeper r ⟨k, c.map Prod.fst⟩))
    (below : c.entered.Each fun child => Ends allowed good (child.2 ()))
    (kept : holds ⟨k, c.map Prod.fst⟩)
    (changed : ∀ items allOf oneOf anyOf, (∀ s, items = some s → good s) →
      (∀ l, allOf = some l → ∀ s ∈ l, good s) → (∀ l, oneOf = some l → ∀ s ∈ l, good s) →
      (∀ l, anyOf = some l → ∀ s ∈ l, good s) →
      holds ⟨k, { c.map Prod.fst with items, allOf, oneOf, anyOf }⟩) :
    Ends allowed holds (inlineNode deeper k c ()) := by
  rw [inlineNode]
  dsimp only
  cases refers : k.reference with
  | some r => exact follows r refers
  | none =>
    dsimp only
    split
    · exact kept
    · refine ((Guarantee.checked allowed).walkOption below.items).bind fun items inItems => ?_
      refine (runList_ends below.allOf).bind fun allOf inAllOf => ?_
      refine (runList_ends below.oneOf).bind fun oneOf inOneOf => ?_
      refine (runList_ends below.anyOf).bind fun anyOf inAnyOf => ?_
      exact changed items allOf oneOf anyOf inItems inAllOf inOneOf inAnyOf

theorem inlineNode_ends {deeper : Reference → Schema → Except Error Schema}
    (follows : ∀ r s, R.reference r → Schema.Obeys R s → Ends R.allowed (Schema.Obeys R) (deeper r s))
    {k : Keywords} {c : Children Child} (node : Schema.Obeys R ⟨k, c.map Prod.fst⟩)
    (below : c.Each fun child => child.1.Obeys R ∧ Ends R.allowed (Schema.Obeys R) (child.2 ())) :
    Ends R.allowed (Schema.Obeys R) (inlineNode deeper k c ()) := by
  have entered : c.entered.Each fun child => Ends R.allowed (Schema.Obeys R) (child.2 ()) :=
    ((Children.each_iff_entered _ c).mp below).1.imp fun _ => And.right
  exact ends_inlineNode (fun r refers => follows r _ (node.own.reference r refers) node) entered node
    fun _ _ _ _ items allOf oneOf anyOf =>
      .mk node.own { node.below with items, allOf, oneOf, anyOf }

theorem inline_ends {deeper : Reference → Schema → Except Error Schema}
    (follows : ∀ r s, R.reference r → Schema.Obeys R s → Ends R.allowed (Schema.Obeys R) (deeper r s))
    {s : Schema} (h : s.Obeys R) :
    Ends R.allowed (Schema.Obeys R) (s.para (inlineNode deeper) ()) :=
  Schema.Obeys.para
    (motive := fun (run : Unit → Except Error Schema) => Ends R.allowed (Schema.Obeys R) (run ()))
    (fun _ _ node below => inlineNode_ends follows node below) h

end Inlining

namespace Definitions

theorem Grounded.overlay (grounded : graph.Grounded R) {r : Reference} (among : R.reference r)
    {s : Schema} (h : s.Obeys R) (location : String) :
    Ends R.allowed (Schema.Obeys R) (graph.overlay r s location) :=
  (grounded.resolve among location).bind fun _ target => target.onto h.withoutReference

theorem Grounded.inlineWithin (grounded : graph.Grounded R) (location : String) (max budget : Nat)
    {s : Schema} (h : s.Obeys R) :
    Ends R.allowed (Schema.Obeys R) (Inlining.inlineWithin graph location max budget s) := by
  induction budget generalizing s with
  | zero =>
    refine Inlining.inline_ends (fun r s among _ => ?_) h
    exact (grounded.resolve among location).bind fun _ _ =>
      R.depthExceeded location max
  | succ budget ih =>
    refine Inlining.inline_ends (fun r s among own => ?_) h
    exact (grounded.overlay among own location).bind fun _ inlined => ih inlined

end Definitions

namespace AnyOf

theorem resolveMember_ends (grounded : graph.Grounded R) (position : Position) {member : Schema}
    (h : member.Obeys R) :
    Ends R.allowed (Schema.Obeys R) (resolveMember graph position member) := by
  rw [resolveMember]
  cases refers : member.keywords.reference with
  | none => exact h
  | some r => exact grounded.overlay (h.own.reference r refers) h position.location

theorem after_ends (grounded : graph.Grounded R) (position : Position) {s : Schema}
    (h : s.Obeys R) :
    Ends R.allowed (Schema.Obeys R) (after graph position s) := by
  rw [after]
  cases found : s.children.anyOf with
  | none => exact h
  | some members =>
    refine Ends.bind ((Guarantee.checked _).mapM fun member listed =>
      resolveMember_ends grounded position (h.below.anyOf members found member listed))
      fun resolved _ => ?_
    have bare : Schema.Obeys R { s with children.anyOf := none } :=
      .mk h.own { h.below with anyOf := by simp }
    dsimp only
    split
    · exact Schema.Obeys.mk { bare.own with } bare.below
    · exact bare

end AnyOf

namespace Defaults

theorem value_default {s : Schema} (h : s.Obeys R) (given : Bool) :
    ∀ v, (if given then s.keywords.default else none) = some v → R.value v := by
  cases given with
  | true => exact h.own.default
  | false => simp

theorem after_ends (grounded : graph.Grounded R) (maxDepth : Nat) (position : Position) {s : Schema}
    (h : s.Obeys R) :
    Ends R.allowed (Schema.Obeys R) (after maxDepth graph position s) := by
  rw [after]
  dsimp only
  split
  · exact h
  · split
    · exact obeys_place (value_default h _) _ h
    · refine (grounded.inlineWithin position.location maxDepth maxDepth h).bind fun inlined obeys => ?_
      have bare : Schema.Obeys R
          { inlined with keywords.default := none, keywords.enum := none } :=
        .mk { obeys.own with default := by simp } obeys.below
      have updated := obeys_updatePrimitive? (fun _ => obeys_place
        (value_default obeys (s.keywords.default.any Json.isTruthy)) inlined.keywords.enum) bare
      change Schema.Obeys R (Option.getD _ _)
      cases changed : updatePrimitive? _ _ with
      | none => exact bare
      | some primitive => exact updated primitive changed

end Defaults

namespace Repetition

/-- The graph is grounded, and the hints of the group obey the rule. -/
structure Setting.Grounded (R : Rule) (g : Setting) : Prop where
  graph : g.graph.Grounded R
  group : ∀ v, g.group = some v → R.value v

theorem wrap_ends {g : Setting} (grounded : g.Grounded R) (b : Bounds) {property : Schema}
    (h : property.Obeys R) :
    Ends R.allowed (Schema.Obeys R) (wrap g b property) :=
  (grounded.graph.deref h g.location).bind fun _ target => Schema.Obeys.mk
    { Keywords.obeys_empty R with xml := target.own.xml, group := grounded.group }
    { Children.obeys_empty with items := forall_eq_some h }

theorem obeys_boundArray {group : Option Json} (given : ∀ v, group = some v → R.value v)
    (b : Bounds) {k : Keywords} (h : k.Obeys R) : (boundArray group b k).Obeys R := by
  refine { h with group := ?_ }
  unfold boundArray
  dsimp only
  split
  · exact h.group
  · unfold joinGroups
    split
    · exact given
    · exact forall_eq_some (R.value_of_ne _ (by simp))

/-- A child that obeys the rule and whose content is folded into a schema which does. -/
def Foldable (R : Rule) (child : Child) : Prop :=
  child.1.Obeys R ∧ ∀ b, Ends R.allowed (Schema.Obeys R) (child.2 b)

/-- Visiting such a child gives a schema that obeys, whether or not it is a reference. -/
def Folds (R : Rule) (visit : Child → Bounds → Except Error Schema) : Prop :=
  ∀ child, Foldable R child → ∀ b, Ends R.allowed (Schema.Obeys R) (visit child b)

section
variable {g : Setting} {visit : Child → Bounds → Except Error Schema}

theorem boundProperty_ends (grounded : g.Grounded R) (folds : Folds R visit)
    (b : Bounds) (required : List String) {entry : String × Child} (h : Foldable R entry.2) :
    Ends R.allowed (fun e => e.2.Obeys R) (boundProperty g visit b required entry) := by
  rw [boundProperty]
  split
  · exact (folds entry.2 h _).bind fun _ folded => folded
  · split
    · exact h.1
    · exact (wrap_ends grounded _ h.1).bind fun _ wrapped => wrapped

theorem boundMembers_ends (folds : Folds R visit) {k : Keywords} {c : Children Child}
    (node : Schema.Obeys R ⟨k, c.map Prod.fst⟩)
    (below : c.Each (Foldable R)) (b : Bounds) :
    Ends R.allowed (Schema.Obeys R) (boundMembers visit k c b) := by
  have members (l : List Child) (foldable : ∀ child ∈ l, Foldable R child) :
      Ends R.allowed (fun l => ∀ s ∈ l, Schema.Obeys R s) (l.mapM (visit · b)) :=
    (Guarantee.checked _).mapM fun child listed => folds child (foldable child listed) b
  rw [boundMembers]
  split
  · rename_i l found
    refine (members l (below.oneOf l found)).bind fun folded inFolded => ?_
    exact Schema.Obeys.mk node.own { node.below with oneOf := forall_eq_some inFolded }
  · rename_i l _ found
    refine (members l (below.allOf l found)).bind fun folded inFolded => ?_
    exact Schema.Obeys.mk node.own { node.below with allOf := forall_eq_some inFolded }
  · exact node

theorem boundContent_ends (grounded : g.Grounded R) (folds : Folds R visit)
    {properties : Option (Table Child)}
    (below : ∀ t, properties = some t → ∀ e ∈ t, Foldable R e.2) (b : Bounds) {node : Schema}
    (h : node.Obeys R) :
    Ends R.allowed (Schema.Obeys R) (boundContent g visit properties b node) := by
  unfold boundContent
  dsimp only
  split
  · exact Schema.Obeys.mk (obeys_boundArray grounded.group b h.own) h.below
  · cases properties with
    | none => exact h
    | some t =>
      refine Ends.bind ((Guarantee.checked _).mapM fun entry listed =>
        boundProperty_ends grounded folds b (node.keywords.required.getD [])
          (below t rfl entry listed)) fun bounded inBounded => ?_
      exact Schema.Obeys.mk { h.own with } { h.below with properties := forall_eq_some inBounded }

theorem boundNode_ends (grounded : g.Grounded R) (folds : Folds R visit)
    {k : Keywords} {c : Children Child} (node : Schema.Obeys R ⟨k, c.map Prod.fst⟩)
    (below : c.Each (Foldable R)) (b : Bounds) :
    Ends R.allowed (Schema.Obeys R) (boundNode g visit k c b) :=
  (boundMembers_ends folds node below b).bind fun _ each =>
    boundContent_ends grounded folds below.properties b each

end

theorem fold_ends {g : Setting} (grounded : g.Grounded R) (hops : Nat) {s : Schema}
    (h : s.Obeys R) (b : Bounds) :
    Ends R.allowed (Schema.Obeys R) (fold g hops s b) := by
  -- Over the references on the way; between two of them the schema itself is recursed over.
  induction hops generalizing s b with
  | zero => exact R.depthExceeded g.location 0
  | succ hops ih =>
    rw [fold]
    refine Schema.Obeys.para (motive := fun (run : Bounds → Except Error Schema) => ∀ b,
      Ends R.allowed (Schema.Obeys R) (run b))
      (fun k c node below b => boundNode_ends grounded (fun child foldable b => ?_) node below b) h b
    cases refers : child.1.keywords.reference with
    | none => exact foldable.2 b
    | some r =>
      exact (grounded.graph.resolve (foldable.1.own.reference r refers) g.location).bind fun _ target =>
        ih target b

theorem unfoldGroup_ends (grounded : graph.Grounded R) (position : Position) {slot : Schema}
    (h : slot.Obeys R) :
    Ends R.allowed (Schema.Obeys R) (unfoldGroup graph position slot) := by
  rw [unfoldGroup]
  split
  · rename_i items _ found
    exact (grounded.deref (h.below.items items found) position.location).bind fun _ content =>
      fold_ends (g := ⟨graph, slot.keywords.group, position.location⟩) ⟨grounded, h.own.group⟩ _
        content _
  · exact h

theorem after_ends (grounded : graph.Grounded R) (position : Position) {s : Schema}
    (h : s.Obeys R) :
    Ends R.allowed (Schema.Obeys R) (after graph position s) := by
  have slots (l : List Schema) (each : ∀ slot ∈ l, slot.Obeys R) :
      Ends R.allowed (fun l => ∀ s ∈ l, Schema.Obeys R s) (l.mapM (unfoldGroup graph position)) :=
    (Guarantee.checked _).mapM fun slot listed => unfoldGroup_ends grounded position (each slot listed)
  rw [after]
  split
  · rename_i members found
    refine (slots members (h.below.allOf members found)).bind fun unfolded inUnfolded => ?_
    exact Schema.Obeys.mk h.own { h.below with allOf := forall_eq_some inUnfolded }
  · rename_i members _ found
    refine (slots members (h.below.oneOf members found)).bind fun unfolded inUnfolded => ?_
    exact Schema.Obeys.mk h.own { h.below with oneOf := forall_eq_some inUnfolded }
  · exact h

end Repetition

namespace Restriction

theorem attributes?_each (grounded : graph.Grounded R) (restricted : Table Schema) (depth : Nat)
    {r : Reference} {found : Table Schema} (each : ∀ e ∈ found, e.2.Obeys R) :
    ∀ t, attributes? graph restricted depth r found = some t → ∀ e ∈ t, e.2.Obeys R := by
  induction depth generalizing r found with
  | zero => simp [attributes?]
  | succ depth ih =>
    rw [attributes?]
    split
    · rintro _ ⟨⟩
      exact each
    · rename_i base defined
      have collected := obeys_collectBase restricted each (grounded.get? defined)
      dsimp only
      split
      · rintro _ ⟨⟩
        exact collected
      · exact ih collected

theorem after_ends (grounded : graph.Grounded R) (maxDepth : Nat) (position : Position) {s : Schema}
    (h : s.Obeys R) :
    ((Guarantee.state Nat).throwing R.allowed).Holds
      (Schema.Obeys R) (after maxDepth graph position s) := by
  have unmarked : Schema.Obeys R
      { s with keywords.complexRestriction := none } :=
    .mk { h.own with complexRestriction := by simp } h.below
  rw [after]
  split
  · exact Guarantee.pure _ h
  · refine Guarantee.bind _ (p := fun _ => True) (fun _ => trivial) fun _ _ => ?_
    dsimp only
    split
    · rename_i base content rest members
      split
      · exact Guarantee.pure _ unmarked
      · split
        · exact fun _ => R.depthExceeded _ maxDepth
        · rename_i attributes inherits
          have listed := unmarked.below.allOf _ members
          have contentObeys := listed content (by simp)
          have inheritedObeys := obeys_inherited contentObeys
            (attributes?_each grounded _ maxDepth (by simp) attributes inherits)
          have others : ∀ member ∈ rest, member.Obeys R :=
            fun member later => listed member (by simp [later])
          refine Guarantee.pure _ (Schema.Obeys.mk unmarked.own
            { unmarked.below with allOf := forall_eq_some ?_ })
          exact List.forall_mem_cons.mpr
            ⟨inheritedObeys,
              List.forall_mem_cons.mpr ⟨obeys_restrictContent contentObeys, others⟩⟩
    · exact Guarantee.pure _ unmarked

theorem run_rewritten (options : Options) {d : Document} (grounded : d.definitions.Grounded R) :
    d.Rewritten R (run options d) := by
  have walked := Document.rewritten_walkAfterM (g := .state Nat) grounded
    (fun _ grounded position _ h => after_ends grounded options.maxDepth position h) 0
  rw [run]
  generalize StateT.run (d.walkAfterM (after options.maxDepth)) 0 = out at walked
  obtain ⟨⟨left, _ | _⟩, found⟩ := out
  · exact walked.failed
  · dsimp only
    split
    · exact walked.trans (Document.rewritten_unreported walked.grounded)
    · exact walked.trans (Document.rewritten_changeAfter walked.grounded
        fun _ _ => Squash.obeys_squashNode _)

end Restriction

namespace TypeExpansion

/-- The shape and its references obey the rule. -/
structure Shape.Obeys (R : Rule) (shape : Shape) : Prop where
  reference : R.reference shape.reference
  target : shape.target.Obeys R
  descendants : ∀ l, shape.descendants = some l → ∀ r ∈ l, R.reference r

theorem follow_ends (grounded : graph.Grounded R) (location : String) (max depth : Nat)
    {shape : Shape} (h : shape.Obeys R) :
    Ends R.allowed (Shape.Obeys R) (follow graph location max depth shape) := by
  fun_induction follow graph location max depth shape with
  | case1 | case3 => exact h
  | case2 => exact R.depthExceeded location max
  | case4 depth shape next found ih =>
    have among := h.target.own.typeOf next found
    refine (grounded.resolve among location).bind fun target each => ih target ⟨among, each, ?_⟩
    intro l listed
    rcases Option.or_eq_some_iff.mp listed with own | ⟨_, below⟩
    · exact h.descendants l own
    · exact each.own.descendants l below

/-- Every text of the mapping that reads as a reference obeys the rule. -/
def Mapped (R : Rule) (t : Table String) : Prop :=
  ∀ raw ∈ t.values, ∀ r, Reference.parse? raw = some r → R.reference r

theorem mapped_put {t : Table String} (mapped : Mapped R t) (name : String) {member : Reference}
    (h : R.reference member) : Mapped R (t.put name member.raw) := by
  intro raw listed r parsed
  obtain ⟨entry, found, rfl⟩ := List.mem_map.mp listed
  rcases Table.mem_of_mem_put found with earlier | rfl
  · exact mapped entry.2 (List.mem_map_of_mem earlier) r parsed
  · -- The text of a reference reads as that reference.
    rw [Reference.eq_of_raw (Reference.raw_of_parse? parsed)]
    exact h

theorem mapping_ends (grounded : graph.Grounded R) (location : String) {members : List Reference}
    (among : ∀ r ∈ members, R.reference r) (isFirst : Bool) {t : Table String}
    (mapped : Mapped R t) :
    Ends R.allowed (Mapped R) (mapping graph location isFirst t members) := by
  induction members generalizing isFirst t with
  | nil => exact mapped
  | cons member rest ih =>
    obtain ⟨known, others⟩ := List.forall_mem_cons.mp among
    rw [mapping]
    refine (grounded.resolve known location).bind fun target _ => ih others false ?_
    exact List.foldlRecOn (motive := Mapped R) _ _ mapped
      fun t earlier name _ => mapped_put earlier name known

theorem obeys_asUnion {s : Schema} (h : s.Obeys R) {members : List Reference}
    (among : ∀ r ∈ members, R.reference r) {mapping : Table String} (mapped : Mapped R mapping) :
    (asUnion s members mapping).Obeys R := by
  refine .mk
    { h.own with
      ancestor := by simp, descendants := by simp, mapping := ?_
      discriminator := forall_eq_some (R.extra_nil _) }
    { h.below with allOf := by simp, anyOf := by simp, properties := by simp, oneOf := ?_ }
  · rintro _ ⟨⟩ _ ⟨⟩
    exact mapped
  · rintro _ ⟨⟩
    exact List.forall_mem_map.mpr fun r member => Schema.obeys_ofReference (among r member)

theorem obeys_copyShape {s target : Schema} (h : s.Obeys R) (ht : target.Obeys R) :
    (copyShape s target).Obeys R := by
  have ancestor := forall_or_eq_some h.own.ancestor ht.own.ancestor
  have annotation : ∀ x, ((s.keywords.xml.or target.keywords.xml).map fun x : Xml =>
      if x.attr = some true then x else { x with attr := none }) = some x →
        R.extra Xml.names x.extra := by
    simp only [Option.map_eq_some_iff]
    rintro _ ⟨x, own, rfl⟩
    have extra := forall_or_eq_some h.own.xml ht.own.xml x own
    split <;> exact extra
  have sample := forall_or_eq_some h.own.sample ht.own.sample
  have descendants := forall_or_eq_some h.own.descendants ht.own.descendants
  rw [copyShape]
  dsimp only
  split
  · rename_i base found
    refine Schema.Obeys.mapBase (.mk ?_ ht.below) fun _ _ => ancestor base found
    exact { ht.own with
      xml := annotation, sample := sample, ancestor := ancestor, descendants := descendants }
  · exact .mk { ht.own with
      xml := annotation, sample := sample, ancestor := ancestor, descendants := descendants }
      ht.below

theorem obeys_adaptNames (dictionary : Dictionary) (definition : String) (typeOf : Reference)
    (isPart : Bool) {s : Schema} (h : s.Obeys R) :
    (adaptNames dictionary definition typeOf isPart s).Obeys R := by
  have stripped : Schema.Obeys R { s with keywords := withoutXsiType s.keywords } :=
    .mk { h.own with
      polymorphic := by simp [withoutXsiType], xsiTypeXml := by simp [withoutXsiType]
      xsiTypeAbstract := by simp [withoutXsiType] } h.below
  rw [adaptNames]
  dsimp only
  split
  · split
    · exact .mk { stripped.own with } stripped.below
    · exact stripped
  · split
    · exact .mk { h.own with } h.below
    · exact h

theorem expand_ends (dictionary : Dictionary) (maxDepth : Nat) (grounded : graph.Grounded R)
    (position : Position) {s : Schema} (h : s.Obeys R) {typeOf : Reference}
    (among : R.reference typeOf) :
    Ends R.allowed (Schema.Obeys R) (expand dictionary maxDepth graph position s typeOf) := by
  rw [expand]
  dsimp only
  refine (grounded.resolve among _).bind fun first inFirst => ?_
  have start : Shape.Obeys R
      ⟨typeOf, first, s.keywords.descendants.or first.keywords.descendants⟩ :=
    ⟨among, inFirst, fun l found => (Option.or_eq_some_iff.mp found).elim (h.own.descendants l)
      fun below => inFirst.own.descendants l below.2⟩
  refine (follow_ends grounded _ maxDepth maxDepth start).bind fun shape inShape => ?_
  have copy := obeys_adaptNames dictionary position.definition typeOf
    (s.keywords.forPart.any Json.isTruthy) (obeys_copyShape h inShape.target)
  split
  · have members : ∀ r ∈ shape.reference :: shape.descendants.getD [], R.reference r := by
      refine List.forall_mem_cons.mpr ⟨inShape.reference, ?_⟩
      cases listed : shape.descendants with
      | none => simp
      | some l => exact inShape.descendants l listed
    refine (mapping_ends grounded _ members true (by simp [Mapped, Table.values])).bind
      fun mapping mapped => ?_
    exact obeys_asUnion copy members mapped
  · exact copy

theorem after_ends (dictionary : Dictionary) (maxDepth : Nat) (grounded : graph.Grounded R)
    (position : Position) {s : Schema} (h : s.Obeys R) :
    ((Guarantee.state Bool).throwing R.allowed).Holds
      (Schema.Obeys R) (after dictionary maxDepth graph position s) := by
  rw [after]
  split
  · exact Guarantee.pure _ h
  · rename_i typeOf found
    refine Guarantee.bind _ (Guarantee.lift _ (expand_ends dictionary maxDepth grounded position h
      (h.own.typeOf typeOf found))) fun expanded each => ?_
    refine Guarantee.bind _ (p := fun _ => True) (fun _ => trivial) fun _ _ => ?_
    exact Guarantee.pure _ each

theorem round_rewritten (dictionary : Dictionary) (maxDepth : Nat) {d : Document}
    (grounded : d.definitions.Grounded R) {out : (Document × Except Error Unit) × Bool}
    (walked : (d.walkAfterM (after dictionary maxDepth)).run false = out) : d.Rewritten R out.1 :=
  walked ▸ Document.rewritten_walkAfterM (g := .state Bool) grounded
    (fun _ grounded position _ h => after_ends dictionary maxDepth grounded position h) false

theorem expandAll_rewritten (dictionary : Dictionary) (maxDepth rounds : Nat) {d : Document}
    (grounded : d.definitions.Grounded R) :
    d.Rewritten R (expandAll dictionary maxDepth rounds d) := by
  -- Each round starts from the grounded document that the last one left.
  fun_induction expandAll dictionary maxDepth rounds d with
  | case1 rounds d left noted e walked =>
    exact round_rewritten dictionary maxDepth grounded walked
  | case2 rounds d left _ walked =>
    exact { round_rewritten dictionary maxDepth grounded walked with ended := trivial }
  | case3 d left _ walked =>
    exact { round_rewritten dictionary maxDepth grounded walked with
      ended := R.depthExceeded _ maxDepth }
  | case4 d left _ rounds walked ih =>
    have round := round_rewritten dictionary maxDepth grounded walked
    exact round.trans (ih round.grounded)

theorem run_rewritten (dictionary : Dictionary) (options : Options) {d : Document}
    (grounded : d.definitions.Grounded R) : d.Rewritten R (run dictionary options d) := by
  have expanded := expandAll_rewritten dictionary options.maxDepth options.maxDepth grounded
  rw [run]
  generalize expandAll dictionary options.maxDepth options.maxDepth d = out at expanded
  obtain ⟨left, _ | _⟩ := out
  · exact expanded.failed
  · dsimp only
    split
    · have graph : Definitions.Grounded R
          (Table.mapValues (fun s => { s with keywords.polymorphic := none }) left.definitions) :=
        expanded.grounded.mapValues fun _ obeys =>
          .mk { obeys.own with polymorphic := by simp } obeys.below
      exact expanded.trans (Document.rewritten_of_definitions graph
        (.of_eq (Table.keys_mapValues _ _)))
    · exact expanded.trans (Document.rewritten_unreported expanded.grounded)

end TypeExpansion

namespace XmlHints

theorem run_rewritten (pure : Bool) {d : Document} (grounded : d.definitions.Grounded R) :
    d.Rewritten R (run pure d) := by
  have keeps : (visitor pure).Keeps .plain (Schema.Obeys R) := by
    refine ⟨fun p _ h => obeys_withXml h (extra_hint p.enclosing h), fun _ _ h => ?_⟩
    change Schema.Obeys R (ite _ _ _)
    split
    · exact obeys_withXml h (by simp)
    · exact h
  exact Document.rewritten_of_definitions (grounded.change d.flavor keeps)
    (.of_eq (d.keys_change _))

end XmlHints

namespace Canonical

theorem sort_rewritten {d : Document} (grounded : d.definitions.Grounded R) :
    d.Rewritten R (sort d) := by
  have sorted : d.definitions.sortByKey.Perm d.definitions := List.mergeSort_perm _ _
  refine Document.rewritten_of_definitions ⟨fun name named => ?_, fun e member => ?_⟩
    (sorted.map Prod.fst)
  · exact (sorted.map Prod.fst).mem_iff.mpr (grounded.defines name named)
  · exact grounded.obeys e (sorted.mem_iff.mp member)

end Canonical

namespace Pass

/-- The passes that keep the names of the definitions and change only what these say. -/
def contentOnly : List Pass :=
  [expandTypes, restrict, squash, collapseAnyOf, relaxChoices, foldRepetition, typeDefaults,
    placeXmlHints, dropEmptyQualifiers, canonicalize, sort]

theorem run_rewritten (dictionary : Dictionary) (options : Options) {d : Document} {pass : Pass}
    (member : pass ∈ contentOnly) (grounded : d.definitions.Grounded R) :
    d.Rewritten R (pass.run dictionary options d) := by
  simp only [contentOnly, List.mem_cons, List.not_mem_nil, or_false] at member
  rcases member with rfl | rfl | rfl | rfl | rfl | rfl | rfl | rfl | rfl | rfl | rfl
  · exact TypeExpansion.run_rewritten dictionary options grounded
  · exact Restriction.run_rewritten options grounded
  · exact Document.rewritten_changeAfter grounded fun _ _ => Squash.obeys_squashNode _
  · exact Document.rewritten_walkPass grounded fun _ grounded position _ =>
      AnyOf.after_ends grounded position
  · exact Document.rewritten_changeAfter grounded fun position _ => Choice.obeys_after position
  · exact Document.rewritten_walkPass grounded fun _ grounded position _ =>
      Repetition.after_ends grounded position
  · exact Document.rewritten_walkPass grounded fun _ grounded position _ =>
      Defaults.after_ends grounded options.maxDepth position
  · exact XmlHints.run_rewritten options.pureXml grounded
  · exact Document.rewritten_changeAfter grounded fun position _ =>
      XmlHints.obeys_dropEmptyQualifier position
  · exact Document.rewritten_changeAfter grounded fun position _ =>
      Canonical.obeys_after options.v3Nullable position
  · exact Canonical.sort_rewritten grounded

theorem run_settled {names : List String} (dictionary : Dictionary) (options : Options)
    {d : Document} {pass : Pass} (member : pass ∈ contentOnly) (sound : d.Sound names) :
    Document.Settled names (pass.run dictionary options d) :=
  sound.settled (run_rewritten dictionary options member
    ((Definitions.sound_iff_grounded _ _).mp sound.graph))

/-- On a closed document with plain references the passes that change only content leave such a
document, also where they fail, and they do not fail for want of a definition. -/
theorem contentOnly_keeps_integrity (dictionary : Dictionary) (options : Options) (d : Document)
    (pass : Pass) (member : pass ∈ contentOnly) (closed : d.Closed) (plain : d.Plain) :
    (pass.run dictionary options d).1.Closed ∧ (pass.run dictionary options d).1.Plain ∧
      ∀ raw location,
        (pass.run dictionary options d).2 ≠ .error (.unresolvedReference raw location) := by
  obtain ⟨left, ended⟩ := run_settled dictionary options member
    (Document.sound_of_closed closed plain)
  refine ⟨left.closed, left.plain, fun raw location failed => ?_⟩
  rw [failed] at ended
  exact ended raw location rfl

/-- The home has the shape of a polymorphic definition, which stands for itself or its extension. -/
def household : Document where
  raw := [("paths", .obj [("$ref", .str "#/definitions/Home")]), ("definitions", .null)]
  flavor := .definitions
  hasSlot := true
  definitions :=
    let named (name : String) : Reference := .toDefinition name .definitions
    let pet : Schema := { keywords := { typeOf := some (named "Animal") } }
    let animal : Keywords := {
      type := some "object", polymorphic := some (.bool true), xsiType := some "Animal",
      descendants := some [named "Dog"] }
    [("Home", { children := { properties := some [("pet", pet)] } }),
      ("Animal", { keywords := animal }),
      ("Dog", { children := { allOf := some [.ofReference (named "Animal")] } })]

theorem contentOnly_keeps_integrity_household :
    expandTypes ∈ contentOnly ∧ household.Closed ∧ household.Plain ∧
      ((expandTypes.run { unions := true } {} household).1.Closed ∧
        (expandTypes.run { unions := true } {} household).1.Plain ∧
        ∀ raw location, (expandTypes.run { unions := true } {} household).2 ≠
          .error (.unresolvedReference raw location)) ∧
      ((expandTypes.run { unions := true } {} household).1.definitions.get? "Home").map
        (fun s => s.occurrences.map (·.reference.name)) = some ["Animal", "Dog"] :=
  ⟨by decide, rfl, by decide,
    contentOnly_keeps_integrity { unions := true } {} household expandTypes (by decide) rfl
      (by decide), by decide⟩

end Pass

end SchemaGraph
