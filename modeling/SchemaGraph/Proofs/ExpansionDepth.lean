import Mathlib.Data.Nat.Find
import Mathlib.Logic.Relation
import SchemaGraph.Proofs.ContentPasses
import SchemaGraph.Proofs.Expanded
import SchemaGraph.Proofs.ShapeChains

/- Expansion raises no false alarm. Where shapes go no deeper than allowed, a rank falls from every
   definition to the shapes in it. Every round lowers the shapes that are left by one more, although
   what it copies has in part been rewritten by then, so the rounds that are allowed suffice. -/
namespace SchemaGraph

theorem Schema.Every.everyMet {holds : Keywords → Prop} {s : Schema} (every : s.Every holds) :
    s.EveryMet holds := by
  induction s using children_induction with
  | step k c ih =>
    refine (everyMet_mk_iff k c).mpr ⟨every.own, ?_⟩
    refine (Children.each_iff _ _).mpr fun child entered => ?_
    have listed := (c.mem_toList_iff child).mpr (Or.inl entered)
    exact ih child listed ((Children.each_iff _ _).mp every.below child listed)

/-- The error is that of a reference which means no node. -/
def Error.Unresolved (e : Error) : Prop := ∃ raw location, e = .unresolvedReference raw location

/-- From nothing noted to nothing noted. -/
def unnoted : Guarantee (StateM Bool) where
  Holds p x := (x.run false).2 = false ∧ p (x.run false).1
  mono h weaker := ⟨h.1, weaker _ h.2⟩
  pure h := ⟨rfl, h⟩
  bind := by
    intro α β p q x f ⟨quiet, holds⟩ hf
    rw [StateT.run_bind]
    generalize x.run false = out at quiet holds
    obtain ⟨a, noted⟩ := out
    cases quiet
    exact hf a holds

namespace TypeExpansion

section
variable {related : String → String → Prop}

/-- In a relation without circles no path comes to a name twice. -/
theorem nodup_of_acyclic (acyclic : ∀ name, ¬ Relation.TransGen related name name)
    {path : List String} (chain : path.IsChain related) : path.Nodup := by
  have : IsTrans String (Relation.TransGen related) := ⟨fun _ _ _ => .trans⟩
  have further : path.IsChain (Relation.TransGen related) := chain.imp fun _ _ => .single
  refine (List.isChain_iff_pairwise.mp further).imp fun {a b} step same => ?_
  exact acyclic b (same ▸ step)

open Classical in
/-- The length of the longest path from the name, as far as the bound. -/
noncomputable def depthOf (related : String → String → Prop) (bound : Nat) (name : String) : Nat :=
  Nat.findGreatest (fun n => ∃ path, List.IsChain related (name :: path) ∧ path.length = n) bound

theorem depthOf_le (bound : Nat) (name : String) : depthOf related bound name ≤ bound := by
  classical exact Nat.findGreatest_le bound

theorem depthOf_lt_of_related {bound : Nat}
    (short : ∀ path : List String, path.IsChain related → path.length ≤ bound + 1)
    {name other : String} (step : related name other) :
    depthOf related bound other < depthOf related bound name := by
  classical
  obtain ⟨path, chain, length⟩ : ∃ path, List.IsChain related (other :: path) ∧
      path.length = depthOf related bound other :=
    Nat.findGreatest_spec (P := fun n => ∃ path, List.IsChain related (other :: path) ∧
      path.length = n) (Nat.zero_le bound) ⟨[], .singleton other, rfl⟩
  have longer : List.IsChain related (name :: other :: path) := .cons_cons step chain
  have few := short _ longer
  simp only [List.length_cons] at few
  refine Nat.lt_of_lt_of_le (Nat.lt_succ_self _) (Nat.le_findGreatest (by omega) ?_)
  exact ⟨other :: path, longer, by rw [List.length_cons, length]⟩

end

/-- A node somewhere in the definition has the shape of the other. -/
def ShapedBy (definitions : Definitions) (name other : String) : Prop :=
  ∃ s, (name, s) ∈ definitions ∧ ∃ k ∈ s.nodes, ∃ r, k.typeOf = some r ∧ r.name = other

/-- All shapes in the definition rank below it. -/
abbrev Below (rank : String → Nat) (name : String) : Keywords → Prop :=
  ShapesIn (fun r => rank r.name < rank name) fun _ => True

/-- The shapes that a walk meets in the definition rank below it by more than the number of rounds
that are done. -/
def Lowered (rank : String → Nat) (rounds : Nat) (name : String) (s : Schema) : Prop :=
  s.Every (Below rank name) ∧
    s.EveryMet fun k => ∀ r, k.typeOf = some r → rank r.name + rounds < rank name

section
variable {rank : String → Nat} {graph : Definitions}
  (ranked : ∀ e ∈ graph, e.2.Every (Below rank e.1))
include ranked

theorem rank_final_le {r final : Reference} {targets : List Schema}
    (chain : Chain graph r targets final) : rank final.name ≤ rank r.name := by
  induction chain with
  | last => exact Nat.le_refl _
  | next meant further _ ih =>
    have lower := (every_of_target? ranked meant).own.1 _ further
    exact Nat.le_trans ih (Nat.le_of_lt lower)

theorem resolve_ends (r : Reference) (location : String) :
    Ends Error.Unresolved (fun s => s.Every (Below rank r.name)) (graph.resolve r location) := by
  rw [Definitions.resolve]
  cases meant : graph.target? r with
  | none => exact ⟨_, _, rfl⟩
  | some target => exact every_of_target? ranked meant

/-- A chain is over before its rank is used up. -/
theorem follow_ends_of_rank (location : String) (max : Nat) {depth : Nat} {shape : Shape}
    (below : shape.target.Every (Below rank shape.reference.name))
    (low : rank shape.reference.name ≤ depth) :
    Ends Error.Unresolved (fun _ => True) (follow graph location max depth shape) := by
  fun_induction follow graph location max depth shape with
  | case1 | case3 => trivial
  | case2 shape next further => exact absurd (below.own.1 next further) (by omega)
  | case4 depth shape next further ih =>
    have lower := below.own.1 next further
    refine (resolve_ends ranked next location).bind fun target inside => ih target inside ?_
    change rank next.name ≤ depth
    omega

theorem mapping_ends_unresolved (location : String) (isFirst : Bool) (t : Table String)
    (members : List Reference) :
    Ends Error.Unresolved (fun _ => True) (mapping graph location isFirst t members) := by
  induction members generalizing isFirst t with
  | nil => trivial
  | cons member rest ih =>
    rw [mapping]
    exact (resolve_ends ranked member location).bind fun target _ => ih _ _

theorem expand_ends_of_rank (dictionary : Dictionary) {maxDepth : Nat} (p : Position) (s : Schema)
    {typeOf : Reference} (low : rank typeOf.name ≤ maxDepth) :
    Ends Error.Unresolved (fun made => expand dictionary maxDepth graph p s typeOf = .ok made)
      (expand dictionary maxDepth graph p s typeOf) := by
  have ends : Ends Error.Unresolved (fun _ => True)
      (expand dictionary maxDepth graph p s typeOf) := by
    rw [expand]
    refine (resolve_ends ranked typeOf _).bind fun first inside => ?_
    refine (follow_ends_of_rank ranked _ _ inside low).bind fun shape _ => ?_
    dsimp only
    split
    · exact (mapping_ends_unresolved ranked _ _ _ _).bind fun _ _ => trivial
    · trivial
  cases made : expand dictionary maxDepth graph p s typeOf with
  | ok made => rfl
  | error e =>
    rw [made] at ends
    exact ends

/-- What a node becomes ranks below the definition by one round more: it ranks below the last shape,
which ranks below the definition itself. -/
theorem lowered_of_expand {dictionary : Dictionary} {maxDepth rounds : Nat} {p : Position}
    {s made : Schema} {typeOf : Reference} {name : String}
    (expanded : expand dictionary maxDepth graph p s typeOf = .ok made)
    (lower : rank typeOf.name + rounds < rank name) :
    Lowered rank (rounds + 1) name made := by
  have deep : made.Every
      (ShapesIn (fun r => rank r.name + (rounds + 1) < rank name) fun _ => True) := by
    refine every_of_expand expanded (fun _ _ _ _ => trivial) ?_
    intro targets final target chain meant
    -- The last shape ranks no higher than the first, and what is in it ranks lower.
    have falls := rank_final_le ranked chain
    intro k inside
    refine ⟨fun r shaped => ?_, fun _ _ _ _ => trivial⟩
    have under := (every_of_target? ranked meant k inside).1 r shaped
    omega
  have below : made.Every (Below rank name) := by
    intro k inside
    refine ⟨fun r shaped => ?_, fun _ _ _ _ => trivial⟩
    have under := (deep k inside).1 r shaped
    omega
  exact ⟨below, fun node met => (deep.everyMet node met).1⟩

/-- One visit of a definition: what its children were lowered to stays, and the node follows. -/
theorem lowered_after {dictionary : Dictionary} {maxDepth rounds : Nat} {p : Position}
    {name : String} {k : Keywords} {c walked : Children Schema} (low : ∀ name, rank name ≤ maxDepth)
    (before : Lowered rank rounds name ⟨k, c⟩)
    (below : walked.entered.Each (Lowered rank (rounds + 1) name))
    (same : walked.skipped = c.skipped) :
    ((Guarantee.state Bool).throwing Error.Unresolved).Holds (Lowered rank (rounds + 1) name)
      (after dictionary maxDepth graph p ⟨k, walked⟩) := by
  have ownLower := ((Schema.everyMet_mk_iff k c).mp before.2).1
  rw [after]
  split
  · rename_i none
    have skipped := ((Children.each_iff_entered _ c).mp before.1.below).2
    refine Guarantee.pure _ ⟨.mk before.1.own ?_, (Schema.everyMet_mk_iff k walked).mpr ⟨?_, ?_⟩⟩
    · exact (Children.each_iff_entered _ walked).mpr ⟨below.imp fun _ => And.left, same ▸ skipped⟩
    · exact fun r shaped => absurd (shaped.symm.trans none) (Option.some_ne_none r)
    · exact below.imp fun _ => And.right
  · rename_i typeOf shaped
    refine Guarantee.bind _ (Guarantee.lift _ (expand_ends_of_rank ranked dictionary p _
      (low typeOf.name))) fun made expanded => ?_
    refine Guarantee.bind _ (p := fun _ => True) (fun _ => trivial) fun _ _ => ?_
    exact Guarantee.pure _ (lowered_of_expand ranked expanded (ownLower typeOf shaped))

end

theorem Lowered.below {rank : String → Nat} {rounds : Nat} {name : String} {k : Keywords}
    {c : Children Schema} (lowered : Lowered rank rounds name ⟨k, c⟩) :
    c.entered.Each (Lowered rank rounds name) := by
  have every := (Children.each_iff _ _).mp ((Children.each_iff_entered _ c).mp lowered.1.below).1
  have met := (Children.each_iff _ _).mp ((Schema.everyMet_mk_iff k c).mp lowered.2).2
  exact (Children.each_iff _ _).mpr fun child inside => ⟨every child inside, met child inside⟩

section
variable {rank : String → Nat} (dictionary : Dictionary) {maxDepth rounds : Nat}
  (low : ∀ name, rank name ≤ maxDepth)
include low

/-- A round lowers every definition, and only a missing definition ends it. -/
theorem lowered_round {d : Document} (lowered : ∀ e ∈ d.definitions, Lowered rank rounds e.1 e.2)
    (noted : Bool) :
    Ends Error.Unresolved (fun _ => ∀ e ∈ ((d.walkAfterM (after dictionary maxDepth)).run
        noted).1.1.definitions, Lowered rank (rounds + 1) e.1 e.2)
      ((d.walkAfterM (after dictionary maxDepth)).run noted).1.2 := by
  let visitor (graph : Definitions) : Visitor (ExceptT Error (StateM Bool)) :=
    .ofAfter (after dictionary maxDepth graph)
  have walked : (Guarantee.state Bool).Holds (fun out => Ends Error.Unresolved
        (fun _ => ∀ e ∈ out.1, Lowered rank (rounds + 1) e.1 e.2) out.2)
      (Definitions.walkFrom d.flavor 0 visitor [] d.definitions) := by
    refine Guarantee.walkFrom _ d.flavor 0 Error.Unresolved (fun finished rest =>
      (∀ e ∈ finished, Lowered rank (rounds + 1) e.1 e.2) ∧ ∀ e ∈ rest, Lowered rank rounds e.1 e.2)
      ?_ (fun _ held => held.1) (fun _ _ _ _ failed => failed) [] d.definitions ⟨nofun, lowered⟩
    intro finished name root rest ⟨done, later⟩
    obtain ⟨here, others⟩ := List.forall_mem_cons.mp later
    have ranked : ∀ e ∈ finished ++ (name, root) :: rest, e.2.Every (Below rank e.1) :=
      List.forall_mem_append.mpr ⟨fun e member => (done e member).1,
        List.forall_mem_cons.mpr ⟨here.1, fun e member => (others e member).1⟩⟩
    refine Guarantee.mono _ (Guarantee.walkAfter _ (fun _ _ lowered => lowered.below)
      (fun _ _ _ _ before below same => lowered_after ranked low before below same) _
      (Nat.le_refl _) here) fun changed deeper => ⟨?_, others⟩
    exact List.forall_mem_append.mpr ⟨done, List.forall_mem_singleton.mpr deeper⟩
  exact walked noted

omit low in
/-- Where all shapes are expanded, a round notes nothing. -/
theorem unnoted_round {d : Document}
    (expanded : ∀ e ∈ d.definitions, e.2.EveryMet (·.typeOf = none)) :
    ((d.walkAfterM (after dictionary maxDepth)).run false).2 = false := by
  let visitor (graph : Definitions) : Visitor (ExceptT Error (StateM Bool)) :=
    .ofAfter (after dictionary maxDepth graph)
  have walked : unnoted.Holds (fun _ => True)
      (Definitions.walkFrom d.flavor 0 visitor [] d.definitions) := by
    refine Guarantee.walkFrom _ d.flavor 0 (fun _ => True)
      (fun _ rest => ∀ e ∈ rest, e.2.EveryMet (·.typeOf = none)) ?_ (fun _ _ => trivial)
      (fun _ _ _ _ _ => trivial) [] d.definitions expanded
    intro finished name root rest each
    obtain ⟨here, others⟩ := List.forall_mem_cons.mp each
    refine Guarantee.mono _ (p := fun _ => True) (Guarantee.walkAfter _
      (fun k c every => ((Schema.everyMet_mk_iff k c).mp every).2)
      (fun p k c walked every _ _ => ?_) _ (Nat.le_refl _) here) fun _ _ => others
    have none : k.typeOf = none := ((Schema.everyMet_mk_iff k c).mp every).1
    rw [after, none]
    exact Guarantee.pure _ trivial
  exact walked.1

/-- The rounds that are allowed suffice when they and those that are done come to the allowed
depth. -/
theorem expandAll_ends_of_rank {allowed : Nat} (enough : maxDepth ≤ rounds + allowed) {d : Document}
    (lowered : ∀ e ∈ d.definitions, Lowered rank rounds e.1 e.2) :
    Ends Error.Unresolved (fun _ => True) (expandAll dictionary maxDepth allowed d).2 := by
  fun_induction expandAll dictionary maxDepth allowed d generalizing rounds with
  | case1 allowed d left noted e walked =>
    have round := lowered_round dictionary low lowered false
    rw [walked] at round
    exact round
  | case2 => trivial
  | case3 d left _ walked =>
    -- A shape that is left would have to rank below nothing.
    have expanded : ∀ e ∈ d.definitions, e.2.EveryMet (·.typeOf = none) := by
      intro e member node met
      refine Option.eq_none_iff_forall_ne_some.mpr fun r shaped => ?_
      have lower := (lowered e member).2 node met r shaped
      have most := low e.1
      omega
    have quiet : ((d.walkAfterM (after dictionary maxDepth)).run false).2 = false :=
      unnoted_round dictionary expanded
    rw [walked] at quiet
    cases quiet
  | case4 d left _ allowed walked ih =>
    have round := lowered_round dictionary low lowered false
    rw [walked] at round
    exact ih (by omega) round

end

/-- Where shapes form no circle and no path of them has more than `maxDepth` steps, expansion of a
closed document with plain references succeeds and leaves no shape of another definition at any
node that a walk meets. -/
theorem expands_within_depth (dictionary : Dictionary) (options : Options) (d : Document)
    (closed : d.Closed) (plain : d.Plain)
    (acyclic : ∀ name, ¬ Relation.TransGen (ShapedBy d.definitions) name name)
    (short : ∀ path : List String, path.IsChain (ShapedBy d.definitions) → path.Nodup →
      path.length ≤ options.maxDepth + 1) :
    (run dictionary options d).2 = .ok {} ∧
      ∀ e ∈ (run dictionary options d).1.definitions, e.2.EveryMet (·.typeOf = none) := by
  let rank := depthOf (ShapedBy d.definitions) options.maxDepth
  have falls {name other : String} (step : ShapedBy d.definitions name other) :
      rank other < rank name :=
    depthOf_lt_of_related (fun path chain => short path chain (nodup_of_acyclic acyclic chain)) step
  have lowered : ∀ e ∈ d.definitions, Lowered rank 0 e.1 e.2 := by
    intro e member
    have every : e.2.Every (Below rank e.1) := fun k inside =>
      ⟨fun r shaped => falls ⟨e.2, member, k, inside, r, shaped, rfl⟩, fun _ _ _ _ => trivial⟩
    exact ⟨every, fun node met => (every.everyMet node met).1⟩
  have ends := expandAll_ends_of_rank dictionary (depthOf_le options.maxDepth)
    (Nat.le_of_eq (Nat.zero_add _).symm) lowered
  have sound := (Document.sound_of_closed closed plain).graph
  have resolves := (expandAll_rewritten dictionary options.maxDepth options.maxDepth
    ((Definitions.sound_iff_grounded _ _).mp sound)).ended
  have succeeds : (run dictionary options d).2 = .ok {} := by
    rw [run]
    generalize expandAll dictionary options.maxDepth options.maxDepth d = out at ends resolves
    obtain ⟨left, result⟩ := out
    cases result with
    | error e =>
      obtain ⟨raw, location, rfl⟩ := ends
      exact absurd rfl (resolves raw location)
    | ok _ =>
      dsimp only
      split <;> rfl
  exact ⟨succeeds, expanded_run (Prod.ext rfl succeeds)⟩

/-- An `Order` lists items that have the shape of `Line`, in which a `Price` has its own. -/
def orders : Document where
  raw := [("definitions", .null)]
  flavor := .definitions
  hasSlot := true
  definitions :=
    let shaped (name : String) : Schema :=
      { keywords := { typeOf := some (.toDefinition name .definitions) } }
    [("Order", { children := { items := some (shaped "Line") } }),
      ("Line", { children := { properties := some [("price", shaped "Price")] } }),
      ("Price", { keywords := { type := some "number" } })]

/-- The place in the list of what shapes what. -/
def rankOfOrders (name : String) : Nat :=
  if name = "Order" then 2 else if name = "Line" then 1 else 0

theorem rankOfOrders_lt {name other : String} (step : ShapedBy orders.definitions name other) :
    rankOfOrders other < rankOfOrders name := by
  have each : ∀ e ∈ orders.definitions, ∀ k ∈ e.2.nodes, ∀ r ∈ k.typeOf,
      rankOfOrders r.name < rankOfOrders e.1 := by decide
  obtain ⟨s, member, k, inside, r, shaped, rfl⟩ := step
  exact each _ member k inside r shaped

theorem expands_within_depth_orders : orders.Closed ∧ orders.Plain ∧
    (∀ name, ¬ Relation.TransGen (ShapedBy orders.definitions) name name) ∧
    (∀ path : List String, path.IsChain (ShapedBy orders.definitions) → path.Nodup →
      path.length ≤ 2 + 1) ∧
    (run {} { maxDepth := 2 } orders).2 = .ok {} ∧
    ∀ e ∈ (run {} { maxDepth := 2 } orders).1.definitions, e.2.EveryMet (·.typeOf = none) := by
  have acyclic (name : String) : ¬ Relation.TransGen (ShapedBy orders.definitions) name name := by
    have falls {a b : String} (path : Relation.TransGen (ShapedBy orders.definitions) a b) :
        rankOfOrders b < rankOfOrders a := by
      induction path with
      | single step => exact rankOfOrders_lt step
      | tail _ step ih => exact Nat.lt_trans (rankOfOrders_lt step) ih
    exact fun circle => absurd (falls circle) (Nat.lt_irrefl _)
  have short (path : List String) (chain : path.IsChain (ShapedBy orders.definitions))
      (_ : path.Nodup) : path.length ≤ 2 + 1 := by
    have under (a : String) (rest : List String)
        (chain : (a :: rest).IsChain (ShapedBy orders.definitions)) :
        rest.length ≤ rankOfOrders a := by
      induction rest generalizing a with
      | nil => exact Nat.zero_le _
      | cons b rest ih =>
        obtain ⟨step, chain⟩ := List.isChain_cons_cons.mp chain
        exact Nat.lt_of_le_of_lt (ih b chain) (rankOfOrders_lt step)
    cases path with
    | nil => exact Nat.zero_le _
    | cons a rest =>
      have most : rankOfOrders a ≤ 2 := by
        rw [rankOfOrders]
        split <;> [skip; split] <;> omega
      exact Nat.succ_le_succ (Nat.le_trans (under a rest chain) most)
  exact ⟨rfl, by decide, acyclic, short,
    expands_within_depth {} { maxDepth := 2 } orders rfl (by decide) acyclic short⟩

end TypeExpansion
end SchemaGraph
