import Mathlib.Logic.Relation
import SchemaGraph.Proofs.OrderedWalks
import SchemaGraph.Proofs.SharedReach

/- Expansion and the order of the definitions. A walk sees the definitions before the one that it is
   at as it has left them, so the order matters where a definition looks up another one that is
   itself expanded. Where the order of such two is kept, every definition becomes the same in every
   round. -/
namespace SchemaGraph

namespace TypeExpansion

section
variable (dictionary : Dictionary) (maxDepth : Nat) (flavor : Flavor)

/-- What becomes of a definition in the graph, and whether anything in it is expanded. -/
def visit (graph : Definitions) (name : String) (root : Schema) : Except Error Schema × Bool :=
  (root.walk (.ofAfter (after dictionary maxDepth graph)) root.levels
    { flavor, definition := name }).run.run false

theorem steady : Steady (after dictionary maxDepth) false flavor or := by
  intro graph name root noted
  obtain ⟨result, more, _, ran, _⟩ :=
    alike_walk dictionary maxDepth graph root.levels { flavor, definition := name } root
  rw [visitRoot, ran, ran false, Bool.false_or]

theorem visit_of_expanded (graph : Definitions) (name : String) {root : Schema}
    (expanded : root.EveryMet (·.typeOf = none)) :
    visit dictionary maxDepth flavor graph name root = (.ok root, false) := by
  have idle (p : Position) (s : Schema) (none : s.keywords.typeOf = none) :
      after dictionary maxDepth graph p s = pure s := by rw [after, none]
  rw [visit, Schema.walk_eq_pure_self (·.typeOf = none) idle _ _ expanded]
  rfl

/-- One walk through the definitions after the finished ones. -/
abbrev walkRest (finished rest : Definitions) :
    StateM Bool (Definitions × Except Error Unit) :=
  Definitions.walkFrom flavor 0 (fun graph => .ofAfter (after dictionary maxDepth graph)) finished
    rest

/-- Every definition becomes what is said, with the earlier ones as they become and the later ones
as they are. -/
def Becomes (final : String → Schema) (noted : String → Bool) (finished rest : Definitions) :
    Prop :=
  ∀ earlier name root later, rest = earlier ++ (name, root) :: later →
    visit dictionary maxDepth flavor
      (finished ++ (finishedAs final earlier ++ (name, root) :: later)) name root =
        (.ok (final name), noted name)

variable {dictionary maxDepth flavor}

theorem foldl_or {α : Type} (noted : α → Bool) (l : List α) (before : Bool) :
    l.foldl (fun notes a => or notes (noted a)) before = (before || l.any noted) := by
  induction l generalizing before with
  | nil => exact (Bool.or_false before).symm
  | cons a rest ih => rw [List.foldl_cons, ih, List.any_cons, Bool.or_assoc]

theorem Becomes.run {final : String → Schema} {noted : String → Bool} {finished rest : Definitions}
    (becomes : Becomes dictionary maxDepth flavor final noted finished rest) (before : Bool) :
    (walkRest dictionary maxDepth flavor finished rest).run before =
      ((finished ++ finishedAs final rest, .ok ()), before || rest.any fun e => noted e.1) := by
  rw [← foldl_or]
  exact AllBecome.run becomes (steady dictionary maxDepth flavor) before

theorem becomes_of_run {finished rest left : Definitions} (distinct : rest.Distinct)
    {before after : Bool} (ran : (walkRest dictionary maxDepth flavor finished rest).run before =
      ((left, .ok ()), after)) :
    ∃ final noted, Becomes dictionary maxDepth flavor final noted finished rest :=
  (steady dictionary maxDepth flavor).allBecome_of_run distinct ran

end

/-- The same definitions in another order. Where one looks up the other and both are expanded, they
keep their places relative to each other. -/
structure Reordered (unions : Bool) (within : String → String → Prop) (expands : String → Prop)
    (one other : Definitions) : Prop where
  distinct : one.Distinct
  perm : List.Perm other one
  reach : ∀ e ∈ one, e.2.Every (LooksWithin unions (within e.1))
  settled : ∀ e ∈ one, ¬ expands e.1 → e.2.EveryMet (·.typeOf = none)
  kept : ∀ name target, within name target → expands name → expands target →
    (one.Precedes target name ↔ other.Precedes target name)

section
variable {dictionary : Dictionary} {maxDepth : Nat} {flavor : Flavor}
  {within : String → String → Prop} (trans : ∀ a b c, within a b → within b c → within a c)
  {expands : String → Prop} {one other : Definitions} {final : String → Schema}
  {noted : String → Bool}

/-- A definition without a shape to expand stays as it is. -/
theorem Becomes.final_of_expanded (becomes : Becomes dictionary maxDepth flavor final noted [] one)
    {name : String} {root : Schema} (listed : (name, root) ∈ one)
    (expanded : root.EveryMet (·.typeOf = none)) : final name = root := by
  obtain ⟨earlier, later, split⟩ := List.append_of_mem listed
  have visited := becomes earlier name root later split
  rw [visit_of_expanded _ _ _ _ _ expanded] at visited
  exact (Except.ok.inj (Prod.mk.inj visited).1).symm

include trans

theorem Agree.visit_eq {name : String} (agree : Agree dictionary.unions within name one other)
    {root : Schema} (every : root.Every (LooksWithin dictionary.unions (within name))) :
    visit dictionary maxDepth flavor one name root =
      visit dictionary maxDepth flavor other name root := by
  obtain ⟨result, more, _, here, there⟩ :=
    agree.walk maxDepth trans root.levels { flavor, definition := name } every
  rw [visit, visit, here, there]

/-- What the definitions become looks up nothing that was out of reach. -/
theorem reach_walkRest (maxDepth : Nat) (flavor : Flavor)
    (reach : ∀ e ∈ one, e.2.Every (LooksWithin dictionary.unions (within e.1))) :
    (Guarantee.state Bool).Holds
      (fun out => ∀ e ∈ out.1, e.2.Every (LooksWithin dictionary.unions (within e.1)))
      (walkRest dictionary maxDepth flavor [] one) := by
  refine Guarantee.walkFrom _ flavor 0 (fun _ => True) (fun finished rest => ∀ e ∈ finished ++ rest,
    e.2.Every (LooksWithin dictionary.unions (within e.1))) ?_ (fun finished held => ?_)
    (fun _ _ _ held _ => held) [] one reach
  · intro finished name root rest held
    have agree : Agree dictionary.unions within name (finished ++ (name, root) :: rest)
        (finished ++ (name, root) :: rest) :=
      ⟨fun _ _ => rfl, fun _ _ _ found => held _ (Table.mem_of_get? found)⟩
    obtain ⟨done, others⟩ := List.forall_mem_append.mp held
    obtain ⟨own, others⟩ := List.forall_mem_cons.mp others
    refine Guarantee.mono _ (holds_of_noting (agree.walk maxDepth trans root.levels
      { flavor, definition := name } own)) fun changed every => ?_
    refine List.forall_mem_append.mpr ⟨List.forall_mem_append.mpr ⟨done, ?_⟩, others⟩
    exact List.forall_mem_singleton.mpr every
  · exact fun e listed => held e (List.mem_append_left _ listed)

omit trans in
/-- A name that is not expanded means the same at every moment. -/
theorem Reordered.get?_of_settled
    (reordered : Reordered dictionary.unions within expands one other)
    (becomes : Becomes dictionary maxDepth flavor final noted [] one)
    {order earlier later : Definitions} (perm : order.Perm one) (split : order = earlier ++ later)
    {target : String} (still : ¬ expands target) :
    Table.get? (finishedAs final earlier ++ later) target = one.get? target := by
  rw [get?_finishedAs_append split, Table.get?_of_perm perm reordered.distinct]
  split
  · rename_i member
    obtain ⟨root, inside⟩ := (Table.mem_keys_iff earlier target).mp member
    have listed : (target, root) ∈ one := perm.mem_iff.mp (split ▸ List.mem_append_left _ inside)
    rw [becomes.final_of_expanded listed (reordered.settled _ listed still),
      Table.get?_of_mem reordered.distinct listed]
  · rfl

/-- In the other order every definition becomes the same. -/
theorem Reordered.becomes (reordered : Reordered dictionary.unions within expands one other)
    (reached : ∀ e ∈ one, (final e.1).Every (LooksWithin dictionary.unions (within e.1)))
    (becomes : Becomes dictionary maxDepth flavor final noted [] one) :
    Becomes dictionary maxDepth flavor final noted [] other := by
  refine AllBecome.of_perm becomes reordered.perm
    fun name root before next earlier rest splitOne splitOther => ?_
  have listed : (name, root) ∈ one := splitOne ▸ List.mem_append_right _ List.mem_cons_self
  by_cases expanding : expands name
  · have agree : Agree dictionary.unions within name
        (finishedAs final before ++ (name, root) :: next)
        (finishedAs final earlier ++ (name, root) :: rest) := by
      refine ⟨fun target inside => ?_, fun target s _ found => ?_⟩
      · -- A target that is expanded itself is seen as it becomes exactly when it comes first, and
        -- that is kept; any other one is seen the same at every moment.
        by_cases still : expands target
        · have first := Definitions.precedes_iff splitOne reordered.distinct target
          have second := Definitions.precedes_iff splitOther
            ((reordered.perm.map Prod.fst).nodup_iff.mpr reordered.distinct) target
          have kept := reordered.kept name target inside expanding still
          have done := (first.symm.trans kept).trans second
          rw [get?_finishedAs_append splitOne, get?_finishedAs_append splitOther,
            Table.get?_of_perm reordered.perm reordered.distinct, if_congr done rfl rfl]
        · rw [reordered.get?_of_settled becomes (.refl one) splitOne still,
            reordered.get?_of_settled becomes reordered.perm splitOther still]
      · rw [get?_finishedAs_append splitOne] at found
        split at found
        · rename_i member
          obtain ⟨its, inside⟩ := (Table.mem_keys_iff before target).mp member
          cases found
          exact reached (target, its) (splitOne ▸ List.mem_append_left _ inside)
        · exact reordered.reach _ (Table.mem_of_get? found)
    exact (agree.visit_eq trans (reordered.reach _ listed)).symm
  · have expanded := reordered.settled _ listed expanding
    exact (visit_of_expanded _ _ _ _ _ expanded).trans (visit_of_expanded _ _ _ _ _ expanded).symm

end

theorem Reordered.symm {unions : Bool} {within : String → String → Prop} {expands : String → Prop}
    {one other : Definitions} (reordered : Reordered unions within expands one other) :
    Reordered unions within expands other one where
  distinct := (reordered.perm.map Prod.fst).nodup_iff.mpr reordered.distinct
  perm := reordered.perm.symm
  reach e listed := reordered.reach e (reordered.perm.mem_iff.mp listed)
  settled e listed := reordered.settled e (reordered.perm.mem_iff.mp listed)
  kept name target inside here there := (reordered.kept name target inside here there).symm

section
variable {dictionary : Dictionary} {maxDepth : Nat} {within : String → String → Prop}
  (trans : ∀ a b c, within a b → within b c → within a c) {expands : String → Prop}
include trans

/-- A round that goes through does so in the other order, and leaves the same in that order. -/
theorem Reordered.round {d left : Document} {order : Definitions} {noted : Bool}
    (reordered : Reordered dictionary.unions within expands d.definitions order)
    (ran : (d.walkAfterM (after dictionary maxDepth)).run false = ((left, .ok ()), noted)) :
    ∃ last, (({ d with definitions := order } : Document).walkAfterM
        (after dictionary maxDepth)).run false = (({ left with definitions := last }, .ok ()), noted) ∧
      Reordered dictionary.unions within expands left.definitions last := by
  have unfolded (definitions : Definitions) :
      (({ d with definitions } : Document).walkAfterM (after dictionary maxDepth)).run false =
        (({ d with definitions :=
              ((walkRest dictionary maxDepth d.flavor [] definitions).run false).1.1 },
          ((walkRest dictionary maxDepth d.flavor [] definitions).run false).1.2),
          ((walkRest dictionary maxDepth d.flavor [] definitions).run false).2) := rfl
  have ran := (unfolded d.definitions).symm.trans ran
  have reached :=
    reach_walkRest trans maxDepth d.flavor reordered.reach false
  generalize walked : (walkRest dictionary maxDepth d.flavor [] d.definitions).run false = out
    at ran reached
  obtain ⟨⟨definitions, result⟩, more⟩ := out
  cases ran
  obtain ⟨final, expanded, becomes⟩ := becomes_of_run reordered.distinct walked
  obtain ⟨⟨rfl, _⟩, rfl⟩ := Prod.mk.inj (walked.symm.trans (becomes.run false))
  have later : ∀ e ∈ d.definitions,
      (final e.1).Every (LooksWithin dictionary.unions (within e.1)) :=
    List.forall_mem_map.mp reached
  have again := (reordered.becomes trans later becomes).run false
  refine ⟨finishedAs final order, ?_, ?_⟩
  · rw [unfolded order, again, reordered.perm.any_eq]
    rfl
  · refine ⟨?_, reordered.perm.map _, reached, ?_, ?_⟩
    · change (finishedAs final d.definitions).keys.Nodup
      rw [keys_finishedAs]
      exact reordered.distinct
    · refine List.forall_mem_map.mpr fun e listed still => ?_
      have expanded := reordered.settled e listed still
      rw [becomes.final_of_expanded listed expanded]
      exact expanded
    · intro name target inside here there
      change Definitions.Precedes (finishedAs final d.definitions) target name ↔ _
      rw [precedes_finishedAs, precedes_finishedAs]
      exact reordered.kept name target inside here there

theorem Reordered.expandAll_eq {rounds : Nat} {d left : Document} {order : Definitions}
    (reordered : Reordered dictionary.unions within expands d.definitions order)
    (ran : expandAll dictionary maxDepth rounds d = (left, .ok ())) :
    ∃ last, expandAll dictionary maxDepth rounds { d with definitions := order } =
        ({ left with definitions := last }, .ok ()) ∧
      Reordered dictionary.unions within expands left.definitions last := by
  fun_induction expandAll dictionary maxDepth rounds d generalizing order with
  | case1 => cases ran
  | case2 rounds d next _ walked =>
    cases ran
    obtain ⟨last, again, further⟩ := reordered.round trans walked
    exact ⟨last, by rw [expandAll, again], further⟩
  | case3 => cases ran
  | case4 d next _ rounds walked ih =>
    obtain ⟨between, again, further⟩ := reordered.round trans walked
    obtain ⟨last, ended, same⟩ := ih further ran
    exact ⟨last, by rw [expandAll, again]; exact ended, same⟩

end

/-- What the pass leaves of the definitions once all shapes are expanded. -/
def unmarked (dictionary : Dictionary) (definitions : Definitions) : Definitions :=
  if dictionary.unions then definitions.mapValues fun s => { s with keywords.polymorphic := none }
  else definitions

theorem run_of_expandAll {dictionary : Dictionary} {options : Options} {d left : Document}
    (ran : expandAll dictionary options.maxDepth options.maxDepth d = (left, .ok ())) :
    run dictionary options d =
      ({ left with definitions := unmarked dictionary left.definitions }, .ok {}) := by
  rw [run, ran, unmarked]
  dsimp only
  split <;> rfl

theorem run_of_expandAll_error {dictionary : Dictionary} {options : Options} {d left : Document}
    {e : Error}
    (ran : expandAll dictionary options.maxDepth options.maxDepth d = (left, .error e)) :
    (run dictionary options d).2 = .error e := by
  rw [run, ran]

theorem Reordered.run_eq {dictionary : Dictionary} {options : Options} {d left : Document}
    {order : Definitions} {within : String → String → Prop} {expands : String → Prop}
    (trans : ∀ a b c, within a b → within b c → within a c)
    (reordered : Reordered dictionary.unions within expands d.definitions order)
    (ran : expandAll dictionary options.maxDepth options.maxDepth d = (left, .ok ())) :
    (run dictionary options d).2 = .ok {} ∧
      (run dictionary options { d with definitions := order }).2 = .ok {} ∧
      ∀ name, (run dictionary options d).1.definitions.get? name =
        (run dictionary options { d with definitions := order }).1.definitions.get? name := by
  obtain ⟨last, again, further⟩ := reordered.expandAll_eq trans ran
  rw [run_of_expandAll ran, run_of_expandAll again]
  refine ⟨rfl, rfl, fun name => ?_⟩
  have same := Table.get?_of_perm further.perm further.distinct name
  dsimp only [unmarked]
  split
  · rw [Table.get?_mapValues, Table.get?_mapValues, same]
  · exact same.symm

/-- A definition looks up another one: a node in it has its shape or, where unions are written out,
lists it as an extension. -/
def LooksUp (unions : Bool) (definitions : Definitions) (name other : String) : Prop :=
  ∃ s, (name, s) ∈ definitions ∧ ∃ k ∈ s.nodes, (∃ r, k.typeOf = some r ∧ r.name = other) ∨
    unions = true ∧ ∃ l, k.descendants = some l ∧ ∃ r ∈ l, r.name = other

/-- There is a shape to expand at a node that a walk meets. -/
def Expands (definitions : Definitions) (name : String) : Prop :=
  ∃ s, (name, s) ∈ definitions ∧ ¬ s.EveryMet (·.typeOf = none)

/-- Expansion of the definitions in another order fails as well or makes the same of every name,
when two that are expanded keep their places relative to each other where one looks up the other, by
itself or through others. -/
theorem expansion_of_reordered (dictionary : Dictionary) (options : Options) (d : Document)
    (order : Definitions) (distinct : d.definitions.Distinct) (perm : order.Perm d.definitions)
    (kept : ∀ name other,
      Relation.TransGen (LooksUp dictionary.unions d.definitions) name other →
      Expands d.definitions name → Expands d.definitions other →
      (d.definitions.Precedes other name ↔ order.Precedes other name)) :
    ((∃ e, (run dictionary options d).2 = .error e) ∧
        ∃ e, (run dictionary options { d with definitions := order }).2 = .error e) ∨
      ((run dictionary options d).2 = .ok {} ∧
        (run dictionary options { d with definitions := order }).2 = .ok {} ∧
        ∀ name, (run dictionary options d).1.definitions.get? name =
          (run dictionary options { d with definitions := order }).1.definitions.get? name) := by
  have reordered : Reordered dictionary.unions
      (Relation.TransGen (LooksUp dictionary.unions d.definitions)) (Expands d.definitions)
      d.definitions order := by
    refine ⟨distinct, perm, fun e listed k inside => ⟨fun r shaped => ?_, ?_⟩,
      fun e listed still => ?_, kept⟩
    · exact .single ⟨e.2, listed, k, inside, Or.inl ⟨r, shaped, rfl⟩⟩
    · intro l listing r member unions
      exact .single ⟨e.2, listed, k, inside, Or.inr ⟨unions, l, listing, r, member, rfl⟩⟩
    · by_contra shaped
      exact still ⟨e.2, listed, shaped⟩
  have trans (a b c : String) := Relation.TransGen.trans
    (r := LooksUp dictionary.unions d.definitions) (a := a) (b := b) (c := c)
  cases ran : expandAll dictionary options.maxDepth options.maxDepth d with
  | mk left result =>
    cases result with
    | ok _ => exact Or.inr (reordered.run_eq trans ran)
    | error e =>
      refine Or.inl ⟨⟨e, run_of_expandAll_error ran⟩, ?_⟩
      cases again : expandAll dictionary options.maxDepth options.maxDepth
          { d with definitions := order } with
      | mk last result =>
        cases result with
        | error e => exact ⟨e, run_of_expandAll_error again⟩
        | ok _ =>
          obtain ⟨_, there, _⟩ := Reordered.expandAll_eq trans
            (d := { d with definitions := order }) reordered.symm again
          cases ran.symm.trans there

/-- Two definitions that have shapes of others: an `Order` that of a `Line`, which has that of a
`Price`, and a `Receipt` that of a `Price` too. -/
def receipts : Document where
  raw := [("definitions", .null)]
  flavor := .definitions
  hasSlot := true
  definitions :=
    let shaped (name : String) : Schema :=
      { keywords := { typeOf := some (.toDefinition name .definitions) } }
    [("Order", { children := { items := some (shaped "Line") } }), ("Line", shaped "Price"),
      ("Receipt", shaped "Price"), ("Price", { keywords := { type := some "number" } })]

/-- The prices and the receipts first. -/
def receiptsFirst : Definitions :=
  (receipts.definitions.drop 2).reverse ++ receipts.definitions.take 2

theorem lookups_receipts {name other : String}
    (path : Relation.TransGen (LooksUp false receipts.definitions) name other) :
    other = "Price" ∨ name = "Order" ∧ other = "Line" := by
  have lookup {name other : String} (step : LooksUp false receipts.definitions name other) :
      other = "Price" ∨ name = "Order" ∧ other = "Line" := by
    have each : ∀ e ∈ receipts.definitions, ∀ k ∈ e.2.nodes, ∀ r ∈ k.typeOf,
        r.name = "Price" ∨ e.1 = "Order" ∧ r.name = "Line" := by decide
    obtain ⟨s, member, k, inside, ⟨r, shaped, rfl⟩ | ⟨unions, _⟩⟩ := step
    · exact each _ member k inside r shaped
    · cases unions
  induction path with
  | single step => exact lookup step
  | tail _ step ih =>
    rcases lookup step with price | ⟨rfl, rfl⟩
    · exact Or.inl price
    · rcases ih with same | ⟨_, same⟩
      · exact absurd same (by decide)
      · exact absurd same (by decide)

theorem not_expands_price : ¬ Expands receipts.definitions "Price" := by
  rintro ⟨s, member, shaped⟩
  have price := Table.get?_of_mem (show receipts.definitions.Distinct by decide) member
  cases price
  exact shaped ((Schema.everyMet_mk_iff _ _).mpr ⟨rfl, Children.each_empty _⟩)

theorem expansion_of_reordered_receipts :
    receipts.definitions.Distinct ∧ receiptsFirst.Perm receipts.definitions ∧
    (∀ name other, Relation.TransGen (LooksUp false receipts.definitions) name other →
      Expands receipts.definitions name → Expands receipts.definitions other →
      (receipts.definitions.Precedes other name ↔ receiptsFirst.Precedes other name)) ∧
    (((∃ e, (run {} {} receipts).2 = .error e) ∧
        ∃ e, (run {} {} { receipts with definitions := receiptsFirst }).2 = .error e) ∨
      ((run {} {} receipts).2 = .ok {} ∧
        (run {} {} { receipts with definitions := receiptsFirst }).2 = .ok {} ∧
        ∀ name, (run {} {} receipts).1.definitions.get? name =
          (run {} {} { receipts with definitions := receiptsFirst }).1.definitions.get? name)) := by
  have perm : receiptsFirst.Perm receipts.definitions :=
    ((List.reverse_perm _).append_right _).trans
      (List.perm_append_comm.trans (.of_eq (List.take_append_drop 2 _)))
  have kept : ∀ name other, Relation.TransGen (LooksUp false receipts.definitions) name other →
      Expands receipts.definitions name → Expands receipts.definitions other →
      (receipts.definitions.Precedes other name ↔ receiptsFirst.Precedes other name) := by
    intro name other path _ expands
    rcases lookups_receipts path with rfl | ⟨rfl, rfl⟩
    · exact absurd expands not_expands_price
    · decide
  exact ⟨by decide, perm, kept,
    expansion_of_reordered {} {} receipts receiptsFirst (by decide) perm kept⟩

/-- A definition with its own XML name that has the shape of another one, which a third definition
has the shape of. -/
def named : Definitions :=
  let shaped (name : String) : Keywords := { typeOf := some (.toDefinition name .definitions) }
  [("Named", { keywords := { shaped "Text" with xml := some { name := some "named" } } }),
    ("Text", { keywords := { type := some "string" } }),
    ("Heading", { keywords := shaped "Named" })]

theorem order_matters : ¬ ∀ (dictionary : Dictionary) (options : Options) (d : Document)
    (order : Definitions), d.definitions.Distinct → order.Perm d.definitions →
    ((∃ e, (run dictionary options d).2 = .error e) ∧
        ∃ e, (run dictionary options { d with definitions := order }).2 = .error e) ∨
      ((run dictionary options d).2 = .ok {} ∧
        (run dictionary options { d with definitions := order }).2 = .ok {} ∧
        ∀ name, (run dictionary options d).1.definitions.get? name =
          (run dictionary options { d with definitions := order }).1.definitions.get? name) := by
  intro same
  have both := same {} {} ⟨[("definitions", .null)], .definitions, true, named⟩ named.reverse
    (by decide) named.reverse_perm
  rcases both with ⟨⟨e, failed⟩, _⟩ | ⟨_, _, found⟩
  · cases failed
  · have xml := congrArg (Option.map fun s => s.keywords.xml.isSome) (found "Heading")
    cases xml

end TypeExpansion
end SchemaGraph
