import SchemaGraph.Proofs.Keyed
import SchemaGraph.Proofs.OrderedValues
import SchemaGraph.Proofs.OrderedWalks
import SchemaGraph.Proofs.Visits

/- When all values are in their types. A pass types the values of every node that it comes to, and those
   that it moves; what it inlines at a site stays as it stands in the definitions, with values that
   nobody has typed when the walk has not come there yet. Nothing is left to do for a second pass
   exactly when no value and no site is left. -/
namespace SchemaGraph

namespace Defaults

/-- In the place of every site with no site above it there is what it becomes when it has been inlined,
and what it has drawn in is good apart from the values that it gives away. -/
def SitesInline (graph : Definitions) (maxDepth : Nat) (good : Keywords → Prop) (s left : Schema) :
    Prop :=
  ∀ (place : Place) (site : Schema), place.isEntered = true → s.node? place = some site →
    isSite site.keywords = true → place.passes isSite s = false →
    ∃ inlined, Inlined graph maxDepth site inlined ∧
      left.node? place = some (settle site.keywords inlined) ∧
      (remainder site.keywords inlined).EveryMet good

section
variable {good : Keywords → Prop} {graph : Definitions} {maxDepth : Nat}

theorem child?_entered {α : Type} (c : Children α) {step : Step} (entered : step.isEntered = true) :
    c.entered.child? step = c.child? step := by
  cases step with
  | not | additional => cases entered
  | property | items | allOf | oneOf | anyOf => rfl

theorem keys_of_related {rel : Schema → Schema → Prop} {c below : Children Schema}
    (related : c.Related rel below) :
    Table.keys (below.properties.getD []) = Table.keys (c.properties.getD []) := by
  have pairs := forall₂_getD_of_optionRel related.properties .nil
  generalize c.properties.getD [] = t at pairs
  generalize below.properties.getD [] = t' at pairs
  induction pairs with
  | nil => rfl
  | cons first _ ih => exact congrArg₂ List.cons first.1 ih

/-- What comes of the children of a node with distinct properties, step by step. -/
theorem each_of_related {rel : Schema → Schema → Prop} {holds : Schema → Prop} {k : Keywords}
    {c below : Children Schema} (keyed : Schema.keyed ⟨k, c⟩) (related : c.Related rel below)
    (each : ∀ (step : Step) child child', step.isEntered = true → c.child? step = some child →
      below.child? step = some child' → rel child child' → holds child') :
    below.entered.Each holds := by
  have distinct : Table.Distinct (below.properties.getD []) := by
    rw [Table.Distinct, keys_of_related related]
    exact ((Schema.keyed_mk_iff k c).mp keyed).1
  refine Schema.forall_placed_iff.mp fun placed listed => ?_
  obtain ⟨step, entered, found, _⟩ := (Children.mem_enteredPlaces_iff distinct _ _).mp listed
  obtain ⟨child, stood, came⟩ := exists_of_optionRel_some (related.child? entered) found
  exact each step child placed.2 entered stood found came

theorem everyMet_of_node? {s t : Schema} {place : Place} (every : s.EveryMet good)
    (entered : place.isEntered = true) (stands : s.node? place = some t) : t.EveryMet good := by
  induction place generalizing s with
  | nil =>
    cases stands
    exact every
  | cons step rest ih =>
    obtain ⟨k, c⟩ := s
    obtain ⟨enters, entered⟩ := Place.isEntered_cons.mp entered
    obtain ⟨child, held, stands⟩ := Option.bind_eq_some_iff.mp stands
    have each := (Children.each_iff _ _).mp ((Schema.everyMet_mk_iff k c).mp every).2
    have listed : child ∈ c.entered.toList :=
      Children.mem_toList_of_child? ((child?_entered c enters).trans held)
    exact ih (each child listed) entered stands

theorem SitesInline.child {k own : Keywords} {c below : Children Schema} {step : Step}
    {child child' : Schema} (sites : SitesInline graph maxDepth good ⟨k, c⟩ ⟨own, below⟩)
    (noSite : isSite k = false) (entered : step.isEntered = true)
    (held : c.child? step = some child) (left : below.child? step = some child') :
    SitesInline graph maxDepth good child child' := by
  intro place site enteredBelow stands carries free
  have stood : Schema.node? (step :: place) ⟨k, c⟩ = some site := by
    change (c.child? step).bind _ = _
    rw [held]
    exact stands
  have passed : Place.passes isSite (step :: place) ⟨k, c⟩ = false := by
    change (isSite k || (c.child? step).any _) = false
    rw [noSite, held]
    exact free
  obtain ⟨inlined, inlines, found, every⟩ :=
    sites (step :: place) site (Place.isEntered_cons.mpr ⟨entered, enteredBelow⟩) stood carries passed
  refine ⟨inlined, inlines, ?_, every⟩
  change (below.child? step).bind _ = _ at found
  rw [left] at found
  exact found

/-- All that is left of a definition is good exactly when what its sites have drawn in is. -/
theorem everyMet_iff_sitesInline (asks : Asks good) {s left : Schema} (keyed : s.keyed)
    (walked : Walked (after maxDepth graph) s left) :
    left.EveryMet good ↔ SitesInline graph maxDepth good s left := by
  constructor
  · intro every place site entered stands carries free
    obtain ⟨final, found, itsWalk⟩ := walked.exists_node (fun _ _ _ => children_of_no_site)
      entered free stands
    obtain ⟨inlined, inlines, rfl⟩ := exists_inlined itsWalk carries
    exact ⟨inlined, inlines, found,
      (everyMet_settle_iff asks _ _).mp (everyMet_of_node? every entered found)⟩
  · intro sites
    induction s using Schema.children_induction generalizing left with
    | step k c ih =>
      cases carries : isSite k with
      | true =>
        obtain ⟨inlined, _, found, every⟩ := sites [] ⟨k, c⟩ rfl rfl carries rfl
        cases found
        exact (everyMet_settle_iff asks _ _).mpr every
      | false =>
        obtain ⟨p, below, related, ended⟩ := walked.exists_hook
        have kept : left.children = below := children_of_no_site carries ended
        have settled := settled_of_after (s := ⟨k, below⟩) carries ended
        obtain ⟨own, c'⟩ := left
        cases kept
        refine (Schema.everyMet_mk_iff _ _).mpr ⟨asks.settled own settled, ?_⟩
        refine each_of_related keyed related fun step child child' enters held there came => ?_
        have member := Children.mem_toList_of_child? held
        have keyedChild :=
          (Children.each_iff _ c).mp ((Schema.keyed_mk_iff k c).mp keyed).2 child member
        exact ih child member keyedChild came (sites.child carries enters held there)

end

section
variable {maxDepth : Nat} {graph : Definitions}

/-- The hook leaves a settled node alone. -/
theorem after_of_settled {p : Position} {s : Schema} (settled : IsSettled s.keywords) :
    after maxDepth graph p s = .ok s := by
  rw [after_of_no_site settled.noSite]
  cases type : s.keywords.type with
  | none => rfl
  | some t =>
    have default : ((if s.keywords.default.any Json.isTruthy then s.keywords.default else none).map
        (Lexical.convert t)).or s.keywords.default = s.keywords.default := by
      cases held : s.keywords.default with
      | none => rfl
      | some v =>
        cases truthy : v.isTruthy with
        | true => simp [truthy, settled.typed.default t v type held truthy]
        | false => simp [truthy]
    have enum : (s.keywords.enum.map (List.map (Lexical.convert t))).or s.keywords.enum =
        s.keywords.enum := by
      cases held : s.keywords.enum with
      | none => rfl
      | some l =>
        rw [Option.map_some, List.map_congr_left (settled.typed.enum t l type held), List.map_id']
        rfl
    rw [if_pos (show (some t).isSome = true from rfl), place]
    obtain ⟨k, c⟩ := s
    have itsType : k.type.getD "" = t := by
      rw [show k.type = some t from type]
      rfl
    dsimp only at default enum ⊢
    rw [itsType, default, enum]

theorem walkedRoot_of_settled {flavor : Flavor} {name : String} {root : Schema}
    (every : root.EveryMet IsSettled) :
    walkedRoot (after maxDepth) flavor graph name root = .ok root := by
  let visit (p : Position) (s : Schema) : ExceptT Error Id Schema :=
    ExceptT.mk (pure (after maxDepth graph p s))
  have same : root.walk (.ofAfter visit) root.levels { flavor, definition := name } = pure root :=
    Schema.walk_eq_pure_self IsSettled
      (fun _ _ settled => congrArg (fun x => ExceptT.mk (pure x)) (after_of_settled settled))
      root.levels _ every
  exact congrArg (fun x : ExceptT Error Id Schema => x.run.run) same

/-- A walk that changes nothing has nothing to do. -/
theorem everyMet_of_walked_self {s : Schema} (walked : Walked (after maxDepth graph) s s) :
    s.EveryMet IsSettled := by
  induction s using Schema.children_induction with
  | step k c ih =>
    obtain ⟨p, below, related, ended⟩ := walked.exists_hook
    have other : isSite k = false := by
      cases carries : isSite k with
      | false => rfl
      | true =>
        obtain ⟨inlined, _, same⟩ := exists_inlined walked carries
        have gone := isSite_settle k inlined
        rw [← show ⟨k, c⟩ = settle k inlined from same] at gone
        exact carries.symm.trans gone
    have kept : c = below := children_of_no_site (s := ⟨k, below⟩) other ended
    refine (Schema.everyMet_mk_iff _ _).mpr ⟨settled_of_after (s := ⟨k, below⟩) other ended, ?_⟩
    rw [← kept] at related
    refine (Children.each_iff _ _).mpr fun child member => ?_
    have itself := List.forall₂_same.mp related.toList_entered child member
    exact ih child ((c.mem_toList_iff child).mpr (Or.inl member)) itself

end

/-- In every definition what the sites have drawn in is good. -/
def AllInline (options : Options) (d left : Document) (good : Keywords → Prop) : Prop :=
  ∀ (n : Nat) (name : String) (root root' : Schema), d.definitions[n]? = some (name, root) →
    left.definitions[n]? = some (name, root') →
    SitesInline (moment d left n) options.maxDepth good root root'

section
variable {options : Options} {d left : Document}

theorem forall_everyMet_iff {good : Keywords → Prop} (asks : Asks good)
    (keyed : ∀ e ∈ d.definitions, e.2.keyed) (ran : run options d = (left, .ok {})) :
    (∀ e ∈ left.definitions, e.2.EveryMet good) ↔ AllInline options d left good := by
  constructor
  · intro every n name root root' listed there
    obtain ⟨found, inside, walked⟩ := exists_walked_root ran listed
    cases inside.symm.trans there
    exact (everyMet_iff_sitesInline asks (keyed _ (List.mem_of_getElem? listed)) walked).mp
      (every _ (List.mem_of_getElem? there))
  · intro sites e member
    obtain ⟨n, bound, rfl⟩ := List.getElem_of_mem member
    have inside : n < d.definitions.length := by
      rw [← (walkPass_eq_ok_iff.mp ran).1.length_eq]
      exact bound
    have listed : d.definitions[n]? = some (d.definitions[n].1, d.definitions[n].2) :=
      List.getElem?_eq_getElem inside
    obtain ⟨root', there, walked⟩ := exists_walked_root ran listed
    have last : left.definitions[n].2 = root' :=
      congrArg Prod.snd (Option.some.inj ((List.getElem?_eq_getElem bound).symm.trans there))
    rw [last]
    have drawn := sites n _ _ root' listed there
    exact (everyMet_iff_sitesInline asks (keyed _ (List.mem_of_getElem? listed)) walked).mpr drawn

/-- A second run has nothing to do exactly when everything is settled. -/
theorem run_eq_self_iff : run options left = (left, .ok {}) ↔
    ∀ e ∈ left.definitions, e.2.EveryMet IsSettled := by
  constructor
  · intro ran e member
    obtain ⟨n, bound, rfl⟩ := List.getElem_of_mem member
    have listed : left.definitions[n]? = some (left.definitions[n].1, left.definitions[n].2) :=
      List.getElem?_eq_getElem bound
    obtain ⟨root', there, walked⟩ := exists_walked_root ran listed
    cases listed.symm.trans there
    exact everyMet_of_walked_self walked
  · intro every
    exact walkPass_of_idle fun graph e member => walkedRoot_of_settled (every e member)

end

/-- After a run every value at a node with a type is in that type exactly when what the sites have drawn
in from the definitions was, apart from the values that they give away; in the same way nothing is
left to do. A second run changes nothing exactly when nothing is left to do, and nothing is left where
the definitions refer to earlier ones only. -/
theorem typed_iff_inlined_typed (options : Options) {d left : Document}
    (keyed : ∀ e ∈ d.definitions, e.2.keyed) (ran : run options d = (left, .ok {})) :
    ((∀ e ∈ left.definitions, e.2.EveryMet IsTyped) ↔ AllInline options d left IsTyped) ∧
    ((∀ e ∈ left.definitions, e.2.EveryMet IsSettled) ↔ AllInline options d left IsSettled) ∧
    (run options left = (left, .ok {}) ↔ ∀ e ∈ left.definitions, e.2.EveryMet IsSettled) ∧
    (InOrder [] d.definitions → ∀ e ∈ left.definitions, e.2.EveryMet IsSettled) :=
  ⟨forall_everyMet_iff ⟨fun _ typed => typed, fun _ settled => settled.typed⟩ keyed ran,
    forall_everyMet_iff ⟨fun _ settled => settled.typed, fun _ settled => settled⟩ keyed ran,
    run_eq_self_iff, settled_of_inOrder ran⟩

/-- A list of codes, which are numbers. -/
def codeList : String × Schema :=
  ("Codes", {
    keywords := { type := some "array" }
    children := { items := some { keywords :=
      { type := some "integer", enum := some [.str "1", .str "2"] } } } })

/-- Some of the codes, the first one if nothing is said. -/
def choice : String × Schema :=
  ("Choice", { keywords :=
    { reference := some (.toDefinition "Codes" .definitions), default := some (.str "1") } })

def choices (definitions : Definitions) : Document where
  raw := [("definitions", .null)]
  flavor := .definitions
  hasSlot := true
  definitions := definitions

theorem typed_iff_inlined_typed_choices :
    (∀ e ∈ [codeList, choice], e.2.keyed) ∧ InOrder [] [codeList, choice] ∧
    ∃ left, run {} (choices [codeList, choice]) = (left, .ok {}) ∧
      ((∀ e ∈ left.definitions, e.2.EveryMet IsTyped) ↔
        AllInline {} (choices [codeList, choice]) left IsTyped) ∧
      ((∀ e ∈ left.definitions, e.2.EveryMet IsSettled) ↔
        AllInline {} (choices [codeList, choice]) left IsSettled) ∧
      (run {} left = (left, .ok {}) ↔ ∀ e ∈ left.definitions, e.2.EveryMet IsSettled) ∧
      ∀ e ∈ left.definitions, e.2.EveryMet IsSettled := by
  have keyed : ∀ e ∈ [codeList, choice], e.2.keyed := by decide
  have ordered : InOrder [] [codeList, choice] := ⟨by decide, by decide, trivial⟩
  have ran : run {} (choices [codeList, choice]) =
      ((run {} (choices [codeList, choice])).1, .ok {}) := Prod.ext rfl rfl
  obtain ⟨typed, settled, again, inOrder⟩ := typed_iff_inlined_typed {} keyed ran
  exact ⟨keyed, ordered, _, ran, typed, settled, again, inOrder ordered⟩

/-- Before the codes stands a choice, and draws them in as text. -/
theorem text_left_in_choice : ¬ ∀ (options : Options) (d left : Document),
    (∀ e ∈ d.definitions, e.2.keyed) → d.Closed → run options d = (left, .ok {}) →
    ∀ e ∈ left.definitions, e.2.EveryMet IsTyped := by
  intro always
  have ran : run {} (choices [choice, codeList]) =
      ((run {} (choices [choice, codeList])).1, .ok {}) := Prod.ext rfl rfl
  have every := always {} (choices [choice, codeList]) _ (by decide) (by decide) ran
  have stands : ((run {} (choices [choice, codeList])).1.definitions[0]?.bind fun e =>
      e.2.node? [.items]) = some { keywords :=
        { type := some "integer", default := some (.num (.int 1)),
          enum := some [.str "1", .str "2"] } } := rfl
  obtain ⟨e, listed, found⟩ := Option.bind_eq_some_iff.mp stands
  have inside := everyMet_of_node? (every e (List.mem_of_getElem? listed)) rfl found
  have typed := inside _ (Schema.mem_met_self _ [])
  have same : Json.num (.int 1) = .str "1" := typed.enum "integer" _ rfl rfl _ List.mem_cons_self
  cases same

end Defaults
end SchemaGraph
