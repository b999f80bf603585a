import SchemaGraph.Pass.Defaults
import SchemaGraph.Proofs.CompleteInlining
import SchemaGraph.Proofs.Distinct
import SchemaGraph.Proofs.WalkedPlaces

/- Values on nodes without type. Such a node is overlaid by what its references mean, one after the
   other, and what is said last moves down to its first primitive schema, in that schema's type. The
   values that the node came with are the ones that move where none of its references mean a node with
   values of its own. -/
namespace SchemaGraph

namespace Inlining

/-- From the reference of a node over the nodes that it and the references after it mean. -/
inductive Chain (graph : Definitions) : Option Reference → List Schema → Prop where
  | last : Chain graph none []
  | next {r : Reference} {target : Schema} {targets : List Schema}
      (meant : graph.target? r = some target) (rest : Chain graph target.keywords.reference targets) :
      Chain graph (some r) (target :: targets)

section
variable {α : Type} {field : Keywords → Option α}

/-- What is left of a keyword when the nodes are laid over one that has `own`. -/
def said (field : Keywords → Option α) (own : Option α) (targets : List Schema) : Option α :=
  targets.foldl (fun value target => (field target.keywords).or value) own

theorem said_of_silent {targets : List Schema} (silent : ∀ t ∈ targets, field t.keywords = none)
    (own : Option α) : said field own targets = own := by
  induction targets generalizing own with
  | nil => rfl
  | cons target rest ih =>
    obtain ⟨here, later⟩ := List.forall_mem_cons.mp silent
    rw [said, List.foldl_cons, here, Option.none_or]
    exact ih later own

theorem isSome_said {own : Option α} (held : own.isSome) (targets : List Schema) :
    (said field own targets).isSome := by
  induction targets generalizing own with
  | nil => exact held
  | cons target rest ih =>
    rw [said, List.foldl_cons]
    refine ih ?_
    rw [Option.isSome_or, held, Bool.or_true]

/-- Where what is said last is what is given, a value of the node itself is given when the chain is
silent. -/
theorem given_of_said {β : Type} {own : α} {targets : List Schema} {given : Option β} {f : α → β}
    (last : ∀ value, said field (some own) targets = some value → given = some (f value)) :
    given = (said field (some own) targets).map f ∧
      ((∀ t ∈ targets, field t.keywords = none) → given = some (f own)) := by
  have still : (said field (some own) targets).isSome := isSome_said rfl targets
  obtain ⟨value, found⟩ := Option.isSome_iff_exists.mp still
  have same : given = (said field (some own) targets).map f := by
    rw [found]
    exact last value found
  refine ⟨same, fun silent => ?_⟩
  rw [same, said_of_silent silent]
  rfl

/-- A keyword of which the one on top wins, and which is no reference. -/
structure Laid (field : Keywords → Option α) : Prop where
  onto : ∀ top base : Keywords, field (top.onto base) = (field top).or (field base)
  apart : ∀ (k : Keywords) (r : Option Reference), field { k with reference := r } = field k

end

section
variable {graph : Definitions} {location : String} {max : Nat}

/-- What is inlined says what the chain has said last. -/
theorem exists_chain {budget : Nat} {s inlined : Schema}
    (ended : inlineWithin graph location max budget s = .ok inlined) :
    ∃ chain, Chain graph s.keywords.reference chain ∧ ∀ {α : Type} (field : Keywords → Option α),
      Laid field → field inlined.keywords = said field (field s.keywords) chain := by
  induction budget using Nat.strongRecOn generalizing s with
  | ind budget ih =>
    cases refers : s.keywords.reference with
    | none =>
      have same := (opened_of_ok refers ended).1
      exact ⟨[], .last, fun field _ => congrArg field same⟩
    | some r =>
      obtain ⟨target, less, meant, rfl, rest⟩ := overlaid_of_ok refers ended
      have keywords : (target.onto { s with keywords.reference := none }).keywords =
          target.keywords.onto { s.keywords with reference := none } := rfl
      have onward : (target.onto { s with keywords.reference := none }).keywords.reference =
          target.keywords.reference := Option.or_none
      obtain ⟨chain, further, states⟩ := ih less (Nat.lt_succ_self less) rest
      refine ⟨target :: chain, .next meant (onward ▸ further), fun field lays => ?_⟩
      rw [states field lays, keywords, lays.onto]
      exact congrArg (fun own => said field ((field target.keywords).or own) chain)
        (lays.apart s.keywords none)

end

end Inlining

/-- Only the keywords at the place are changed. -/
def ChangedAt (place : Place) (f : Keywords → Keywords) (s left : Schema) : Prop :=
  ∀ other, left.at? other = (s.at? other).map fun k => if other = place then f k else k

theorem ChangedAt.child {place : Place} {f : Keywords → Keywords} {k : Keywords}
    {c c' : Children Schema} {step : Step} {a a' : Schema} (held : c.child? step = some a)
    (left : c'.child? step = some a') (changed : ChangedAt place f a a')
    (elsewhere : ∀ other, other ≠ step → c'.child? other = c.child? other) :
    ChangedAt (step :: place) f ⟨k, c⟩ ⟨k, c'⟩ := by
  rintro (_ | ⟨other, rest⟩)
  · rfl
  · change (c'.child? other).bind _ = ((c.child? other).bind _).map _
    by_cases same : other = step
    · subst same
      rw [held, left]
      simp only [List.cons.injEq, true_and]
      exact changed rest
    · rw [elsewhere other same]
      simp only [List.cons.injEq, same, false_and, if_false, Option.map_id']

namespace Defaults

/-- The first of the members with a place in it. -/
def firstMember? (composition : Nat → Step) : Nat → List (Option Place) → Option Place
  | _, [] => none
  | i, some place :: _ => some (composition i :: place)
  | i, none :: rest => firstMember? composition (i + 1) rest

/-- Where the first schema with a primitive type is, through the items of arrays and the members of
compositions without type. -/
def primitivePlace? : Schema → Option Place := Schema.fold fun k c =>
  match k.type with
  | some "array" => c.items.bind (·.map (.items :: ·))
  | some "object" => none
  | some _ => some []
  | none =>
    match c.anyOf, c.oneOf, c.allOf with
    | some list, _, _ => firstMember? .anyOf 0 list
    | none, some list, _ => firstMember? .oneOf 0 list
    | none, none, some list => firstMember? .allOf 0 list
    | none, none, none => none

theorem primitivePlace?_mk (k : Keywords) (c : Children Schema) : primitivePlace? ⟨k, c⟩ =
    match k.type with
    | some "array" => c.items.bind fun items => (primitivePlace? items).map (.items :: ·)
    | some "object" => none
    | some _ => some []
    | none =>
      match c.anyOf, c.oneOf, c.allOf with
      | some list, _, _ => firstMember? .anyOf 0 (list.map primitivePlace?)
      | none, some list, _ => firstMember? .oneOf 0 (list.map primitivePlace?)
      | none, none, some list => firstMember? .allOf 0 (list.map primitivePlace?)
      | none, none, none => none := by
  rw [primitivePlace?, Schema.fold_mk, ← primitivePlace?]
  obtain ⟨not, items, properties, allOf, oneOf, anyOf, additional⟩ := c
  cases items <;> cases anyOf <;> cases oneOf <;> cases allOf <;> rfl

section
variable (f : Schema → Schema)

theorem updatePrimitive?_mk (k : Keywords) (c : Children Schema) : updatePrimitive? f ⟨k, c⟩ =
    let members (list : List Schema) := updateMember (list.map fun s => (s, updatePrimitive? f s))
    match k.type with
    | some "array" => (c.items.bind (updatePrimitive? f)).map fun items =>
        ⟨k, { c with items := some items }⟩
    | some "object" => none
    | some _ => some (f ⟨k, c⟩)
    | none =>
      match c.anyOf, c.oneOf, c.allOf with
      | some list, _, _ => (members list).map fun l => ⟨k, { c with anyOf := some l }⟩
      | none, some list, _ => (members list).map fun l => ⟨k, { c with oneOf := some l }⟩
      | none, none, some list => (members list).map fun l => ⟨k, { c with allOf := some l }⟩
      | none, none, none => none := by
  have same : (c.map fun child => (child, updatePrimitive? f child)).map Prod.fst = c := by
    rw [Children.map_map]
    exact c.map_id
  rw [updatePrimitive?, Schema.para_mk, ← updatePrimitive?]
  dsimp only
  rw [same]
  obtain ⟨not, items, properties, allOf, oneOf, anyOf, additional⟩ := c
  cases items <;> cases anyOf <;> cases oneOf <;> cases allOf <;> rfl

end

/-- The place leads to a node with a primitive type. -/
def PrimitiveAt (place : Place) (s : Schema) : Prop :=
  ∃ k t, s.at? place = some k ∧ k.type = some t ∧ t ≠ "array" ∧ t ≠ "object"

/-- The update changes the keywords at the first primitive place, or there is none. -/
def Updates (f : Keywords → Keywords) (s : Schema) (place : Option Place) (left : Option Schema) :
    Prop :=
  (place = none ∧ left = none) ∨ ∃ q s', place = some q ∧ left = some s' ∧ ChangedAt q f s s' ∧
    PrimitiveAt q s

theorem updates_members {f : Keywords → Keywords} {update : Schema → Option Schema}
    (composition : Nat → Step) (i : Nat) {list : List Schema}
    (each : ∀ s ∈ list, Updates f s (primitivePlace? s) (update s)) :
    (firstMember? composition i (list.map primitivePlace?) = none ∧
        updateMember (list.map fun s => (s, update s)) = none) ∨
      ∃ j q s s', firstMember? composition i (list.map primitivePlace?) =
          some (composition (i + j) :: q) ∧
        updateMember (list.map fun s => (s, update s)) = some (list.set j s') ∧
        list[j]? = some s ∧ ChangedAt q f s s' ∧ PrimitiveAt q s := by
  induction list generalizing i with
  | nil => exact Or.inl ⟨rfl, rfl⟩
  | cons first rest ih =>
    obtain ⟨here, later⟩ := List.forall_mem_cons.mp each
    rw [List.map_cons, List.map_cons]
    rcases here with ⟨nowhere, same⟩ | ⟨q, first', place, updated, changed, primitive⟩
    · rw [nowhere, same, firstMember?, updateMember]
      rcases ih (i + 1) later with ⟨none, still⟩ | ⟨j, q, s, s', place, updated, listed, changed⟩
      · exact Or.inl ⟨none, by rw [still]; rfl⟩
      · refine Or.inr ⟨j + 1, q, s, s', ?_, by rw [updated]; rfl, listed, changed⟩
        rw [place, Nat.add_assoc, Nat.add_comm 1 j]
    · rw [place, updated, firstMember?, updateMember]
      refine Or.inr ⟨0, q, first, first', rfl, ?_, rfl, changed, primitive⟩
      rw [List.map_map]
      simp [Function.comp_def]

theorem PrimitiveAt.child {k : Keywords} {c : Children Schema} {step : Step} {q : Place} {s : Schema}
    (held : c.child? step = some s) (primitive : PrimitiveAt q s) : PrimitiveAt (step :: q) ⟨k, c⟩ := by
  obtain ⟨own, t, found, type⟩ := primitive
  refine ⟨own, t, ?_, type⟩
  change (c.child? step).bind _ = _
  rw [held]
  exact found

/-- A composition of which one member is updated. -/
theorem updates_composition {f : Keywords → Keywords} {update : Schema → Option Schema} {k : Keywords}
    {c : Children Schema} {list : List Schema} {composition : Nat → Step}
    (put : List Schema → Children Schema) (held : ∀ i, c.child? (composition i) = list[i]?)
    (puts : ∀ l i, (put l).child? (composition i) = l[i]?)
    (others : ∀ l other, (∀ i, other ≠ composition i) → (put l).child? other = c.child? other)
    (each : ∀ s ∈ list, Updates f s (primitivePlace? s) (update s)) :
    Updates f ⟨k, c⟩ (firstMember? composition 0 (list.map primitivePlace?))
      ((updateMember (list.map fun s => (s, update s))).map fun l => ⟨k, put l⟩) := by
  rcases updates_members composition 0 each with
    ⟨none, still⟩ | ⟨j, q, s, s', place, updated, found, changed, primitive⟩
  · exact Or.inl ⟨none, by rw [still]; rfl⟩
  · rw [Nat.zero_add] at place
    have here := (held j).trans found
    have inside : j < list.length := (List.getElem?_eq_some_iff.mp found).1
    have left : (put (list.set j s')).child? (composition j) = some s' := by
      rw [puts, List.getElem?_set_self inside]
    refine Or.inr ⟨_, _, place, by rw [updated]; rfl, ?_, primitive.child here⟩
    refine changed.child here left fun other elsewhere => ?_
    by_cases among : ∃ i, other = composition i
    · obtain ⟨i, rfl⟩ := among
      have differs : j ≠ i := fun same => elsewhere (same ▸ rfl)
      rw [puts, held, List.getElem?_set_ne differs]
    · exact others _ other (not_exists.mp among)

/-- The update of the first primitive schema, where it is. -/
theorem updates_primitive (f : Keywords → Keywords) (s : Schema) :
    Updates f s (primitivePlace? s)
      (updatePrimitive? (fun s => { s with keywords := f s.keywords }) s) := by
  induction s using Schema.children_induction with
  | step k c ih =>
    rw [primitivePlace?_mk, updatePrimitive?_mk]
    dsimp only
    have below := (Children.each_iff _ c).mpr ih
    split
    · cases held : c.items with
      | none => exact Or.inl ⟨rfl, rfl⟩
      | some items =>
        rcases below.items items held with
          ⟨nowhere, same⟩ | ⟨q, items', place, updated, changed, primitive⟩
        · exact Or.inl ⟨by rw [Option.bind_some, nowhere]; rfl, by rw [Option.bind_some, same]; rfl⟩
        · refine Or.inr ⟨.items :: q, _, by rw [Option.bind_some, place]; rfl,
            by rw [Option.bind_some, updated]; rfl, ?_, primitive.child held⟩
          refine changed.child held rfl fun other elsewhere => ?_
          cases other with
          | items => exact absurd rfl elsewhere
          | property | not | additional | allOf | oneOf | anyOf => rfl
    · exact Or.inl ⟨rfl, rfl⟩
    · rename_i t noArray noObject type
      refine Or.inr ⟨[], _, rfl, rfl, ?_, k, t, rfl, type, fun array => noArray (array ▸ rfl),
        fun object => noObject (object ▸ rfl)⟩
      rintro (_ | ⟨step, rest⟩)
      · rfl
      · change (c.child? step).bind _ = ((c.child? step).bind _).map _
        simp
    · split
      · rename_i list held
        refine updates_composition (fun l => { c with anyOf := some l })
          (fun i => by rw [Children.child?, held]; rfl) (fun _ _ => rfl) ?_ (below.anyOf list held)
        intro l other elsewhere
        cases other with
        | anyOf i => exact absurd rfl (elsewhere i)
        | property | items | not | additional | allOf | oneOf => rfl
      · rename_i list _ held
        refine updates_composition (fun l => { c with oneOf := some l })
          (fun i => by rw [Children.child?, held]; rfl) (fun _ _ => rfl) ?_ (below.oneOf list held)
        intro l other elsewhere
        cases other with
        | oneOf i => exact absurd rfl (elsewhere i)
        | property | items | not | additional | allOf | anyOf => rfl
      · rename_i list _ _ held
        refine updates_composition (fun l => { c with allOf := some l })
          (fun i => by rw [Children.child?, held]; rfl) (fun _ _ => rfl) ?_ (below.allOf list held)
        intro l other elsewhere
        cases other with
        | allOf i => exact absurd rfl (elsewhere i)
        | property | items | not | additional | oneOf | anyOf => rfl
      · exact Or.inl ⟨rfl, rfl⟩

/-- Values and no type. -/
def isSite (k : Keywords) : Bool :=
  k.type.isNone && (k.default.any Json.isTruthy || k.enum.isSome)

/-- The default that moves: a site that comes with one moves the one that it has when it has been
inlined. -/
def movedDefault (site inlined : Keywords) : Option Json :=
  if site.default.any Json.isTruthy then inlined.default else none

/-- The keywords of a node that is given values of its own type. -/
def placed (default : Option Json) (enum : Option (List Json)) (k : Keywords) : Keywords :=
  let convert := Lexical.convert (k.type.getD "")
  { k with
    default := (default.map convert).or k.default
    enum := (enum.map (List.map convert)).or k.enum }

/-- An inlined node whose values have been taken. -/
def vacated (inlined : Schema) : Schema :=
  { inlined with keywords.default := none, keywords.enum := none }

/-- What becomes of a site once it has been inlined. -/
def settle (site : Keywords) (inlined : Schema) : Schema :=
  (updatePrimitive? (place (movedDefault site inlined.keywords) inlined.keywords.enum)
    (vacated inlined)).getD (vacated inlined)

theorem changedAt_vacated (inlined : Schema) :
    ChangedAt [] (fun k => { k with default := none, enum := none }) inlined (vacated inlined) := by
  rintro (_ | ⟨step, rest⟩)
  · rfl
  · change (inlined.children.child? step).bind _ = ((inlined.children.child? step).bind _).map _
    simp

theorem primitivePlace?_vacated (inlined : Schema) :
    primitivePlace? (vacated inlined) = primitivePlace? inlined := by
  obtain ⟨k, c⟩ := inlined
  rw [vacated, primitivePlace?_mk, primitivePlace?_mk]

/-- The first primitive place leads to a node with a primitive type. -/
theorem primitiveAt_primitivePlace? {s : Schema} {q : Place} (place : primitivePlace? s = some q) :
    PrimitiveAt q s := by
  rcases updates_primitive id s with ⟨nowhere, _⟩ | ⟨_, _, here, _, _, primitive⟩
  · cases nowhere.symm.trans place
  · cases here.symm.trans place
    exact primitive

theorem at?_settle (site : Keywords) (inlined : Schema) (other : Place) :
    (settle site inlined).at? other = ((vacated inlined).at? other).map fun k =>
      if primitivePlace? inlined = some other then
        placed (movedDefault site inlined.keywords) inlined.keywords.enum k
      else k := by
  have updates := updates_primitive
    (placed (movedDefault site inlined.keywords) inlined.keywords.enum) (vacated inlined)
  rw [primitivePlace?_vacated] at updates
  rcases updates with ⟨nowhere, still⟩ | ⟨q, left, here, updated, changed, _⟩
  · have unchanged : settle site inlined = vacated inlined := congrArg (Option.getD · _) still
    rw [unchanged, nowhere]
    simp
  · have becomes : settle site inlined = left := congrArg (Option.getD · _) updated
    rw [becomes, changed, here]
    simp only [Option.some.injEq, eq_comm]

section
variable {maxDepth : Nat} {graph : Definitions} {p : Position} {s left : Schema}

theorem after_of_site (carries : isSite s.keywords = true) : after maxDepth graph p s =
    (Inlining.inlineReferences graph p.location maxDepth s).map (settle s.keywords) := by
  obtain ⟨untyped, values⟩ := Bool.and_eq_true_iff.mp carries
  have carried : (!s.keywords.default.any Json.isTruthy && s.keywords.enum.isNone) = false := by
    cases truthy : s.keywords.default.any Json.isTruthy with
    | true => rfl
    | false =>
      rw [truthy, Bool.false_or] at values
      rw [Bool.not_false, Bool.true_and, ← Option.not_isSome, values]
      rfl
  rw [after]
  dsimp only
  rw [carried, if_neg (by simp), if_neg (by simpa using untyped)]
  cases Inlining.inlineReferences graph p.location maxDepth s <;> rfl

/-- A node that is no site keeps all but its values, which it converts to its type. -/
theorem after_of_no_site (other : isSite s.keywords = false) : after maxDepth graph p s = .ok
    (if s.keywords.type.isSome then
      place (if s.keywords.default.any Json.isTruthy then s.keywords.default else none)
        s.keywords.enum s
    else s) := by
  rw [after]
  dsimp only
  cases carried : !s.keywords.default.any Json.isTruthy && s.keywords.enum.isNone with
  | true =>
    obtain ⟨untrue, unlisted⟩ := Bool.and_eq_true_iff.mp carried
    rw [Bool.not_eq_true'] at untrue
    have same : place none none s = s := by
      obtain ⟨_, _⟩ := s
      rfl
    rw [if_pos rfl, untrue, Option.isNone_iff_eq_none.mp unlisted]
    simp [same]
  | false =>
    rw [if_neg (by simp)]
    cases type : s.keywords.type with
    | some t => rfl
    | none =>
      -- The node would be a site.
      rw [isSite, type, Option.isNone_none, Bool.true_and, Bool.or_eq_false_iff] at other
      rw [other.1, ← Option.not_isSome, other.2] at carried
      cases carried

theorem children_of_no_site (other : isSite s.keywords = false)
    (ended : after maxDepth graph p s = .ok left) : left.children = s.children := by
  rw [after_of_no_site other] at ended
  cases ended
  split <;> rfl

/-- What a site is when what the walk has left below it and its references have been inlined. -/
def Inlined (graph : Definitions) (maxDepth : Nat) (site inlined : Schema) : Prop :=
  ∃ p below, site.children.Related (Walked (after maxDepth graph)) below ∧
    Inlining.inlineReferences graph p maxDepth { site with children := below } = .ok inlined

theorem exists_inlined (walked : Walked (after maxDepth graph) s left)
    (carries : isSite s.keywords = true) :
    ∃ inlined, Inlined graph maxDepth s inlined ∧ left = settle s.keywords inlined := by
  obtain ⟨k, c⟩ := s
  obtain ⟨p, below, related, ended⟩ := walked.exists_hook
  rw [after_of_site (s := ⟨k, below⟩) carries] at ended
  cases inlines : Inlining.inlineReferences graph p.location maxDepth ⟨k, below⟩ with
  | error e =>
    rw [inlines] at ended
    cases ended
  | ok inlined =>
    rw [inlines] at ended
    cases ended
    exact ⟨inlined, ⟨p.location, below, related, inlines⟩, rfl⟩

end

section
variable {options : Options} {d left : Document}

/-- The definitions as the walk sees them from the one that has the number. -/
def moment (d left : Document) (n : Nat) : Definitions :=
  left.definitions.take n ++ d.definitions.drop n

theorem exists_walked_root (ran : run options d = (left, .ok {})) {n : Nat} {name : String}
    {root : Schema} (listed : d.definitions[n]? = some (name, root)) :
    ∃ root', left.definitions[n]? = some (name, root') ∧
      Walked (after options.maxDepth (moment d left n)) root root' := by
  have reached := (walkPass_eq_ok_iff.mp ran).1
  have all : n < left.definitions.length := by
    rw [reached.length_eq]
    exact (List.getElem?_eq_some_iff.mp listed).1
  obtain ⟨root', found, walked⟩ := reached.exists_getElem? listed all
  exact ⟨root', found, walked_of_walkedRoot walked⟩

end

section
variable {site inlined : Schema} {q : Place} {t : String}

theorem laid_default : Inlining.Laid (·.default) := ⟨fun _ _ => rfl, fun _ _ => rfl⟩

theorem laid_enum : Inlining.Laid (·.enum) := ⟨fun _ _ => rfl, fun _ _ => rfl⟩

/-- The first primitive schema has what moves, in its type. -/
theorem values_of_primitive (site : Keywords) (primitive : primitivePlace? inlined = some q) :
    ∃ t own k, inlined.at? q = some own ∧ own.type = some t ∧ t ≠ "array" ∧ t ≠ "object" ∧
      (settle site inlined).at? q = some k ∧
      (∀ v, movedDefault site inlined.keywords = some v → k.default = some (Lexical.convert t v)) ∧
      ∀ l, inlined.keywords.enum = some l → k.enum = some (l.map (Lexical.convert t)) := by
  obtain ⟨own, t, found, type, noArray, noObject⟩ := primitiveAt_primitivePlace? primitive
  have settled := at?_settle site inlined q
  rw [changedAt_vacated, found, Option.map_some, Option.map_some, if_pos primitive] at settled
  -- Whether the place is the node itself or not, its type is what it was.
  have kept : (if q = [] then { own with default := none, enum := none } else own).type = some t := by
    split <;> exact type
  refine ⟨t, own, _, found, type, noArray, noObject, settled, fun v moves => ?_, fun l moves => ?_⟩
  · rw [placed, moves, kept]
    rfl
  · rw [placed, moves, kept]
    rfl

end

/-- A site gives the values that are said last to the first primitive schema in what it has become, in
the type of that schema. Those are its own values where no node that its references mean says a value.
What the site has become stands in its place when the walk is over, unless there is a site above
it. -/
theorem migrated_values (options : Options) {d left : Document}
    (ran : run options d = (left, .ok {})) {n : Nat} {name : String} {root site : Schema}
    {place : Place} (listed : d.definitions[n]? = some (name, root))
    (entered : place.isEntered = true) (stands : root.node? place = some site)
    (carries : isSite site.keywords = true) :
    ∃ inlined chain,
      Walked (after options.maxDepth (moment d left n)) site (settle site.keywords inlined) ∧
      Inlined (moment d left n) options.maxDepth site inlined ∧
      Inlining.Chain (moment d left n) site.keywords.reference chain ∧
      (∀ q, primitivePlace? inlined = some q → ∃ t own k,
        inlined.at? q = some own ∧ own.type = some t ∧ t ≠ "array" ∧ t ≠ "object" ∧
        (settle site.keywords inlined).at? q = some k ∧
        (∀ v, site.keywords.default = some v → v.isTruthy = true →
          k.default = (Inlining.said (·.default) (some v) chain).map (Lexical.convert t) ∧
          ((∀ target ∈ chain, target.keywords.default = none) →
            k.default = some (Lexical.convert t v))) ∧
        ∀ l, site.keywords.enum = some l →
          k.enum = (Inlining.said (·.enum) (some l) chain).map (List.map (Lexical.convert t)) ∧
          ((∀ target ∈ chain, target.keywords.enum = none) →
            k.enum = some (l.map (Lexical.convert t)))) ∧
      (place.passes isSite root = false → ∃ root', left.definitions[n]? = some (name, root') ∧
        root'.node? place = some (settle site.keywords inlined)) := by
  obtain ⟨root', there, rootWalked⟩ := exists_walked_root ran listed
  have walked : ∃ final, Walked (after options.maxDepth (moment d left n)) site final ∧
      (place.passes isSite root = false → root'.node? place = some final) := by
    cases free : place.passes isSite root with
    | true =>
      obtain ⟨final, walked⟩ := rootWalked.exists_walked entered stands
      exact ⟨final, walked, fun no => by cases no⟩
    | false =>
      obtain ⟨final, found, walked⟩ := rootWalked.exists_node
        (fun _ _ _ => children_of_no_site) entered free stands
      exact ⟨final, walked, fun _ => found⟩
  obtain ⟨final, walked, found⟩ := walked
  obtain ⟨inlined, inlines, rfl⟩ := exists_inlined walked carries
  obtain ⟨p, below, related, ended⟩ := inlines
  obtain ⟨chain, leads, states⟩ := Inlining.exists_chain ended
  refine ⟨inlined, chain, walked, ⟨p, below, related, ended⟩, leads, fun q primitive => ?_,
    fun free => ⟨root', there, found free⟩⟩
  obtain ⟨t, own, k, stood, type, noArray, noObject, settled, default, enum⟩ :=
    values_of_primitive site.keywords primitive
  refine ⟨t, own, k, stood, type, noArray, noObject, settled,
    fun v held truthy => Inlining.given_of_said fun w last => default w ?_,
    fun l held => Inlining.given_of_said fun m last => enum m ?_⟩
  · rw [movedDefault, held, Option.any_some, if_pos truthy, states (·.default) laid_default, held]
    exact last
  · rw [states (·.enum) laid_enum, held]
    exact last

/-- A holder has a size with a default, and a size may have one of its own. -/
def sizes (own : Option Json) : Document where
  raw := [("definitions", .null)]
  flavor := .definitions
  hasSlot := true
  definitions :=
    let size : Keywords :=
      { reference := some (.toDefinition "Size" .definitions), default := some (.str "10") }
    [("Size", { keywords := { type := some "integer", default := own } }),
      ("Holder", { children := { properties := some [("size", { keywords := size })] } })]

theorem ran_sizes (own : Option Json) (ended : (run {} (sizes own)).2 = .ok {}) :
    run {} (sizes own) = ((run {} (sizes own)).1, .ok {}) := Prod.ext rfl ended

theorem migrated_values_sizes : ∃ left name root site, run {} (sizes none) = (left, .ok {}) ∧
    (sizes none).definitions[1]? = some (name, root) ∧
    Place.isEntered [.property "size"] = true ∧ root.node? [.property "size"] = some site ∧
    isSite site.keywords = true ∧ ∃ inlined chain,
      Walked (after ({} : Options).maxDepth (moment (sizes none) left 1)) site
        (settle site.keywords inlined) ∧
      Inlined (moment (sizes none) left 1) ({} : Options).maxDepth site inlined ∧
      Inlining.Chain (moment (sizes none) left 1) site.keywords.reference chain ∧
      (∀ q, primitivePlace? inlined = some q → ∃ t own k,
        inlined.at? q = some own ∧ own.type = some t ∧ t ≠ "array" ∧ t ≠ "object" ∧
        (settle site.keywords inlined).at? q = some k ∧
        (∀ v, site.keywords.default = some v → v.isTruthy = true →
          k.default = (Inlining.said (·.default) (some v) chain).map (Lexical.convert t) ∧
          ((∀ target ∈ chain, target.keywords.default = none) →
            k.default = some (Lexical.convert t v))) ∧
        ∀ l, site.keywords.enum = some l →
          k.enum = (Inlining.said (·.enum) (some l) chain).map (List.map (Lexical.convert t)) ∧
          ((∀ target ∈ chain, target.keywords.enum = none) →
            k.enum = some (l.map (Lexical.convert t)))) ∧
      (Place.passes isSite [.property "size"] root = false →
        ∃ root', left.definitions[1]? = some (name, root') ∧
          root'.node? [.property "size"] = some (settle site.keywords inlined)) :=
  ⟨_, _, _, _, ran_sizes none rfl, rfl, rfl, rfl, rfl,
    migrated_values {} (ran_sizes none rfl) rfl rfl rfl rfl⟩

/-- Where the size has a default of its own, the holder ends with that one. -/
theorem own_default_lost : ¬ ∀ (options : Options) (d left : Document),
    run options d = (left, .ok {}) → ∀ n name root site (place : Place),
    d.definitions[n]? = some (name, root) → place.isEntered = true →
    root.node? place = some site → isSite site.keywords = true → place.passes isSite root = false →
    ∀ inlined, Inlined (moment d left n) options.maxDepth site inlined →
    ∀ q t, primitivePlace? inlined = some q → (inlined.at? q).bind (·.type) = some t →
    ∀ v, site.keywords.default = some v → v.isTruthy = true →
      ∃ root', left.definitions[n]? = some (name, root') ∧
        (root'.at? (place ++ q)).bind (·.default) = some (Lexical.convert t v) := by
  intro always
  have childless : ({} : Children Schema).Related
      (Walked (after 64 (moment (sizes (some (.str "5"))) (run {} (sizes (some (.str "5")))).1 1)))
      {} := ⟨rfl, .none, .none, .none, .none, .none, rfl⟩
  obtain ⟨root', there, given⟩ := always {} (sizes (some (.str "5"))) _ (ran_sizes _ rfl) 1 _ _ _
    [.property "size"] rfl rfl rfl rfl rfl _ ⟨"", {}, childless, rfl⟩ [] "integer" rfl rfl
    (.str "10") rfl rfl
  have left : ((run {} (sizes (some (.str "5")))).1.definitions[1]?.bind fun e =>
      (e.2.at? [.property "size"]).bind (·.default)) = some (Lexical.convert "integer" (.str "5")) :=
    rfl
  rw [there] at left
  have same := congrArg (Option.map (Json.equiv (.num (.int 5)))) (given.symm.trans left)
  exact absurd same (by decide)

end Defaults
end SchemaGraph
