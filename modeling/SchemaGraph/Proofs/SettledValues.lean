import SchemaGraph.Proofs.Entered
import SchemaGraph.Proofs.MigratedValues

/- Values in their declared types. What is converted to a type stays as it is when it is converted
   again, so a node that the pass has come to keeps its values, and a site that has been inlined has
   all its values in their types when what it has drawn in has, apart from the values that it
   replaces. -/
namespace SchemaGraph

namespace Lexical

theorem primitive_cases (text : String) : primitive text = .str text ∨
    (∃ b, primitive text = .bool b) ∨ ∃ n, primitive text = .num n := by
  rw [primitive]
  split
  · exact Or.inr (Or.inl ⟨true, rfl⟩)
  · split
    · exact Or.inr (Or.inl ⟨false, rfl⟩)
    · split
      · rename_i n _
        exact Or.inr (Or.inr ⟨n, rfl⟩)
      · exact Or.inl rfl

theorem boolean_num_again (n : Number) : boolean (boolean (.num n)) = boolean (.num n) := by
  have here : boolean (.num n) =
      if n.isOne then .bool true else if n.isZero then .bool false else .num n := rfl
  cases one : n.isOne with
  | true =>
    rw [here, one]
    rfl
  | false =>
    cases zero : n.isZero with
    | true =>
      rw [here, one, zero]
      rfl
    | false =>
      have stays : boolean (.num n) = .num n := by
        rw [here, one, zero]
        rfl
      rw [stays, stays]

theorem boolean_again (v : Json) : boolean (boolean v) = boolean v := by
  cases v with
  | str text =>
    rcases primitive_cases text with same | ⟨b, read⟩ | ⟨n, read⟩
    · have stays : boolean (.str text) = .str text := by
        rw [boolean]
        rw [same]
      rw [stays, stays]
    · have reads : boolean (.str text) = .bool b := by
        rw [boolean]
        rw [read]
      rw [reads]
      rfl
    · have reads : boolean (.str text) = boolean (.num n) := by
        rw [boolean]
        rw [read]
        rfl
      rw [reads, boolean_num_again]
  | num n => exact boolean_num_again n
  | null | bool | arr | obj => rfl

theorem numeric_again (v : Json) : numeric (numeric v) = numeric v := by
  cases v with
  | str text =>
    cases read : number? text.toList with
    | none =>
      have stays : numeric (.str text) = .str text := by
        rw [numeric]
        rw [read]
      rw [stays, stays]
    | some n =>
      have reads : numeric (.str text) = .num n := by
        rw [numeric]
        rw [read]
      rw [reads]
      rfl
  | null | bool | num | arr | obj => rfl

/-- What is converted to a type has it. -/
theorem convert_convert (type : String) (v : Json) :
    convert type (convert type v) = convert type v := by
  rw [convert, convert]
  split
  · exact boolean_again v
  · split
    · exact numeric_again v
    · rfl

end Lexical

namespace Defaults

/-- The values have the type that the node declares. -/
structure IsTyped (k : Keywords) : Prop where
  default : ∀ t v, k.type = some t → k.default = some v → v.isTruthy = true →
    Lexical.convert t v = v
  enum : ∀ t l, k.type = some t → k.enum = some l → ∀ v ∈ l, Lexical.convert t v = v

/-- The values have their type, and without type there are none. -/
structure IsSettled (k : Keywords) : Prop where
  typed : IsTyped k
  noSite : isSite k = false

theorem isSite_of_typed {k : Keywords} {t : String} (type : k.type = some t) : isSite k = false := by
  rw [isSite, type]
  rfl

/-- What a node keeps of its values when it is given others. -/
def spared (default : Option Json) (enum : Option (List Json)) (k : Keywords) : Keywords :=
  { k with
    default := if default.isSome then none else k.default
    enum := if enum.isSome then none else k.enum }

/-- Values that a node is given are in its type. -/
theorem isTyped_placed_iff {k : Keywords} {t : String} (type : k.type = some t)
    (default : Option Json) (enum : Option (List Json)) :
    IsTyped (placed default enum k) ↔ IsTyped (spared default enum k) := by
  constructor
  · intro typed
    refine ⟨fun t' v same held truthy => ?_, fun t' l same held v inside => ?_⟩
    · cases default with
      | some given => cases held
      | none => exact typed.default t' v same held truthy
    · cases enum with
      | some given => cases held
      | none => exact typed.enum t' l same held v inside
  · intro typed
    refine ⟨fun t' v same held truthy => ?_, fun t' l same held v inside => ?_⟩
    · cases default with
      | some given =>
        rw [placed, type] at held
        cases held
        cases type.symm.trans same
        exact Lexical.convert_convert t given
      | none => exact typed.default t' v same held truthy
    · cases enum with
      | some given =>
        rw [placed, type] at held
        cases held
        cases type.symm.trans same
        obtain ⟨w, _, rfl⟩ := List.mem_map.mp inside
        exact Lexical.convert_convert t w
      | none => exact typed.enum t' l same held v inside

section
variable {maxDepth : Nat} {graph : Definitions} {p : Position} {s left : Schema}

/-- A node that is no site is settled when the hook has been there. -/
theorem settled_of_after (other : isSite s.keywords = false)
    (ended : after maxDepth graph p s = .ok left) : IsSettled left.keywords := by
  rw [after_of_no_site other] at ended
  cases ended
  cases type : s.keywords.type with
  | none =>
    refine ⟨⟨fun t v same => ?_, fun t l same => ?_⟩, other⟩
    · cases type.symm.trans same
    · cases type.symm.trans same
  | some t =>
    rw [if_pos (show (some t).isSome = true from rfl)]
    refine ⟨(isTyped_placed_iff type _ _).mpr ⟨fun _ v _ held truthy => ?_, fun _ l _ held => ?_⟩,
      isSite_of_typed type⟩
    · -- What is not replaced is not true.
      rw [spared] at held
      cases stood : s.keywords.default with
      | none => simp [stood] at held
      | some w =>
        cases said : w.isTruthy with
        | true => simp [stood, said] at held
        | false =>
          have same : w = v := by simpa [stood, said] using held
          rw [← same, said] at truthy
          cases truthy
    · rw [spared] at held
      cases listed : s.keywords.enum <;> simp [listed] at held

/-- A site is none any more. -/
theorem isSite_settle (site : Keywords) (inlined : Schema) :
    isSite (settle site inlined).keywords = false := by
  have settled := Option.some.inj (at?_settle site inlined [])
  rw [settled]
  split
  · rename_i primitive
    obtain ⟨own, t, found, type, _⟩ := primitiveAt_primitivePlace? primitive
    cases found
    exact isSite_of_typed type
  · exact Bool.and_false _

end

section
variable {good : Keywords → Prop}

theorem optionRel_map {α β : Type} {rel : α → α → Prop} {rel' : β → β → Prop} {f g : α → β}
    {o o' : Option α} (pair : Option.Rel rel o o') (each : ∀ a b, rel a b → rel' (f a) (g b)) :
    Option.Rel rel' (o.map f) (o'.map g) := by
  cases pair with
  | none => exact .none
  | some related => exact .some (each _ _ related)

/-- Two updates of the first member that has one. -/
theorem good_updateMember {holds : Schema → Prop} {f g : Schema → Option Schema} {list : List Schema}
    (each : ∀ s ∈ list, Option.Rel (fun a b => holds a → holds b) (f s) (g s)) :
    Option.Rel (fun l l' => (∀ s ∈ l, holds s) → ∀ s ∈ l', holds s)
      (updateMember (list.map fun s => (s, f s))) (updateMember (list.map fun s => (s, g s))) := by
  induction list with
  | nil => exact .none
  | cons first rest ih =>
    obtain ⟨here, later⟩ := List.forall_mem_cons.mp each
    have others (update : Schema → Option Schema) :
        (rest.map fun s => (s, update s)).map Prod.fst = rest := by
      simp [Function.comp_def]
    rw [List.map_cons, List.map_cons]
    generalize f first = o at here
    generalize g first = o' at here
    cases here with
    | none =>
      rw [updateMember, updateMember]
      refine optionRel_map (ih later) fun l l' goes all => ?_
      obtain ⟨own, below⟩ := List.forall_mem_cons.mp all
      exact List.forall_mem_cons.mpr ⟨own, goes below⟩
    | some goes =>
      rw [updateMember, updateMember, others, others]
      refine .some fun all => ?_
      obtain ⟨own, below⟩ := List.forall_mem_cons.mp all
      exact List.forall_mem_cons.mpr ⟨goes own, below⟩

/-- Two updates of the first primitive schema, of which the second does no harm where the first does
none. -/
theorem everyMet_update {f g : Keywords → Keywords}
    (goes : ∀ k t, k.type = some t → good (f k) → good (g k)) (s : Schema) :
    Option.Rel (fun a b : Schema => a.EveryMet good → b.EveryMet good)
      (updatePrimitive? (fun s => { s with keywords := f s.keywords }) s)
      (updatePrimitive? (fun s => { s with keywords := g s.keywords }) s) := by
  induction s using Schema.children_induction with
  | step k c ih =>
    have below := (Children.each_iff _ c).mpr ih
    rw [updatePrimitive?_mk, updatePrimitive?_mk]
    dsimp only
    split
    · cases held : c.items with
      | none => exact .none
      | some items =>
        refine optionRel_map (below.items items held) fun a b turns every => ?_
        obtain ⟨own, each⟩ := (Schema.everyMet_mk_iff _ _).mp every
        exact (Schema.everyMet_mk_iff _ _).mpr
          ⟨own, { each with items := forall_eq_some (turns (each.items a rfl)) }⟩
    · exact .none
    · rename_i t _ _ type
      refine .some fun every => ?_
      obtain ⟨own, each⟩ := (Schema.everyMet_mk_iff _ _).mp every
      exact (Schema.everyMet_mk_iff _ _).mpr ⟨goes k t type own, each⟩
    · split
      · rename_i list held
        refine optionRel_map (good_updateMember (below.anyOf list held)) fun l l' turns every => ?_
        obtain ⟨own, each⟩ := (Schema.everyMet_mk_iff _ _).mp every
        exact (Schema.everyMet_mk_iff _ _).mpr
          ⟨own, { each with anyOf := forall_eq_some (turns (each.anyOf l rfl)) }⟩
      · rename_i list _ held
        refine optionRel_map (good_updateMember (below.oneOf list held)) fun l l' turns every => ?_
        obtain ⟨own, each⟩ := (Schema.everyMet_mk_iff _ _).mp every
        exact (Schema.everyMet_mk_iff _ _).mpr
          ⟨own, { each with oneOf := forall_eq_some (turns (each.oneOf l rfl)) }⟩
      · rename_i list _ _ held
        refine optionRel_map (good_updateMember (below.allOf list held)) fun l l' turns every => ?_
        obtain ⟨own, each⟩ := (Schema.everyMet_mk_iff _ _).mp every
        exact (Schema.everyMet_mk_iff _ _).mpr
          ⟨own, { each with allOf := forall_eq_some (turns (each.allOf l rfl)) }⟩
      · exact .none

theorem everyMet_getD_update {f g : Keywords → Keywords}
    (goes : ∀ k t, k.type = some t → good (f k) → good (g k)) {s : Schema} :
    ((updatePrimitive? (fun s => { s with keywords := f s.keywords }) s).getD s).EveryMet good →
      ((updatePrimitive? (fun s => { s with keywords := g s.keywords }) s).getD s).EveryMet good := by
  intro every
  have pair := everyMet_update goes s
  generalize updatePrimitive? (fun s => { s with keywords := f s.keywords }) s = o at pair every
  generalize updatePrimitive? (fun s => { s with keywords := g s.keywords }) s = o' at pair
  cases pair with
  | none => exact every
  | some turns => exact turns every

theorem eq_of_updateMember {update : Schema → Option Schema} {list left : List Schema}
    (each : ∀ s ∈ list, ∀ s', update s = some s' → s' = s)
    (updated : updateMember (list.map fun s => (s, update s)) = some left) : left = list := by
  induction list generalizing left with
  | nil => cases updated
  | cons first rest ih =>
    obtain ⟨here, later⟩ := List.forall_mem_cons.mp each
    rw [List.map_cons] at updated
    cases turned : update first with
    | none =>
      rw [turned, updateMember] at updated
      obtain ⟨l, same, rfl⟩ := Option.map_eq_some_iff.mp updated
      rw [ih later same]
    | some first' =>
      rw [turned, updateMember] at updated
      cases updated
      rw [here first' turned, List.map_map]
      simp [Function.comp_def]

/-- An update that changes nothing. -/
theorem eq_of_updatePrimitive? {s s' : Schema} (updated : updatePrimitive? (fun s => s) s = some s') :
    s' = s := by
  induction s using Schema.children_induction generalizing s' with
  | step k c ih =>
    have below : c.Each fun s => ∀ s', updatePrimitive? (fun s => s) s = some s' → s' = s :=
      (Children.each_iff _ c).mpr fun s member s' => ih s member
    rw [updatePrimitive?_mk] at updated
    dsimp only at updated
    split at updated
    · obtain ⟨items', same, rfl⟩ := Option.map_eq_some_iff.mp updated
      obtain ⟨items, held, same⟩ := Option.bind_eq_some_iff.mp same
      rw [below.items items held items' same, ← held]
    · cases updated
    · exact (Option.some.inj updated).symm
    · split at updated
      · rename_i list held
        obtain ⟨l, same, rfl⟩ := Option.map_eq_some_iff.mp updated
        rw [eq_of_updateMember (below.anyOf list held) same, ← held]
      · rename_i list _ held
        obtain ⟨l, same, rfl⟩ := Option.map_eq_some_iff.mp updated
        rw [eq_of_updateMember (below.oneOf list held) same, ← held]
      · rename_i list _ _ held
        obtain ⟨l, same, rfl⟩ := Option.map_eq_some_iff.mp updated
        rw [eq_of_updateMember (below.allOf list held) same, ← held]
      · cases updated

/-- Where the values may be given to every good node with a type, they do no harm. -/
theorem everyMet_settle {site : Keywords} {inlined : Schema}
    (goes : ∀ k t, k.type = some t → good k →
      good (placed (movedDefault site inlined.keywords) inlined.keywords.enum k))
    (every : (vacated inlined).EveryMet good) : (settle site inlined).EveryMet good := by
  refine everyMet_getD_update (f := id) goes ?_
  change ((updatePrimitive? (fun s => s) (vacated inlined)).getD (vacated inlined)).EveryMet good
  cases updated : updatePrimitive? (fun s => s) (vacated inlined) with
  | none => exact every
  | some left => rwa [eq_of_updatePrimitive? updated]

/-- A site that has been inlined, without its values and without those that they replace. -/
def remainder (site : Keywords) (inlined : Schema) : Schema :=
  (updatePrimitive? (fun s => { s with
    keywords := spared (movedDefault site inlined.keywords) inlined.keywords.enum s.keywords })
      (vacated inlined)).getD (vacated inlined)

/-- A predicate of keywords that asks for types, and for nothing more of nodes with a type. -/
structure Asks (good : Keywords → Prop) : Prop where
  typed : ∀ k, good k → IsTyped k
  settled : ∀ k, IsSettled k → good k

theorem Asks.iff_isTyped (asks : Asks good) {k : Keywords} {t : String} (type : k.type = some t) :
    good k ↔ IsTyped k :=
  ⟨asks.typed k, fun typed => asks.settled k ⟨typed, isSite_of_typed type⟩⟩

theorem everyMet_settle_iff (asks : Asks good) (site : Keywords) (inlined : Schema) :
    (settle site inlined).EveryMet good ↔ (remainder site inlined).EveryMet good := by
  have same (k : Keywords) (t : String) (type : k.type = some t) :
      good (placed (movedDefault site inlined.keywords) inlined.keywords.enum k) ↔
        good (spared (movedDefault site inlined.keywords) inlined.keywords.enum k) :=
    (asks.iff_isTyped (k := placed _ _ k) type).trans
      ((isTyped_placed_iff type _ _).trans (asks.iff_isTyped (k := spared _ _ k) type).symm)
  exact ⟨everyMet_getD_update fun k t type => (same k t type).mp,
    everyMet_getD_update fun k t type => (same k t type).mpr⟩

end

end Defaults
end SchemaGraph
