import Mathlib.Data.List.Forall2
import Mathlib.Data.Option.Basic
import SchemaGraph.Proofs.Likeness
import SchemaGraph.Proofs.Places

/- Walks that keep what comes of a node in step with the node itself. A relation between the two that
   the hook establishes over related children holds of the whole schema. -/
namespace SchemaGraph

/-- Place by place, what came of the children that a walk enters; the others are the same. -/
structure Children.Related {α : Type} (rel : α → α → Prop) (c walked : Children α) : Prop where
  not : walked.not = c.not
  items : Option.Rel rel c.items walked.items
  properties : Option.Rel (List.Forall₂ fun e e' : String × α => e'.1 = e.1 ∧ rel e.2 e'.2)
    c.properties walked.properties
  allOf : Option.Rel (List.Forall₂ rel) c.allOf walked.allOf
  oneOf : Option.Rel (List.Forall₂ rel) c.oneOf walked.oneOf
  anyOf : Option.Rel (List.Forall₂ rel) c.anyOf walked.anyOf
  additional : walked.additional = c.additional

section
variable {α : Type} {rel : α → α → Prop}

theorem eq_of_forall₂ {l l' : List α} (pairs : List.Forall₂ rel l l')
    (each : ∀ a ∈ l, ∀ b, rel a b → b = a) : l' = l := by
  induction pairs with
  | nil => rfl
  | cons first _ ih =>
    obtain ⟨here, later⟩ := List.forall_mem_cons.mp each
    rw [here _ first, ih later]

theorem eq_of_optionRel {o o' : Option α} (pair : Option.Rel rel o o')
    (each : ∀ a, o = some a → ∀ b, rel a b → b = a) : o' = o := by
  cases pair with
  | none => rfl
  | some related => rw [each _ rfl _ related]

theorem optionRel_imp {α : Type} {rel other : α → α → Prop} {o o' : Option α}
    (pair : Option.Rel rel o o') (weaker : ∀ a, o = some a → ∀ b, rel a b → other a b) :
    Option.Rel other o o' := by
  cases pair with
  | none => exact .none
  | some related => exact .some (weaker _ rfl _ related)

theorem isSome_of_optionRel {α : Type} {rel : α → α → Prop} {o o' : Option α}
    (pair : Option.Rel rel o o') : o'.isSome = o.isSome := by
  cases pair <;> rfl

theorem exists_of_optionRel_some {α : Type} {rel : α → α → Prop} {o o' : Option α} {b : α}
    (pair : Option.Rel rel o o') (held : o' = some b) : ∃ a, o = some a ∧ rel a b := by
  cases pair with
  | none => cases held
  | some related =>
    cases held
    exact ⟨_, rfl, related⟩

theorem eq_none_of_optionRel {α : Type} {rel : α → α → Prop} {o o' : Option α}
    (pair : Option.Rel rel o o') (none : o' = none) : o = .none := by
  cases pair with
  | none => rfl
  | some => cases none

theorem forall₂_toList_of_optionRel {α : Type} {rel : α → α → Prop} {o o' : Option α}
    (pair : Option.Rel rel o o') : List.Forall₂ rel o.toList o'.toList := by
  cases pair with
  | none => exact .nil
  | some related => exact .cons related .nil

theorem forall₂_getD_of_optionRel {α : Type} {rel : α → α → Prop} {o o' : Option (List α)}
    {l l' : List α} (pair : Option.Rel (List.Forall₂ rel) o o') (others : List.Forall₂ rel l l') :
    List.Forall₂ rel (o.getD l) (o'.getD l') := by
  cases pair with
  | none => exact others
  | some pairs => exact pairs

/-- Where what came of each child is the child, nothing is changed. -/
theorem Children.Related.eq {c walked : Children α} (related : c.Related rel walked)
    (each : c.entered.Each fun a => ∀ b, rel a b → b = a) : walked = c := by
  have items := eq_of_optionRel related.items each.items
  have properties := eq_of_optionRel related.properties fun t held t' pairs =>
    eq_of_forall₂ pairs fun e listed e' same =>
      Prod.ext same.1 (each.properties t held e listed e'.2 same.2)
  have allOf := eq_of_optionRel related.allOf fun l held l' pairs =>
    eq_of_forall₂ pairs (each.allOf l held)
  have oneOf := eq_of_optionRel related.oneOf fun l held l' pairs =>
    eq_of_forall₂ pairs (each.oneOf l held)
  have anyOf := eq_of_optionRel related.anyOf fun l held l' pairs =>
    eq_of_forall₂ pairs (each.anyOf l held)
  have not := related.not
  have additional := related.additional
  obtain ⟨⟩ := c
  obtain ⟨⟩ := walked
  simp_all only

/-- A weaker relation, which may use that the children are what they are. -/
theorem Children.Related.imp {other : α → α → Prop} {c walked : Children α}
    (related : c.Related rel walked) (weaker : c.entered.Each fun a => ∀ b, rel a b → other a b) :
    c.Related other walked where
  not := related.not
  items := optionRel_imp related.items weaker.items
  properties := optionRel_imp related.properties fun t held _ pairs =>
    ((List.forall₂_and_left _ _).mpr ⟨fun _ member => member, pairs⟩).imp
      fun e e' both => ⟨both.2.1, weaker.properties t held e both.1 e'.2 both.2.2⟩
  allOf := optionRel_imp related.allOf fun l held _ pairs =>
    ((List.forall₂_and_left _ _).mpr ⟨fun _ member => member, pairs⟩).imp
      fun a b both => weaker.allOf l held a both.1 b both.2
  oneOf := optionRel_imp related.oneOf fun l held _ pairs =>
    ((List.forall₂_and_left _ _).mpr ⟨fun _ member => member, pairs⟩).imp
      fun a b both => weaker.oneOf l held a both.1 b both.2
  anyOf := optionRel_imp related.anyOf fun l held _ pairs =>
    ((List.forall₂_and_left _ _).mpr ⟨fun _ member => member, pairs⟩).imp
      fun a b both => weaker.anyOf l held a both.1 b both.2
  additional := related.additional

end

/-- Which kinds of children there are among those that a walk enters. -/
def Children.kinds {α : Type} (c : Children α) : List Bool :=
  [c.items.isSome, c.properties.isSome, c.allOf.isSome, c.oneOf.isSome, c.anyOf.isSome]

section
variable {α : Type} {rel : α → α → Prop} {c walked : Children α} (related : c.Related rel walked)
include related

theorem Children.Related.kinds : walked.kinds = c.kinds := by
  rw [Children.kinds, Children.kinds, isSome_of_optionRel related.items,
    isSome_of_optionRel related.properties, isSome_of_optionRel related.allOf,
    isSome_of_optionRel related.oneOf, isSome_of_optionRel related.anyOf]

theorem Children.Related.skipped : walked.skipped = c.skipped := by
  rw [Children.skipped, Children.skipped, related.not, related.additional]

theorem Children.Related.values : List.Forall₂ rel ((c.properties.map Table.values).getD [])
    ((walked.properties.map Table.values).getD []) := by
  have entries := related.properties
  generalize c.properties = o at entries
  generalize walked.properties = o' at entries
  cases entries with
  | none => exact .nil
  | some pairs =>
    rw [Option.map_some, Option.map_some, Option.getD_some, Option.getD_some, Table.values,
      Table.values, List.forall₂_map_left_iff, List.forall₂_map_right_iff]
    exact pairs.imp fun _ _ both => both.2

theorem Children.Related.toList_entered :
    List.Forall₂ rel c.entered.toList walked.entered.toList :=
  List.rel_append (List.rel_append (List.rel_append (List.rel_append (List.rel_append
    (forall₂_toList_of_optionRel related.items) .nil) related.values)
    (forall₂_getD_of_optionRel related.allOf .nil))
    (forall₂_getD_of_optionRel related.oneOf .nil)) (forall₂_getD_of_optionRel related.anyOf .nil)

theorem Children.Related.each {p : α → Prop} (arrives : ∀ a b, rel a b → p b) :
    walked.entered.Each p := by
  have pairs := related.toList_entered
  rw [Children.each_iff]
  generalize c.entered.toList = l at pairs
  generalize walked.entered.toList = l' at pairs ⊢
  induction pairs with
  | nil => simp
  | cons first _ ih => exact List.forall_mem_cons.mpr ⟨arrives _ _ first, ih⟩

end

section
variable {α β : Type} {rel : α → β → Prop}

theorem optionRel_getElem? {l : List α} {l' : List β} (pairs : List.Forall₂ rel l l') (i : Nat) :
    Option.Rel rel l[i]? l'[i]? := by
  induction pairs generalizing i with
  | nil => exact .none
  | cons first _ ih =>
    cases i with
    | zero => exact .some first
    | succ i => exact ih i

theorem optionRel_get? {t : Table α} {t' : Table β}
    (pairs : List.Forall₂ (fun e e' : String × _ => e'.1 = e.1 ∧ rel e.2 e'.2) t t')
    (key : String) : Option.Rel rel (t.get? key) (t'.get? key) := by
  induction pairs with
  | nil => exact .none
  | @cons e e' _ _ first _ ih =>
    obtain ⟨name, a⟩ := e
    obtain ⟨_, b⟩ := e'
    obtain ⟨rfl, first⟩ := first
    rw [Table.get?, Table.get?]
    split
    · exact .some first
    · exact ih

theorem optionRel_bind {γ δ : Type} {within : γ → δ → Prop} {o : Option γ} {o' : Option δ}
    {f : γ → Option α} {g : δ → Option β} (pair : Option.Rel within o o')
    (each : ∀ c d, within c d → Option.Rel rel (f c) (g d)) :
    Option.Rel rel (o.bind f) (o'.bind g) := by
  cases pair with
  | none => exact .none
  | some related => exact each _ _ related

end

namespace Children.Related
variable {α : Type} {rel : α → α → Prop} {walked : Children α}

theorem child? {c : Children α} (related : c.Related rel walked) {step : Step}
    (entered : step.isEntered = true) : Option.Rel rel (c.child? step) (walked.child? step) := by
  cases step with
  | property key => exact optionRel_bind related.properties fun _ _ pairs => optionRel_get? pairs key
  | items => exact related.items
  | not | additional => cases entered
  | allOf i => exact optionRel_bind related.allOf fun _ _ pairs => optionRel_getElem? pairs i
  | oneOf i => exact optionRel_bind related.oneOf fun _ _ pairs => optionRel_getElem? pairs i
  | anyOf i => exact optionRel_bind related.anyOf fun _ _ pairs => optionRel_getElem? pairs i

theorem of_items {a : α} (related : ({ items := some a } : Children α).Related rel walked) :
    ∃ b, rel a b ∧ walked = { items := some b } := by
  obtain ⟨not, items, properties, allOf, oneOf, anyOf, additional⟩ := walked
  obtain ⟨rfl, items, properties, allOf, oneOf, anyOf, rfl⟩ := related
  cases items with
  | some first =>
    cases properties
    cases allOf
    cases oneOf
    cases anyOf
    exact ⟨_, first, rfl⟩

theorem of_member {a : α} (related : ({ allOf := some [a] } : Children α).Related rel walked) :
    ∃ b, rel a b ∧ walked = { allOf := some [b] } := by
  obtain ⟨not, items, properties, allOf, oneOf, anyOf, additional⟩ := walked
  obtain ⟨rfl, items, properties, allOf, oneOf, anyOf, rfl⟩ := related
  cases allOf with
  | some pairs =>
    cases pairs with
    | cons first later =>
      cases later
      cases items
      cases properties
      cases oneOf
      cases anyOf
      exact ⟨_, first, rfl⟩

end Children.Related

namespace Likeness
variable {m n : Type → Type} [Monad m] [Monad n] (like : Likeness m n) {α β : Type}

theorem relatedOption {rel : α → β → Prop} {visit : α → m β} {other : α → n β} {o : Option α}
    (each : ∀ a, o = some a → like.Alike (rel a) (visit a) (other a)) :
    like.Alike (Option.Rel rel o) (SchemaGraph.walkOption visit o)
      (SchemaGraph.walkOption other o) := by
  cases o with
  | none => exact like.pure .none
  | some a => exact like.bind (each a rfl) fun b related => like.pure (.some related)

section
variable {rel : α → β → Prop} {visit : List String → α → m β} {other : List String → α → n β}

theorem relatedMembers (keyword : String) (i : Nat) {l : List α}
    (each : ∀ a ∈ l, ∀ segments, like.Alike (rel a) (visit segments a) (other segments a)) :
    like.Alike (List.Forall₂ rel l) (SchemaGraph.walkMembers visit keyword i l)
      (SchemaGraph.walkMembers other keyword i l) := by
  induction l generalizing i with
  | nil => exact like.pure .nil
  | cons a rest ih =>
    obtain ⟨here, later⟩ := List.forall_mem_cons.mp each
    refine like.bind (here _) fun b first => ?_
    refine like.bind (ih (i + 1) later) fun bs others => ?_
    exact like.pure (.cons first others)

theorem relatedProperties {t : Table α}
    (each : ∀ e ∈ t, ∀ segments, like.Alike (rel e.2) (visit segments e.2) (other segments e.2)) :
    like.Alike (List.Forall₂ (fun e e' : String × _ => e'.1 = e.1 ∧ rel e.2 e'.2) t)
      (SchemaGraph.walkProperties visit t) (SchemaGraph.walkProperties other t) := by
  induction t with
  | nil => exact like.pure .nil
  | cons entry rest ih =>
    obtain ⟨here, later⟩ := List.forall_mem_cons.mp each
    refine like.bind (here _) fun b first => ?_
    refine like.bind (ih later) fun bs others => ?_
    exact like.pure (.cons ⟨rfl, first⟩ others)

end

theorem relatedChildren {p : α → Prop} {rel : α → α → Prop} {visit : List String → α → m α}
    {other : List String → α → n α} {c : Children α} (within : c.entered.Each p)
    (each : ∀ a, p a → ∀ segments, like.Alike (rel a) (visit segments a) (other segments a)) :
    like.Alike (c.Related rel) (c.walk visit) (c.walk other) := by
  refine like.bind (like.relatedOption fun t h => like.relatedProperties fun e member =>
    each e.2 (within.properties t h e member)) fun properties inProperties => ?_
  refine like.bind (like.relatedOption fun a h => each a (within.items a h) _) fun items inItems => ?_
  refine like.bind (like.relatedOption fun l h => like.relatedMembers _ _ fun a member =>
    each a (within.allOf l h a member)) fun allOf inAllOf => ?_
  refine like.bind (like.relatedOption fun l h => like.relatedMembers _ _ fun a member =>
    each a (within.oneOf l h a member)) fun oneOf inOneOf => ?_
  refine like.bind (like.relatedOption fun l h => like.relatedMembers _ _ fun a member =>
    each a (within.anyOf l h a member)) fun anyOf inAnyOf => ?_
  exact like.pure ⟨rfl, inItems, inProperties, inAllOf, inOneOf, inAnyOf, rfl⟩

/-- Walks are alike when the hooks that come after the children are. -/
theorem walk {p : Schema → Prop} (hereditary : Hereditary p) {hook : Position → Schema → m Schema}
    {other : Position → Schema → n Schema}
    (alike : ∀ position s, p s → like.Alike p (hook position s) (other position s)) (levels : Nat)
    (position : Position) {s : Schema} (within : p s) :
    like.Alike p (s.walk (.ofAfter hook) levels position)
      (s.walk (.ofAfter other) levels position) := by
  induction levels generalizing position s with
  | zero => exact like.pure within
  | succ levels ih =>
    -- The hook before the children does nothing, so both sides walk those of the node itself.
    refine like.bind (p := (· = s)) (like.pure rfl) ?_
    rintro ⟨k, c⟩ rfl
    refine like.bind (p := c.Related fun _ => p) (like.relatedChildren (hereditary.below k c within)
      fun child inside segments => ih (position.child k.xml segments) inside) fun walked related => ?_
    exact alike position _ (hereditary.walked k c walked within (related.each fun _ _ => id)
      related.skipped)

/-- Walks with enough levels for all nodes whose hooks come after the children. `within` holds of the
nodes as they came in, `rel` of each of them and of what becomes of it. -/
theorem walkRelated {within : Schema → Prop} {rel : Schema → Schema → Prop}
    {hook : Position → Schema → m Schema} {other : Position → Schema → n Schema}
    (enter : ∀ k c, within ⟨k, c⟩ → c.entered.Each within)
    (leave : ∀ position k c walked, within ⟨k, c⟩ → c.Related rel walked →
      like.Alike (rel ⟨k, c⟩) (hook position ⟨k, walked⟩) (other position ⟨k, walked⟩))
    {levels : Nat} (position : Position) {s : Schema} (enough : s.levels ≤ levels) (h : within s) :
    like.Alike (rel s) (s.walk (.ofAfter hook) levels position)
      (s.walk (.ofAfter other) levels position) := by
  induction levels generalizing position s with
  | zero => exact absurd s.levels_pos (by omega)
  | succ levels ih =>
    -- The hook before the children does nothing, so both sides walk those of the node itself.
    refine like.bind (p := (· = s)) (like.pure rfl) ?_
    rintro ⟨k, c⟩ rfl
    have smaller : c.entered.Each fun child => within child ∧ child.levels ≤ levels := by
      refine (Children.each_iff _ _).mpr fun child member => ?_
      have lower := Schema.levels_lt_of_mem (k := k)
        ((c.mem_toList_iff child).mpr (Or.inl member))
      exact ⟨(Children.each_iff _ _).mp (enter k c h) child member, by omega⟩
    exact like.bind (like.relatedChildren smaller fun child inside segments =>
      ih (position.child k.xml segments) inside.2 inside.1) fun walked related =>
        leave position k c walked h related

end Likeness
end SchemaGraph
