import Mathlib.Data.List.Basic
import SchemaGraph.Proofs.Nodes
import SchemaGraph.Walk

/- Places in a schema, as steps from the root. A walk that changes keywords by their place changes
   nothing else, and reaches every place that has only steps which a walk takes. -/
namespace SchemaGraph

/-- A step from a node to one of its children. -/
inductive Step where
  | property (key : String)
  | items
  | not
  | additional
  | allOf (i : Nat)
  | oneOf (i : Nat)
  | anyOf (i : Nat)
  deriving DecidableEq, Repr

namespace Step

def segments : Step → List String
  | property key => ["properties", key]
  | items => ["items"]
  | not => ["not"]
  | additional => ["additionalProperties"]
  | allOf i => ["allOf", toString i]
  | oneOf i => ["oneOf", toString i]
  | anyOf i => ["anyOf", toString i]

def isEntered : Step → Bool
  | not => false
  | additional => false
  | _ => true

theorem index_injective {i j : Nat} (same : toString i = toString j) : i = j := by
  have digits := congrArg String.toList same
  simp only [Nat.toString_eq_repr, Nat.toList_repr] at digits
  rw [← Nat.ofDigitChars_ten_toDigits (n := i), digits, Nat.ofDigitChars_ten_toDigits]

/-- The segments of a step tell where it ends. -/
theorem segments_append_inj {a b : Step} {rest more : List String}
    (same : a.segments ++ rest = b.segments ++ more) : a = b ∧ rest = more := by
  cases a <;> cases b <;>
    simp only [segments, List.cons_append, List.nil_append, List.cons.injEq] at same
  case allOf.allOf | oneOf.oneOf | anyOf.anyOf =>
    exact ⟨congrArg _ (index_injective same.2.1), same.2.2⟩
  all_goals simp_all

/-- The index of a member is no word. -/
theorem index_ne {word : String} {letter : Char} (inWord : letter ∈ word.toList)
    (noDigit : letter.isDigit = false) (i : Nat) : i.repr ≠ word := by
  rintro rfl
  rw [Nat.toList_repr] at inWord
  have digit := Nat.isDigit_of_mem_toDigits (by omega) (by omega) inWord
  exact absurd digit (Bool.eq_false_iff.mp noDigit)

theorem index_ne_items (i : Nat) : i.repr ≠ "items" :=
  index_ne (show 'i' ∈ "items".toList by decide) (by decide) i

end Step

/-- The steps from a root to a node. -/
abbrev Place := List Step

namespace Place

/-- The segments back from the node to the root. -/
def trail (place : Place) : List String := (place.flatMap Step.segments).reverse

def isEntered (place : Place) : Bool := place.all Step.isEntered

theorem trail_cons (step : Step) (place : Place) :
    trail (step :: place) = trail place ++ step.segments.reverse := by
  simp [trail]

theorem trail_concat (place : Place) (step : Step) :
    trail (place ++ [step]) = step.segments.reverse ++ trail place := by
  simp [trail]

theorem trail_injective : Function.Injective trail := by
  intro a b same
  replace same := List.reverse_injective same
  induction a generalizing b with
  | nil =>
    cases b with
    | nil => rfl
    | cons step rest => cases step <;> simp [Step.segments] at same
  | cons step rest ih =>
    cases b with
    | nil => cases step <;> simp [Step.segments] at same
    | cons other more =>
      obtain ⟨rfl, later⟩ := Step.segments_append_inj same
      rw [ih later]

end Place

namespace Children
variable {α β : Type}

def child? (c : Children α) : Step → Option α
  | .property key => c.properties.bind (Table.get? · key)
  | .items => c.items
  | .not => c.not
  | .additional => c.additional.bind (·.schema?)
  | .allOf i => c.allOf.bind (·[i]?)
  | .oneOf i => c.oneOf.bind (·[i]?)
  | .anyOf i => c.anyOf.bind (·[i]?)

theorem mem_toList_of_child? {c : Children α} {step : Step} {a : α}
    (found : c.child? step = some a) : a ∈ c.toList := by
  have inMembers {list : Option (List α)} {i : Nat} (found : list.bind (·[i]?) = some a) :
      a ∈ list.getD [] := by
    obtain ⟨l, rfl, found⟩ := Option.bind_eq_some_iff.mp found
    exact List.mem_of_getElem? found
  simp only [toList, List.mem_append, Option.mem_toList]
  cases step with
  | property key =>
    obtain ⟨t, properties, found⟩ := Option.bind_eq_some_iff.mp found
    have listed : a ∈ (c.properties.map Table.values).getD [] := by
      rw [properties]
      exact List.mem_map.mpr ⟨_, Table.mem_of_get? found, rfl⟩
    tauto
  | allOf i | oneOf i | anyOf i =>
    have listed := inMembers found
    tauto
  | items | not | additional =>
    rw [child?] at found
    tauto

end Children

namespace Schema

/-- What the node at a place says itself. -/
def at? : Place → Schema → Option Keywords
  | [], s => some s.keywords
  | step :: rest, s => (s.children.child? step).bind (at? rest)

theorem mem_nodes_of_at? {place : Place} {s : Schema} {k : Keywords}
    (found : s.at? place = some k) : k ∈ s.nodes := by
  induction place generalizing s with
  | nil =>
    obtain ⟨own, c⟩ := s
    exact mem_nodes_mk.mpr (Or.inl (Option.some.inj found).symm)
  | cons step rest ih =>
    obtain ⟨own, c⟩ := s
    obtain ⟨child, here, found⟩ := Option.bind_eq_some_iff.mp found
    exact mem_nodes_mk.mpr (Or.inr ⟨child, Children.mem_toList_of_child? here, ih found⟩)

end Schema

/-- Changes keywords by the definition and the trail of their node. -/
def Visitor.rekey (f : String → List String → Keywords → Keywords) : Visitor Id where
  before _ s := pure s
  after p s := pure { s with keywords := f p.definition p.trail s.keywords }

section
variable {α β : Type} (visit : List String → α → Id β)

theorem get?_walkProperties (table : Table α) (key : String) :
    Table.get? (walkProperties visit table).run key =
      (table.get? key).map fun a => (visit ["properties", key] a).run := by
  induction table with
  | nil => rfl
  | cons entry rest ih =>
    obtain ⟨k, a⟩ := entry
    rw [Table.get?]
    split
    · rename_i same
      subst same
      exact if_pos rfl
    · rename_i differs
      exact (if_neg differs).trans ih

theorem getElem?_walkMembers (keyword : String) (start : Nat) (l : List α) (i : Nat) :
    (walkMembers visit keyword start l).run[i]? =
      l[i]?.map fun a => (visit [keyword, toString (start + i)] a).run := by
  induction l generalizing start i with
  | nil => rfl
  | cons a rest ih =>
    cases i with
    | zero => rfl
    | succ i =>
      have later := ih (start + 1) i
      rw [Nat.add_right_comm] at later
      exact later

theorem walkOption_run (o : Option α) (f : α → Id β) :
    (walkOption f o).run = o.map fun a => (f a).run := by
  cases o <;> rfl

end

theorem Children.child?_map {α β : Type} (f : α → β) (c : Children α) (step : Step) :
    (c.map f).child? step = (c.child? step).map f := by
  have members (list : Option (List α)) (i : Nat) :
      (list.map (List.map f)).bind (·[i]?) = (list.bind (·[i]?)).map f := by
    cases list <;> simp
  cases step with
  | property key =>
    show (c.properties.map (Table.mapValues f)).bind (Table.get? · key) =
      (c.properties.bind (Table.get? · key)).map f
    cases c.properties with
    | none => rfl
    | some t => exact Table.get?_mapValues f t key
  | items | not => rfl
  | additional => exact Additional.schema?_map f c.additional
  | allOf i => exact members c.allOf i
  | oneOf i => exact members c.oneOf i
  | anyOf i => exact members c.anyOf i

theorem Children.child?_walk {α : Type} (visit : List String → α → Id α) (c : Children α)
    (step : Step) : Children.child? (c.walk visit).run step = (c.child? step).map fun a =>
      if step.isEntered then (visit step.segments a).run else a := by
  have members (keyword : String) (i : Nat) (list : Option (List α)) :
      (walkOption (walkMembers visit keyword 0) list).run.bind (·[i]?) =
        (list.bind (·[i]?)).map fun a => (visit [keyword, toString i] a).run := by
    cases list with
    | none => rfl
    | some l =>
      have found := getElem?_walkMembers visit keyword 0 l i
      rw [Nat.zero_add] at found
      exact found
  have skipped (o : Option α) : o = o.map fun a => if false then (visit [] a).run else a := by
    cases o <;> rfl
  cases step with
  | property key =>
    have found := walkOption_run c.properties (walkProperties visit)
    show (walkOption (walkProperties visit) c.properties).run.bind (Table.get? · key) =
      (c.properties.bind (Table.get? · key)).map fun a => (visit ["properties", key] a).run
    rw [found]
    cases c.properties with
    | none => rfl
    | some t => exact get?_walkProperties visit t key
  | items => exact walkOption_run c.items (visit ["items"])
  | not => exact skipped c.not
  | additional => exact skipped (c.additional.bind (·.schema?))
  | allOf i => exact members "allOf" i c.allOf
  | oneOf i => exact members "oneOf" i c.oneOf
  | anyOf i => exact members "anyOf" i c.anyOf

theorem Schema.at?_walk (f : String → List String → Keywords → Keywords) {levels : Nat}
    (p : Position) (place : Place) {s : Schema} (enough : s.levels ≤ levels) :
    Schema.at? place (s.walk (.rekey f) levels p).run = (s.at? place).map fun k =>
      if place.isEntered then f p.definition (place.trail ++ p.trail) k else k := by
  induction place generalizing levels p s with
  | nil =>
    cases levels with
    | zero => exact absurd s.levels_pos (by omega)
    | succ levels => rfl
  | cons step rest ih =>
    cases levels with
    | zero => exact absurd s.levels_pos (by omega)
    | succ levels =>
      obtain ⟨k, c⟩ := s
      have unfolded : Schema.at? (step :: rest) (Schema.walk (.rekey f) (levels + 1) p ⟨k, c⟩).run =
          (Children.child? (c.walk fun segments child =>
            Schema.walk (.rekey f) levels (p.child k.xml segments) child).run step).bind
              (at? rest) := rfl
      rw [unfolded, Children.child?_walk]
      cases found : c.child? step with
      | none => simp [at?, found]
      | some child =>
        have lower := levels_lt_of_mem (k := k) (Children.mem_toList_of_child? found)
        have here : at? (step :: rest) ⟨k, c⟩ = at? rest child := by simp [at?, found]
        rw [here, Place.trail_cons, List.append_assoc]
        cases entered : step.isEntered with
        | true =>
          have walked := @ih levels (p.child k.xml step.segments) child (by omega)
          simp only [Place.isEntered, List.all_cons, entered, Bool.true_and, Option.map_some, if_true,
            Option.bind_some]
          exact walked
        | false => simp [Place.isEntered, entered]

namespace Definitions

/-- What the node at a place of a definition says itself. -/
def at? (definitions : Definitions) (name : String) (place : Place) : Option Keywords :=
  (definitions.get? name).bind (Schema.at? place)

theorem get?_change (flavor : Flavor) (v : Visitor Id) (definitions : Definitions) (name : String) :
    (definitions.change flavor v).get? name = (definitions.get? name).map fun root =>
      (root.walk v root.levels { flavor, definition := name }).run := by
  induction definitions with
  | nil => rfl
  | cons entry rest ih =>
    rw [change] at ih
    rw [change, List.map_cons, Table.get?, Table.get?]
    split
    · rename_i same
      rw [← same]
      rfl
    · exact ih

theorem at?_change (flavor : Flavor) (f : String → List String → Keywords → Keywords)
    (definitions : Definitions) (name : String) (place : Place) :
    (definitions.change flavor (.rekey f)).at? name place = (definitions.at? name place).map fun k =>
      if place.isEntered then f name place.trail k else k := by
  rw [at?, at?, get?_change]
  cases definitions.get? name with
  | none => rfl
  | some root =>
    have walked := Schema.at?_walk f { flavor, definition := name } place (Nat.le_refl root.levels)
    rw [List.append_nil] at walked
    exact walked

end Definitions
end SchemaGraph
