import Mathlib.Algebra.BigOperators.Group.List.Basic
import Mathlib.Data.List.DropRight
import SchemaGraph.Proofs.FoldedContent

/- What comes of the properties of an object when the bounds of the groups around it are folded in,
   one group after the other from the innermost outwards: every bound is the product of all, which is
   clamped once. -/
namespace SchemaGraph.Repetition

/-- The nearest bound that there is. -/
def clamp (n : Nat) : Nat := min n maxBound

theorem clamp_of_le {n : Nat} (h : n ≤ maxBound) : clamp n = n := Nat.min_eq_left h

theorem maxBound_pos : 0 < maxBound := by decide

theorem clamp_eq_zero_iff {n : Nat} : clamp n = 0 ↔ n = 0 := by
  have positive := maxBound_pos
  rw [clamp]
  omega

/-- Clamping a factor makes no difference to the clamped product. -/
theorem times_clamp (n m : Nat) : times (clamp n) m = clamp (n * m) := by
  rw [times, clamp, clamp]
  rcases Nat.le_total n maxBound with small | large
  · rw [Nat.min_eq_left small]
  · rw [Nat.min_eq_right large]
    rcases Nat.eq_zero_or_pos m with rfl | positive
    · rfl
    · have first := Nat.le_mul_of_pos_right maxBound positive
      have second := Nat.le_trans large (Nat.le_mul_of_pos_right n positive)
      rw [Nat.min_eq_right first, Nat.min_eq_right second]

/-- At most once. -/
def Bounds.isSingle (b : Bounds) : Bool := b.max == some 1

/-- Bounds that a group can have: both are small enough, and a maximum of zero is none. -/
structure Bounds.Proper (b : Bounds) : Prop where
  min : b.min ≤ maxBound
  max : ∀ m, b.max = some m → 0 < m ∧ m ≤ maxBound

/-- The product of the minima. -/
def lowest (bs : List Bounds) : Nat := (bs.map Bounds.min).prod

/-- The product of the maxima, without limit when one of them is. -/
def highest : List Bounds → Option Nat
  | [] => some 1
  | b :: bs => b.max.bind fun m => (highest bs).map (m * ·)

theorem lowest_cons (b : Bounds) (bs : List Bounds) : lowest (b :: bs) = b.min * lowest bs := by
  rw [lowest, List.map_cons, List.prod_cons, lowest]

theorem highest_pos {bs : List Bounds} (proper : ∀ b ∈ bs, b.Proper) {m : Nat}
    (bounded : highest bs = some m) : 0 < m := by
  induction bs generalizing m with
  | nil =>
    cases bounded
    exact Nat.one_pos
  | cons b bs ih =>
    obtain ⟨here, later⟩ := List.forall_mem_cons.mp proper
    obtain ⟨own, max, bounded⟩ := Option.bind_eq_some_iff.mp bounded
    obtain ⟨others, rest, rfl⟩ := Option.map_eq_some_iff.mp bounded
    exact Nat.mul_pos (here.max own max).1 (ih later rest)

theorem highest_of_all_single {bs : List Bounds} (once : bs.all Bounds.isSingle = true) :
    highest bs = some 1 := by
  induction bs with
  | nil => rfl
  | cons b bs ih =>
    obtain ⟨here, later⟩ := Bool.and_eq_true_iff.mp once
    rw [highest, ih later, eq_of_beq here]
    rfl

/-- The least number of items of an array property that groups repeat. -/
def multipliedMin (required : Bool) (bs : List Bounds) (own : Option Nat) : Option Nat :=
  if required && lowest bs != 0 then (nonzero own).map fun n => clamp (n * lowest bs) else none

/-- The greatest; a maximum of zero is none and stays as it is written. -/
def multipliedMax (bs : List Bounds) (own : Option Nat) : Option Nat :=
  match nonzero own with
  | some n => (highest bs).map fun m => clamp (n * m)
  | none => own

/-- The least number of items of a property that becomes an array: the groups of at most one
occurrence inside all others do not count. -/
def wrappedMin (required : Bool) (bs : List Bounds) : Option Nat :=
  if required && lowest bs != 0 then some (clamp (lowest (bs.rdropWhile Bounds.isSingle))) else none

def wrappedMax (bs : List Bounds) : Option Nat := (highest bs).map clamp

@[simp] theorem nonzero_none : nonzero none = none := rfl

@[simp] theorem nonzero_some (n : Nat) : nonzero (some n) = if n = 0 then none else some n := by
  rw [nonzero, Option.filter_some]
  by_cases zero : n = 0 <;> simp [zero]

/-- What one group makes of the least number of items. -/
def steppedMin (min : Nat) (own : Option Nat) : Option Nat :=
  nonzero ((nonzero own).map (times · min))

def steppedMax (max : Option Nat) (own : Option Nat) : Option Nat :=
  match nonzero own with
  | some n => max.map (times n)
  | none => own

theorem boundArray_eq (hint : Option Json) (b : Bounds) (k : Keywords) : boundArray hint b k =
    { k with
      minItems := steppedMin b.min k.minItems
      maxItems := steppedMax b.max k.maxItems
      group := if b.max = some 1 then k.group else joinGroups hint k.group } := by
  have min : (match nonzero k.minItems with
      | some n => if times n b.min = 0 then none else some (times n b.min)
      | none => none) = steppedMin b.min k.minItems := by
    rw [steppedMin]
    cases nonzero k.minItems with
    | none => rfl
    | some n => simp only [Option.map_some, nonzero_some]
  rw [← min]
  rfl

/-- What a group makes of a bound that stands where it is not zero. -/
theorem steppedMin_nonzero (min n : Nat) :
    steppedMin min (nonzero (some n)) = nonzero (some (times n min)) := by
  by_cases zero : n = 0
  · simp [steppedMin, times, zero]
  · simp [steppedMin, zero]

/-- What the groups have for a property: nothing when it may be absent in one of them. -/
def factor (required : Bool) (bs : List Bounds) : Nat := if required then lowest bs else 0

theorem factor_cons (required : Bool) (b : Bounds) (bs : List Bounds) :
    factor required (b :: bs) =
      factor required bs * (b.forProperty (required && lowest bs != 0)).min := by
  rw [factor, factor, Bounds.forProperty, lowest_cons, Nat.mul_comm]
  by_cases zero : lowest bs = 0 <;> cases required <;> simp [zero]

theorem multipliedMin_eq (required : Bool) (bs : List Bounds) (own : Option Nat) :
    multipliedMin required bs own =
      (nonzero own).bind fun n => nonzero (some (clamp (n * factor required bs))) := by
  rw [multipliedMin, factor]
  cases own with
  | none => cases required <;> simp
  | some n =>
    by_cases zero : n = 0 <;> by_cases none : lowest bs = 0 <;> cases required <;>
      simp [zero, none, clamp_eq_zero_iff]

theorem steppedMin_first (required : Bool) (b : Bounds) (own : Option Nat) :
    steppedMin (b.forProperty required).min own = multipliedMin required [b] own := by
  have only : factor required [b] = (b.forProperty required).min := by
    rw [factor_cons]
    cases required <;> simp [factor, lowest, Bounds.forProperty]
  rw [multipliedMin_eq, only, steppedMin]
  cases nonzero own <;> rfl

theorem steppedMin_next (required : Bool) (b : Bounds) (bs : List Bounds) (own : Option Nat) :
    steppedMin (b.forProperty (required && lowest bs != 0)).min (multipliedMin required bs own) =
      multipliedMin required (b :: bs) own := by
  rw [multipliedMin_eq, multipliedMin_eq, factor_cons]
  cases nonzero own with
  | none => rfl
  | some n => rw [Option.bind_some, Option.bind_some, steppedMin_nonzero, times_clamp, Nat.mul_assoc]

theorem steppedMax_first (b : Bounds) (own : Option Nat) :
    steppedMax b.max own = multipliedMax [b] own := by
  rw [steppedMax, multipliedMax, highest, highest]
  cases nonzero own with
  | none => rfl
  | some n => cases b.max <;> simp [times, clamp]

theorem highest_cons_map {β : Type} (b : Bounds) (bs : List Bounds) (f : Nat → β) :
    (highest (b :: bs)).map f = b.max.bind fun m => (highest bs).map fun n => f (m * n) := by
  rw [highest]
  cases b.max <;> cases highest bs <;> rfl

theorem steppedMax_next {b : Bounds} {bs : List Bounds} (proper : ∀ b ∈ bs, b.Proper)
    (own : Option Nat) :
    steppedMax b.max (multipliedMax bs own) = multipliedMax (b :: bs) own := by
  cases own with
  | none => rfl
  | some n =>
    by_cases zero : n = 0
    · subst zero
      rfl
    · have read : nonzero (some n) = some n := by simp [zero]
      rw [multipliedMax, multipliedMax, read]
      dsimp only
      rw [highest_cons_map]
      cases bounded : highest bs with
      | none => cases b.max <;> rfl
      | some m =>
        have positive : n * m ≠ 0 := Nat.mul_ne_zero zero (Nat.ne_of_gt (highest_pos proper bounded))
        have again : nonzero (some (clamp (n * m))) = some (clamp (n * m)) := by
          rw [nonzero_some, if_neg (positive ∘ clamp_eq_zero_iff.mp)]
        rw [Option.map_some, steppedMax, again]
        cases b.max with
        | none => rfl
        | some m' =>
          dsimp only
          rw [Option.map_some, times_clamp, Option.bind_some, Option.map_some, Nat.mul_assoc,
            Nat.mul_comm m]

theorem rdropWhile_cons {α : Type} (p : α → Bool) (a : α) (l : List α) :
    (a :: l).rdropWhile p = if l.all p then [a].rdropWhile p else a :: l.rdropWhile p := by
  rw [List.rdropWhile, List.reverse_cons, List.dropWhile_append]
  have inner : List.isEmpty (l.reverse.dropWhile p) = l.all p := by
    rw [Bool.eq_iff_iff, List.isEmpty_iff, List.dropWhile_eq_nil_iff, List.all_eq_true]
    simp
  rw [inner]
  split
  · rfl
  · rw [List.reverse_append]
    rfl

theorem lowest_rdropWhile {bs : List Bounds} (counts : lowest bs ≠ 0) (p : Bounds → Bool) :
    lowest (bs.rdropWhile p) ≠ 0 := by
  obtain ⟨last, split⟩ := bs.rdropWhile_prefix p
  rw [← split, lowest, List.map_append, List.prod_append] at counts
  exact Nat.ne_zero_of_mul_ne_zero_left counts

/-- What the groups have for a property that becomes an array in one of them. -/
def wrappedFactor (required : Bool) (bs : List Bounds) : Nat :=
  if required && lowest bs != 0 then lowest (bs.rdropWhile Bounds.isSingle) else 0

theorem wrappedMin_eq (required : Bool) (bs : List Bounds) :
    wrappedMin required bs = nonzero (some (clamp (wrappedFactor required bs))) := by
  rw [wrappedMin, wrappedFactor, nonzero_some]
  by_cases counts : (required && lowest bs != 0) = true
  · have positive : lowest bs ≠ 0 := by simp_all
    rw [if_pos counts, if_pos counts,
      if_neg (lowest_rdropWhile positive _ ∘ clamp_eq_zero_iff.mp)]
  · rw [if_neg counts, if_neg counts, if_pos (clamp_eq_zero_iff.mpr rfl)]

theorem wrappedFactor_first (required : Bool) {b : Bounds} {bs : List Bounds}
    (once : bs.all Bounds.isSingle = true) (repeated : b.isSingle = false) :
    wrappedFactor required (b :: bs) = (b.forProperty (required && lowest bs != 0)).min := by
  have only : lowest ([b].rdropWhile Bounds.isSingle) = b.min := by
    rw [List.rdropWhile_singleton, if_neg (by simp [repeated]), lowest_cons]
    exact Nat.mul_one _
  rw [wrappedFactor, rdropWhile_cons, if_pos once, only, lowest_cons, Bounds.forProperty]
  by_cases zero : b.min = 0 <;> simp [zero]

theorem wrappedFactor_next (required : Bool) (b : Bounds) {bs : List Bounds}
    (repeated : bs.all Bounds.isSingle = false) : wrappedFactor required (b :: bs) =
      wrappedFactor required bs * (b.forProperty (required && lowest bs != 0)).min := by
  have inside : lowest ((b :: bs).rdropWhile Bounds.isSingle) =
      lowest (bs.rdropWhile Bounds.isSingle) * b.min := by
    rw [rdropWhile_cons, repeated, if_neg (by simp), lowest_cons, Nat.mul_comm]
  rw [wrappedFactor, wrappedFactor, inside, lowest_cons, Bounds.forProperty]
  by_cases zero : lowest bs = 0 <;> by_cases none : b.min = 0 <;> cases required <;>
    simp [zero, none]

theorem wrappedMax_eq (bs : List Bounds) : wrappedMax bs = multipliedMax bs (some 1) := by
  have read : nonzero (some 1) = some 1 := by simp
  rw [wrappedMax, multipliedMax, read]
  simp only [Nat.one_mul]

theorem wrappedMax_first {b : Bounds} {bs : List Bounds} (once : bs.all Bounds.isSingle = true)
    (proper : b.Proper) : wrappedMax (b :: bs) = b.max := by
  rw [wrappedMax, highest_cons_map, highest_of_all_single once]
  cases held : b.max with
  | none => rfl
  | some m => simp [clamp_of_le (proper.max m held).2]

/-- An array with other bounds and hints. -/
def rebound (s : Schema) (minItems maxItems : Option Nat) (group : Option Json) : Schema :=
  { s with keywords := { s.keywords with minItems, maxItems, group } }

/-- An array of what was a property. -/
def arrayOf (s : Schema) (xml : Option Xml) (minItems maxItems : Option Nat) (group : Option Json) :
    Schema where
  keywords := { xml, type := some "array", group, minItems, maxItems }
  children := { items := some s }

/-- What one group of these bounds makes of a property. -/
inductive Stepped (b : Bounds) (s : Schema) : Schema → Prop where
  | array (many : s.isArray = true) (group : Option Json) : Stepped b s (rebound s
      (steppedMin b.min s.keywords.minItems) (steppedMax b.max s.keywords.maxItems) group)
  | kept (one : s.isArray = false) (single : b.isSingle = true) : Stepped b s s
  | wrapped (one : s.isArray = false) (repeated : b.isSingle = false) (xml : Option Xml)
      (group : Option Json) : Stepped b s (arrayOf s xml (nonzero (some b.min)) b.max group)

/-- What groups of these bounds, the outermost first, make of a property: an array has its bounds
multiplied, and everything else becomes an array unless every group occurs at most once. -/
inductive Multiplied (required : Bool) (bs : List Bounds) (s : Schema) : Schema → Prop where
  | array (many : s.isArray = true) (group : Option Json) : Multiplied required bs s (rebound s
      (multipliedMin required bs s.keywords.minItems) (multipliedMax bs s.keywords.maxItems) group)
  | kept (one : s.isArray = false) (single : bs.all Bounds.isSingle = true) :
      Multiplied required bs s s
  | wrapped (one : s.isArray = false) (repeated : bs.all Bounds.isSingle = false)
      (xml : Option Xml) (group : Option Json) :
      Multiplied required bs s (arrayOf s xml (wrappedMin required bs) (wrappedMax bs) group)

theorem clamp_forProperty {b : Bounds} (proper : b.Proper) (required : Bool) :
    clamp (b.forProperty required).min = (b.forProperty required).min := by
  refine clamp_of_le ?_
  rw [Bounds.forProperty]
  split
  · exact proper.min
  · exact Nat.zero_le _

/-- The innermost group that occurs more than once makes an array of the property. -/
theorem Multiplied.wrap {required : Bool} {b : Bounds} {bs : List Bounds} {s : Schema}
    (proper : b.Proper) (one : s.isArray = false) (once : bs.all Bounds.isSingle = true)
    (repeated : b.isSingle = false) (xml : Option Xml) (group : Option Json) :
    Multiplied required (b :: bs) s (arrayOf s xml
      (nonzero (some (b.forProperty (required && lowest bs != 0)).min)) b.max group) := by
  have several : (b :: bs).all Bounds.isSingle = false := by simp [repeated]
  rw [← clamp_forProperty proper, ← wrappedFactor_first required once repeated, ← wrappedMin_eq,
    ← wrappedMax_first once proper]
  exact .wrapped one several xml group

theorem Multiplied.first {required : Bool} {b : Bounds} {s left : Schema} (proper : b.Proper)
    (stepped : Stepped (b.forProperty required) s left) : Multiplied required [b] s left := by
  cases stepped with
  | array many group =>
    rw [steppedMin_first]
    exact steppedMax_first b s.keywords.maxItems ▸ .array many group
  | kept one single =>
    refine .kept one ?_
    rw [List.all_cons, List.all_nil, Bool.and_true]
    exact single
  | wrapped one repeated xml group =>
    have counts : (required && lowest [] != 0) = required := by simp [lowest]
    have wrapped : Multiplied required [b] s _ := .wrap proper one rfl repeated xml group
    rwa [counts] at wrapped

theorem Multiplied.next {required : Bool} {b : Bounds} {bs : List Bounds} {s turned left : Schema}
    (proper : ∀ b' ∈ b :: bs, b'.Proper) (multiplied : Multiplied required bs s turned)
    (stepped : Stepped (b.forProperty (required && lowest bs != 0)) turned left) :
    Multiplied required (b :: bs) s left := by
  obtain ⟨here, later⟩ := List.forall_mem_cons.mp proper
  cases multiplied with
  | array many group =>
    cases stepped with
    | array _ group' =>
      have left : Multiplied required (b :: bs) s _ := .array many group'
      rw [← steppedMin_next, ← steppedMax_next later] at left
      exact left
    | kept one => exact absurd many (by rw [show s.isArray = false from one]; simp)
    | wrapped one => exact absurd many (by rw [show s.isArray = false from one]; simp)
  | kept one once =>
    cases stepped with
    | array many => exact absurd many (by rw [one]; simp)
    | kept _ single => exact .kept one (by rw [List.all_cons, once, Bool.and_true]; exact single)
    | wrapped _ repeated xml group => exact .wrap here one once repeated xml group
  | wrapped one repeated xml group =>
    have several : (b :: bs).all Bounds.isSingle = false := by simp [repeated]
    cases stepped with
    | array _ group' =>
      have left : Multiplied required (b :: bs) s _ := .wrapped one several xml group'
      rw [wrappedMin_eq, wrappedFactor_next required b repeated, ← times_clamp, ← steppedMin_nonzero,
        ← wrappedMin_eq, wrappedMax_eq, ← steppedMax_next later, ← wrappedMax_eq] at left
      exact left
    | kept many => exact nomatch many
    | wrapped many => exact nomatch many

/-- An object that stands in its place, with properties of which the arrays stand in theirs and hold
no composition. -/
structure PlainObject (o : Schema) (t : Table Schema) : Prop where
  reference : o.keywords.reference = none
  single : o.isArray = false
  allOf : o.children.allOf = none
  oneOf : o.children.oneOf = none
  properties : o.children.properties = some t
  arrays : ∀ e ∈ t, e.2.isArray = true → e.2.keywords.reference = none ∧
    e.2.children.allOf = none ∧ e.2.children.oneOf = none

/-- What one group of these bounds makes of an object with the properties. -/
structure ObjectStepped (b : Bounds) (o : Schema) (t : Table Schema) (left : Schema)
    (t' : Table Schema) : Prop where
  keywords : left.keywords = { o.keywords with
    required := if b.min = 0 then none else o.keywords.required }
  children : left.children = { o.children with properties := some t' }
  properties : List.Forall₂ (fun e e' : String × Schema => e'.1 = e.1 ∧
    Stepped (b.forProperty ((o.keywords.required.getD []).contains e.1)) e.2 e'.2) t t'

/-- What groups of these bounds, the outermost first, make of an object with the properties. -/
structure ObjectMultiplied (bs : List Bounds) (o : Schema) (t : Table Schema) (left : Schema)
    (t' : Table Schema) : Prop where
  keywords : left.keywords = { o.keywords with
    required := if lowest bs = 0 then none else o.keywords.required }
  children : left.children = { o.children with properties := some t' }
  properties : List.Forall₂ (fun e e' : String × Schema => e'.1 = e.1 ∧
    Multiplied ((o.keywords.required.getD []).contains e.1) bs e.2 e'.2) t t'

section
variable {g : Setting} {hops : Nat} {b : Bounds}

theorem fold_array (g : Setting) (hops : Nat) (b : Bounds) {s : Schema} (many : s.isArray = true)
    (noSequence : s.children.allOf = none) (noChoice : s.children.oneOf = none) :
    ∃ group, fold g (hops + 1) s b = .ok (rebound s (steppedMin b.min s.keywords.minItems)
      (steppedMax b.max s.keywords.maxItems) group) := by
  have members : foldMembers g hops b s = .ok s := by
    rw [foldMembers, noSequence, noChoice]
    rfl
  refine ⟨if b.max = some 1 then s.keywords.group else joinGroups g.group s.keywords.group, ?_⟩
  rw [fold_succ, members]
  change foldContent g hops b s.children.properties s = _
  unfold foldContent
  rw [if_pos many, boundArray_eq]
  rfl

/-- What becomes of a property: only the content that a new array stands for has to be found. -/
theorem foldProperty_eq {required : List String} {e : String × Schema}
    (array : e.2.isArray = true → e.2.keywords.reference = none ∧
      e.2.children.allOf = none ∧ e.2.children.oneOf = none) :
    (∃ left, foldProperty g hops b required e = .ok (e.1, left) ∧
      Stepped (b.forProperty (required.contains e.1)) e.2 left) ∨
    foldProperty g hops b required e = (do
      let target ← g.graph.deref e.2 g.location
      return (e.1, arrayOf e.2 target.keywords.xml
        (nonzero (some (b.forProperty (required.contains e.1)).min)) b.max g.group)) ∧
      e.2.isArray = false ∧ b.isSingle = false := by
  cases many : e.2.isArray with
  | true =>
    obtain ⟨inline, noSequence, noChoice⟩ := array many
    obtain ⟨group, folded⟩ := fold_array g hops (b.forProperty (required.contains e.1)) many
      noSequence noChoice
    refine Or.inl ⟨_, ?_, .array many group⟩
    rw [foldProperty, if_pos many, foldChild, inline]
    dsimp only
    rw [folded]
    rfl
  | false =>
    cases single : b.isSingle with
    | true =>
      refine Or.inl ⟨e.2, ?_, .kept many single⟩
      rw [foldProperty, if_neg (by simp [many]), if_pos (eq_of_beq single)]
      rfl
    | false =>
      have repeated : ¬ b.max = some 1 := fun once => by
        rw [Bounds.isSingle, once] at single
        cases single
      refine Or.inr ⟨?_, rfl, rfl⟩
      rw [foldProperty, if_neg (by simp [many]), if_neg repeated, nonzero_some]
      cases found : g.graph.deref e.2 g.location <;> rw [wrap, found] <;> rfl

theorem stepped_of_foldProperty {required : List String} {e e' : String × Schema}
    (array : e.2.isArray = true → e.2.keywords.reference = none ∧
      e.2.children.allOf = none ∧ e.2.children.oneOf = none)
    (made : foldProperty g hops b required e = .ok e') :
    e'.1 = e.1 ∧ Stepped (b.forProperty (required.contains e.1)) e.2 e'.2 := by
  rcases foldProperty_eq array with ⟨left, made', stepped⟩ | ⟨made', one, repeated⟩
  · cases made.symm.trans made'
    exact ⟨rfl, stepped⟩
  · rw [made'] at made
    obtain ⟨target, _, made⟩ := of_bind_eq_ok made
    cases made
    have repeated : (b.forProperty (required.contains e.1)).isSingle = false := repeated
    exact ⟨rfl, .wrapped one repeated _ _⟩

theorem foldProperty_of_leads {required : List String} {e : String × Schema}
    (array : e.2.isArray = true → e.2.keywords.reference = none ∧
      e.2.children.allOf = none ∧ e.2.children.oneOf = none)
    (leads : ∀ r, e.2.keywords.reference = some r → (g.graph.target? r).isSome) :
    ∃ e', foldProperty g hops b required e = .ok e' := by
  rcases foldProperty_eq array with ⟨left, made, _⟩ | ⟨made, _, _⟩
  · exact ⟨_, made⟩
  · have found : ∃ target, g.graph.deref e.2 g.location = .ok target := by
      rw [Definitions.deref]
      cases refers : e.2.keywords.reference with
      | none => exact ⟨e.2, rfl⟩
      | some r =>
        obtain ⟨target, leads⟩ := Option.isSome_iff_exists.mp (leads r refers)
        refine ⟨target, ?_⟩
        dsimp only
        rw [Definitions.resolve, leads]
    obtain ⟨target, found⟩ := found
    exact ⟨_, by rw [made, found]; rfl⟩

variable {o : Schema} {t : Table Schema} (plain : PlainObject o t)
include plain

theorem PlainObject.fold_eq : fold g (hops + 1) o b = (do
    let t' ← t.mapM (foldProperty g hops b (o.keywords.required.getD []))
    return {
      keywords := { o.keywords with required := if b.min = 0 then none else o.keywords.required }
      children := { o.children with properties := some t' } }) := by
  have members : foldMembers g hops b o = .ok o := by
    rw [foldMembers, plain.allOf, plain.oneOf]
    rfl
  rw [fold_succ, members]
  change foldContent g hops b o.children.properties o = _
  unfold foldContent
  rw [plain.single, if_neg (by simp), plain.properties]

theorem PlainObject.exists_fold
    (leads : ∀ e ∈ t, ∀ r, e.2.keywords.reference = some r → (g.graph.target? r).isSome) :
    ∃ left, fold g (hops + 1) o b = .ok left := by
  obtain ⟨t', mapped⟩ :=
    exists_mapM_eq_ok (f := foldProperty g hops b (o.keywords.required.getD [])) fun e listed =>
      foldProperty_of_leads (plain.arrays e listed) (leads e listed)
  exact ⟨_, by rw [plain.fold_eq, mapped]; rfl⟩

theorem PlainObject.stepped {left : Schema} (folded : fold g (hops + 1) o b = .ok left) :
    ∃ t', ObjectStepped b o t left t' := by
  rw [plain.fold_eq] at folded
  obtain ⟨t', mapped, folded⟩ := of_bind_eq_ok folded
  cases folded
  refine ⟨t', rfl, rfl, ?_⟩
  exact ((List.forall₂_and_left _ _).mpr ⟨fun _ listed => listed, mapM_eq_ok_iff.mp mapped⟩).imp
    fun e e' both => stepped_of_foldProperty (plain.arrays e both.1) both.2

omit plain in
theorem Stepped.reference {s left : Schema} (stepped : Stepped b s left) :
    left.keywords.reference = s.keywords.reference ∨ left.keywords.reference = none := by
  cases stepped with
  | array => exact Or.inl rfl
  | kept => exact Or.inl rfl
  | wrapped => exact Or.inr rfl

theorem ObjectStepped.plainObject {left : Schema} {t' : Table Schema}
    (stepped : ObjectStepped b o t left t') : PlainObject left t' where
  reference := by rw [stepped.keywords]; exact plain.reference
  single := by
    rw [Schema.isArray, Schema.hasType, stepped.keywords]
    exact plain.single
  allOf := by rw [stepped.children]; exact plain.allOf
  oneOf := by rw [stepped.children]; exact plain.oneOf
  properties := by rw [stepped.children]
  arrays := by
    intro e' listed many
    obtain ⟨e, inside, _, property⟩ := exists_of_mem_right stepped.properties listed
    obtain ⟨_, left⟩ := e'
    cases property with
    | array many => exact plain.arrays e inside many
    | kept one =>
      dsimp only at many
      rw [one] at many
      cases many
    | wrapped => exact ⟨rfl, rfl, rfl⟩

end

/-- The groups of these bounds, the outermost first, are folded into the object in the graph. -/
inductive FoldedBy (graph : Definitions) : List Bounds → Schema → Schema → Prop where
  | nil (o : Schema) : FoldedBy graph [] o o
  | cons {b : Bounds} {bs : List Bounds} {o inner left : Schema} (before : FoldedBy graph bs o inner)
      {g : Setting} {hops : Nat} (same : g.graph = graph)
      (folded : fold g (hops + 1) inner b = .ok left) : FoldedBy graph (b :: bs) o left

theorem ObjectStepped.first {b : Bounds} {o left : Schema} {t t' : Table Schema} (proper : b.Proper)
    (stepped : ObjectStepped b o t left t') : ObjectMultiplied [b] o t left t' where
  keywords := by
    have only : lowest [b] = b.min := by
      rw [lowest_cons]
      exact Nat.mul_one _
    rw [only]
    exact stepped.keywords
  children := stepped.children
  properties := stepped.properties.imp fun _ _ both => ⟨both.1, .first proper both.2⟩

theorem ObjectMultiplied.next {b : Bounds} {bs : List Bounds} {o inner left : Schema}
    {t t' t'' : Table Schema} (proper : ∀ b' ∈ b :: bs, b'.Proper)
    (before : ObjectMultiplied bs o t inner t') (stepped : ObjectStepped b inner t' left t'') :
    ObjectMultiplied (b :: bs) o t left t'' where
  keywords := by
    rw [stepped.keywords, before.keywords, lowest_cons]
    by_cases zero : b.min = 0 <;> by_cases none : lowest bs = 0 <;> simp [zero, none]
  children := by rw [stepped.children, before.children]
  properties := by
    refine forall₂_trans (fun e e' e'' first next => ⟨next.1.trans first.1, ?_⟩)
      before.properties stepped.properties
    have required : (inner.keywords.required.getD []).contains e'.1 =
        ((o.keywords.required.getD []).contains e.1 && lowest bs != 0) := by
      rw [before.keywords, first.1]
      by_cases none : lowest bs = 0 <;> simp [none]
    have stepped := next.2
    rw [required] at stepped
    exact first.2.next proper stepped

/-- Groups that are folded one after the other multiply their bounds. -/
theorem FoldedBy.multiplied {graph : Definitions} {bs : List Bounds} {o left : Schema}
    {t : Table Schema} (folded : FoldedBy graph bs o left) (plain : PlainObject o t)
    (proper : ∀ b ∈ bs, b.Proper) (some : bs ≠ []) :
    ∃ t', PlainObject left t' ∧ ObjectMultiplied bs o t left t' := by
  induction folded with
  | nil => exact absurd rfl some
  | @cons b bs o inner left before g hops same folded ih =>
    obtain ⟨here, later⟩ := List.forall_mem_cons.mp proper
    cases before with
    | nil =>
      obtain ⟨t', stepped⟩ := plain.stepped folded
      exact ⟨t', stepped.plainObject plain, stepped.first here⟩
    | cons before same' folded' =>
      obtain ⟨t', plain', multiplied⟩ := ih plain later (by simp)
      obtain ⟨t'', stepped⟩ := plain'.stepped folded
      exact ⟨t'', stepped.plainObject plain', multiplied.next proper stepped⟩

/-- The object stays plain, and its references are those that it had. -/
theorem FoldedBy.plain {graph : Definitions} {bs : List Bounds} {o left : Schema} {t : Table Schema}
    (folded : FoldedBy graph bs o left) (plain : PlainObject o t) :
    ∃ t', PlainObject left t' ∧ ∀ e' ∈ t', ∀ r, e'.2.keywords.reference = some r →
      ∃ e ∈ t, e.2.keywords.reference = some r := by
  induction folded with
  | nil => exact ⟨t, plain, fun e listed r refers => ⟨e, listed, refers⟩⟩
  | cons before same folded ih =>
    obtain ⟨t', plain', references⟩ := ih plain
    obtain ⟨t'', stepped⟩ := plain'.stepped folded
    refine ⟨t'', stepped.plainObject plain', fun e'' listed r refers => ?_⟩
    obtain ⟨e', inside, _, property⟩ := exists_of_mem_right stepped.properties listed
    rcases property.reference with same | none
    · exact references e' inside r (same ▸ refers)
    · rw [none] at refers
      cases refers

/-- Where no minimum is greater than its maximum, groups of at most one occurrence do not change the
product. -/
theorem lowest_rdropWhile_of_ordered {bs : List Bounds}
    (ordered : ∀ b ∈ bs, ∀ m, b.max = some m → b.min ≤ m) (counts : lowest bs ≠ 0) :
    lowest (bs.rdropWhile Bounds.isSingle) = lowest bs := by
  induction bs using List.reverseRecOn with
  | nil => rfl
  | append_singleton bs b ih =>
    obtain ⟨outside, inside⟩ := List.forall_mem_append.mp ordered
    have product : lowest (bs ++ [b]) = lowest bs * b.min := by simp [lowest]
    rw [product] at counts ⊢
    rw [List.rdropWhile_concat]
    split
    · rename_i single
      have most := inside b List.mem_cons_self 1 (eq_of_beq single)
      have least := Nat.ne_zero_of_mul_ne_zero_right counts
      have one : b.min = 1 := by omega
      rw [one, Nat.mul_one, ih outside (Nat.ne_zero_of_mul_ne_zero_left counts)]
    · exact product

theorem wrappedMin_of_ordered (required : Bool) {bs : List Bounds}
    (ordered : ∀ b ∈ bs, ∀ m, b.max = some m → b.min ≤ m) :
    wrappedMin required bs =
      if required && lowest bs != 0 then some (clamp (lowest bs)) else none := by
  rw [wrappedMin]
  split
  · rename_i counts
    have positive : lowest bs ≠ 0 := by simp_all
    rw [lowest_rdropWhile_of_ordered ordered positive]
  · rfl

end SchemaGraph.Repetition
