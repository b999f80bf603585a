import Mathlib.Tactic.Tauto
import SchemaGraph.Hierarchy

/- The extensions of a definition as a relation, and the search that lists them: it stops with
   nothing left to look into on every graph, and lists exactly what stands in the relation. -/
namespace SchemaGraph

/-- Entries found among those of `right` are no longer counted in `left`. -/
theorem countP_add_le {α : Type} {found left right : α → Bool} {l : List α}
    (apart : ∀ a ∈ l, found a → right a ∧ ¬ left a) (less : ∀ a, left a → right a) :
    l.countP found + l.countP left ≤ l.countP right := by
  induction l with
  | nil => simp
  | cons a l ih =>
    have rest := ih fun b member => apart b (List.mem_cons_of_mem a member)
    have here := apart a List.mem_cons_self
    have weaker := less a
    simp only [List.countP_cons]
    cases f : found a <;> cases k : left a <;> cases r : right a <;> simp_all <;> omega

namespace Definitions

/-- The entry extends the base directly, or through extensions that are marked polymorphic. -/
inductive ExtensionOf (definitions : Definitions) (base : String) : String → Schema → Prop where
  | direct {name s} : (name, s) ∈ definitions → Extends s base →
      ExtensionOf definitions base name s
  | through {middle m name s} : ExtensionOf definitions base middle m →
      m.keywords.polymorphic.isSome → (name, s) ∈ definitions → Extends s middle →
      ExtensionOf definitions base name s

variable {definitions : Definitions}

theorem ExtensionOf.mem {base name : String} {s : Schema}
    (h : ExtensionOf definitions base name s) : (name, s) ∈ definitions := by
  cases h <;> assumption

theorem ExtensionOf.trans {base middle name : String} {m s : Schema}
    (outer : ExtensionOf definitions base middle m) (marked : m.keywords.polymorphic.isSome)
    (inner : ExtensionOf definitions middle name s) : ExtensionOf definitions base name s := by
  induction inner with
  | direct member extendsMiddle => exact .through outer marked member extendsMiddle
  | through _ markedNext member extendsNext ih => exact .through ih markedNext member extendsNext

theorem mem_direct_iff (definitions : Definitions) (current name : String) :
    name ∈ Table.keys (definitions.filter fun e => extendsBase e.2 current) ↔
      ∃ s, (name, s) ∈ definitions ∧ Extends s current := by
  simp [Table.mem_keys_iff, extendsBase_iff]

/-- The polymorphic extensions of `current` that were not seen before. -/
def fresh (definitions : Definitions) (current : String) (seen : List String) : Definitions :=
  (definitions.filter fun e => extendsBase e.2 current).filter fun e =>
    e.2.keywords.polymorphic.isSome && !seen.contains e.1

theorem mem_fresh_iff (definitions : Definitions) (current : String) (seen : List String)
    (name : String) : name ∈ Table.keys (fresh definitions current seen) ↔
      ∃ s, (name, s) ∈ definitions ∧ Extends s current ∧ s.keywords.polymorphic.isSome ∧
        name ∉ seen := by
  simp only [fresh, Table.mem_keys_iff, List.mem_filter, extendsBase_iff, Bool.and_eq_true,
    Bool.not_eq_true', List.contains_eq_mem, decide_eq_false_iff_not, and_assoc]

theorem extensionsFrom_cons (definitions : Definitions) (fuel : Nat) (current : String)
    (pending seen : List String) :
    definitions.extensionsFrom (fuel + 1) (current :: pending) seen =
      Table.keys (definitions.filter fun e => extendsBase e.2 current) ++
        definitions.extensionsFrom fuel
          ((Table.keys (fresh definitions current seen)).reverse ++ pending)
          (Table.keys (fresh definitions current seen) ++ seen) := rfl

theorem extensionsFrom_sound (fuel : Nat) (pending seen : List String) {name : String}
    (listed : name ∈ definitions.extensionsFrom fuel pending seen) :
    ∃ base ∈ pending, ∃ s, ExtensionOf definitions base name s := by
  induction fuel generalizing pending seen with
  | zero => simp [extensionsFrom] at listed
  | succ fuel ih =>
    cases pending with
    | nil => simp [extensionsFrom] at listed
    | cons current pending =>
      rw [extensionsFrom_cons, List.mem_append] at listed
      rcases listed with direct | later
      · obtain ⟨s, member, extendsCurrent⟩ := (mem_direct_iff _ _ _).mp direct
        exact ⟨current, by simp, s, .direct member extendsCurrent⟩
      · obtain ⟨base, waiting, s, extension⟩ := ih _ _ later
        rcases List.mem_append.mp waiting with new | old
        · obtain ⟨m, member, extendsCurrent, marked, _⟩ :=
            (mem_fresh_iff _ _ _ _).mp (List.mem_reverse.mp new)
          exact ⟨current, by simp, s, .trans (.direct member extendsCurrent) marked extension⟩
        · exact ⟨base, by simp [old], s, extension⟩

/-- How many entries could still be found. -/
def unseen (definitions : Definitions) (seen : List String) : Nat :=
  definitions.countP fun e => !seen.contains e.1

/-- What becomes pending is seen from then on, so the search cannot grow for ever. -/
theorem unseen_fresh (definitions : Definitions) (current : String) (seen : List String) :
    (Table.keys (fresh definitions current seen)).length +
        unseen definitions (Table.keys (fresh definitions current seen) ++ seen) ≤
      unseen definitions seen := by
  have counted : (Table.keys (fresh definitions current seen)).length =
      definitions.countP fun e => (e.2.keywords.polymorphic.isSome && !seen.contains e.1) &&
        extendsBase e.2 current := by
    rw [Table.keys, List.length_map, fresh, List.filter_filter, List.countP_eq_length_filter]
  rw [counted]
  apply countP_add_le
  · intro e member isFresh
    have known : e.1 ∈ Table.keys (fresh definitions current seen) := by
      refine List.mem_map_of_mem ?_
      simpa [fresh, member, and_assoc, and_comm, and_left_comm] using isFresh
    simp_all
  · simp

variable (definitions) in
/-- Whatever is pending or was looked into ends in one closed set, and all that extends it is
listed. -/
theorem extensionsFrom_closed (fuel : Nat) (pending seen done : List String)
    (enough : pending.length + unseen definitions seen ≤ fuel)
    (accounted : ∀ n ∈ seen, n ∈ done ∨ n ∈ pending)
    (expanded : ∀ n ∈ done, ∀ name s, (name, s) ∈ definitions → Extends s n →
      s.keywords.polymorphic.isSome → name ∈ seen) :
    ∃ visited : List String, (∀ n ∈ pending ++ done, n ∈ visited) ∧
      (∀ n ∈ visited, ∀ name s, (name, s) ∈ definitions → Extends s n →
        s.keywords.polymorphic.isSome → name ∈ visited) ∧
      ∀ n ∈ visited, n ∈ done ∨ ∀ name s, (name, s) ∈ definitions → Extends s n →
        name ∈ definitions.extensionsFrom fuel pending seen := by
  induction fuel generalizing pending seen done with
  | zero =>
    have nothing : pending = [] := List.eq_nil_of_length_eq_zero (by omega)
    subst nothing
    refine ⟨done, by simp, ?_, fun n looked => Or.inl looked⟩
    intro n looked name s member extendsN marked
    simpa using accounted name (expanded n looked name s member extendsN marked)
  | succ fuel ih =>
    cases pending with
    | nil =>
      refine ⟨done, by simp, ?_, fun n looked => Or.inl looked⟩
      intro n looked name s member extendsN marked
      simpa using accounted name (expanded n looked name s member extendsN marked)
    | cons current pending =>
      have shrinks := unseen_fresh definitions current seen
      obtain ⟨visited, includes, closed, listed⟩ := ih
        ((Table.keys (fresh definitions current seen)).reverse ++ pending)
        (Table.keys (fresh definitions current seen) ++ seen) (current :: done)
        (by
          simp only [List.length_append, List.length_reverse, List.length_cons] at enough ⊢
          omega)
        (by
          intro n known
          have before := accounted n
          simp only [List.mem_append, List.mem_cons, List.mem_reverse] at known before ⊢
          tauto)
        (by
          intro n looked name s member extendsN marked
          rw [List.mem_append]
          rcases List.mem_cons.mp looked with rfl | earlier
          · by_cases known : name ∈ seen
            · exact Or.inr known
            · exact Or.inl ((mem_fresh_iff _ _ _ _).mpr ⟨s, member, extendsN, marked, known⟩)
          · exact Or.inr (expanded n earlier name s member extendsN marked))
      refine ⟨visited, ?_, closed, ?_⟩
      · intro n known
        apply includes
        simp only [List.mem_append, List.mem_cons] at known ⊢
        tauto
      · intro n inside
        rw [extensionsFrom_cons]
        rcases listed n inside with looked | all
        · rcases List.mem_cons.mp looked with rfl | earlier
          · exact Or.inr fun name s member extendsN => List.mem_append.mpr
              (Or.inl ((mem_direct_iff _ _ _).mpr ⟨s, member, extendsN⟩))
          · exact Or.inl earlier
        · exact Or.inr fun name s member extendsN =>
            List.mem_append.mpr (Or.inr (all name s member extendsN))

/-- The list holds exactly the names in the relation, on cyclic graphs too. -/
theorem mem_extensions_iff (definitions : Definitions) (base name : String) :
    name ∈ definitions.extensions base ↔ ∃ s, ExtensionOf definitions base name s := by
  constructor
  · intro listed
    obtain ⟨start, waiting, s, extension⟩ := extensionsFrom_sound _ _ _ listed
    rw [List.mem_singleton.mp waiting] at extension
    exact ⟨s, extension⟩
  · rintro ⟨s, extension⟩
    have budget : unseen definitions [base] ≤ definitions.length := List.countP_le_length
    obtain ⟨visited, includes, closed, listed⟩ := extensionsFrom_closed definitions
      (definitions.length + 1) [base] [base] []
      (by simp only [List.length_singleton]; omega) (by simp) (by simp)
    -- Every polymorphic entry on the way to the name is looked into.
    have onTheWay : ∀ middle m, ExtensionOf definitions base middle m →
        m.keywords.polymorphic.isSome → middle ∈ visited := by
      intro middle m way
      induction way with
      | direct member extendsBase =>
        exact closed base (includes base (by simp)) _ _ member extendsBase
      | through before marked member extendsBefore ih =>
        exact closed _ (ih marked) _ _ member extendsBefore
    have listedFrom : ∀ n ∈ visited, ∀ name s, (name, s) ∈ definitions → Extends s n →
        name ∈ definitions.extensions base := by
      intro n inside
      rcases listed n inside with looked | all
      · simp at looked
      · exact all
    cases extension with
    | direct member extendsBase =>
      exact listedFrom base (includes base (by simp)) _ _ member extendsBase
    | through before marked member extendsBefore =>
      exact listedFrom _ (onTheWay _ _ before marked) _ _ member extendsBefore

/-- What extends a polymorphic extension extends the base too. -/
theorem extensions_subset (distinct : definitions.Distinct) {base middle : String} {m : Schema}
    (extension : middle ∈ definitions.extensions base) (found : definitions.get? middle = some m)
    (marked : m.keywords.polymorphic.isSome) {name : String}
    (listed : name ∈ definitions.extensions middle) : name ∈ definitions.extensions base := by
  obtain ⟨other, outer⟩ := (mem_extensions_iff _ _ _).mp extension
  obtain ⟨s, inner⟩ := (mem_extensions_iff _ _ _).mp listed
  have same : other = m := Option.some.inj ((Table.get?_of_mem distinct outer.mem).symm.trans found)
  subst same
  exact (mem_extensions_iff _ _ _).mpr ⟨s, outer.trans marked inner⟩

theorem mem_keys_of_mem_extensions {base name : String}
    (listed : name ∈ definitions.extensions base) : name ∈ definitions.keys := by
  obtain ⟨s, extension⟩ := (mem_extensions_iff _ _ _).mp listed
  exact (Table.mem_keys_iff _ _).mpr ⟨s, extension.mem⟩

end Definitions
end SchemaGraph
