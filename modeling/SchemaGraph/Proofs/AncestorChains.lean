import Mathlib.Data.List.Basic
import Mathlib.Data.List.Nodup
import SchemaGraph.Proofs.Hierarchy

/- The chain of ancestors as what a definition has above it. Of the chains of bases in which no name
   comes twice it is the one that goes as far as it can within the depth; so a smaller depth gives the
   first part of the chain, and no depth gives more references than there are definitions. -/
namespace SchemaGraph.Definitions

/-- No new base follows: the definition is missing or extends nothing, or its base is among the known
names. -/
inductive ChainEnds (known : List String) : Option Schema → Prop
  | missing : ChainEnds known none
  | top {s : Schema} (none : s.base? = none) : ChainEnds known (some s)
  | repeated {s : Schema} {r : Reference} (extended : s.base? = some r) (again : r.name ∈ known) :
      ChainEnds known (some s)

/-- The definition that the last reference leads to; without references, the one at the start. -/
def topmost (definitions : Definitions) : Option Schema → List Reference → Option Schema
  | current, [] => current
  | _, r :: rest => definitions.topmost (definitions.get? r.name) rest

/-- The references are the bases one above the other, with names that are new and all different, up to
the depth or as far as the chain goes. -/
structure IsAscent (definitions : Definitions) (depth : Nat) (known : List String)
    (current : Option Schema) (refs : List Reference) : Prop where
  length_le : refs.length ≤ depth
  ascends : definitions.Ascends current refs
  nodup : (refs.map Reference.name).Nodup
  fresh : ∀ r ∈ refs, r.name ∉ known
  ends : refs.length < depth →
    ChainEnds (known ++ refs.map Reference.name) (definitions.topmost current refs)

variable {definitions : Definitions} {depth : Nat} {known : List String} {current : Option Schema}
  {r : Reference} {rest refs : List Reference}

theorem chainEnds_iff : ChainEnds known current ↔
    ∀ r, current.bind Schema.base? = some r → r.name ∈ known := by
  cases current with
  | none => exact ⟨fun _ _ found => (nomatch found), fun _ => .missing⟩
  | some s =>
    rw [Option.bind_some]
    constructor
    · rintro (_ | none | ⟨extended, again⟩) r found
      · cases none.symm.trans found
      · cases extended.symm.trans found
        exact again
    · intro each
      cases extended : s.base? with
      | none => exact .top extended
      | some r => exact .repeated extended (each r extended)

/-- The order in which the names are known does not matter. -/
theorem chainEnds_congr {more : List String} (same : ∀ name, name ∈ known ↔ name ∈ more) :
    ChainEnds known current ↔ ChainEnds more current := by
  simp only [chainEnds_iff, same]

theorem isAscent_nil_iff : definitions.IsAscent depth known current [] ↔
    (0 < depth → ChainEnds known current) := by
  constructor
  · intro ascent more
    exact List.append_nil known ▸ ascent.ends more
  · intro ends
    exact ⟨Nat.zero_le _, trivial, List.nodup_nil, by simp,
      fun more => (List.append_nil known).symm ▸ ends more⟩

/-- An ascent goes on from its first base, whose name is known from then on. -/
theorem isAscent_cons_iff : definitions.IsAscent (depth + 1) known current (r :: rest) ↔
    current.bind Schema.base? = some r ∧ r.name ∉ known ∧
      definitions.IsAscent depth (r.name :: known) (definitions.get? r.name) rest := by
  have moved : ChainEnds (known ++ (r :: rest).map Reference.name)
        (definitions.topmost current (r :: rest)) ↔
      ChainEnds ((r.name :: known) ++ rest.map Reference.name)
        (definitions.topmost (definitions.get? r.name) rest) :=
    chainEnds_congr fun name => by simp [or_left_comm]
  constructor
  · rintro ⟨length_le, ⟨extended, ascends⟩, nodup, fresh, ends⟩
    obtain ⟨once, nodup⟩ := List.nodup_cons.mp nodup
    obtain ⟨here, fresh⟩ := List.forall_mem_cons.mp fresh
    refine ⟨extended, here, Nat.le_of_succ_le_succ length_le, ascends, nodup,
      fun other member => ?_, fun less => moved.mp (ends (Nat.succ_lt_succ less))⟩
    rw [List.mem_cons, not_or]
    exact ⟨fun same => once (same ▸ List.mem_map_of_mem member), fresh other member⟩
  · rintro ⟨extended, here, length_le, ascends, nodup, fresh, ends⟩
    simp only [List.mem_cons, not_or] at fresh
    refine ⟨Nat.succ_le_succ length_le, ⟨extended, ascends⟩,
      List.nodup_cons.mpr ⟨fun again => ?_, nodup⟩,
      List.forall_mem_cons.mpr ⟨here, fun other member => (fresh other member).2⟩,
      fun less => moved.mpr (ends (Nat.lt_of_succ_lt_succ less))⟩
    obtain ⟨other, member, same⟩ := List.mem_map.mp again
    exact (fresh other member).1 same

theorem ancestorsFrom_eq_iff : definitions.ancestorsFrom depth known current = refs ↔
    definitions.IsAscent depth known current refs := by
  induction depth generalizing known current refs with
  | zero =>
    cases refs with
    | nil => simp [ancestorsFrom, isAscent_nil_iff]
    | cons r rest =>
      constructor
      · intro same
        cases same
      · intro ascent
        exact absurd ascent.length_le (Nat.not_succ_le_zero _)
  | succ depth ih =>
    rw [ancestorsFrom]
    cases extended : current.bind Schema.base? with
    | none =>
      cases refs with
      | nil => simp [isAscent_nil_iff, chainEnds_iff, extended]
      | cons r rest => simp [isAscent_cons_iff, extended]
    | some base =>
      by_cases seen : base.name ∈ known
      · cases refs with
        | nil => simp [isAscent_nil_iff, chainEnds_iff, extended, seen]
        | cons r rest =>
          rw [isAscent_cons_iff, extended]
          constructor
          · simp [seen]
          · rintro ⟨same, new, _⟩
            cases same
            exact absurd seen new
      · cases refs with
        | nil => simp [isAscent_nil_iff, chainEnds_iff, extended, seen]
        | cons r rest =>
          rw [isAscent_cons_iff, ← ih]
          simp only [List.contains_eq_mem, seen, decide_false, Bool.false_eq_true, if_false,
            List.cons.injEq, extended, Option.some.injEq]
          constructor
          · rintro ⟨rfl, same⟩
            exact ⟨rfl, seen, same⟩
          · rintro ⟨rfl, _, same⟩
            exact ⟨rfl, same⟩

/-- All names but the last are those of definitions: each extends the next one. -/
theorem Ascends.take_subset_keys {name : String}
    (ascends : definitions.Ascends (definitions.get? name) refs) :
    (name :: refs.map Reference.name).take refs.length ⊆ definitions.keys := by
  induction refs generalizing name with
  | nil => exact List.nil_subset _
  | cons r rest ih =>
    obtain ⟨extended, ascends⟩ := ascends
    obtain ⟨s, stood, _⟩ := Option.bind_eq_some_iff.mp extended
    exact List.cons_subset.mpr
      ⟨(Table.exists_get?_iff _ _).mp ⟨s, stood⟩, ih ascends⟩

theorem IsAscent.length_le_definitions {name : String}
    (ascent : definitions.IsAscent depth [name] (definitions.get? name) refs) :
    refs.length ≤ definitions.length := by
  have once : (name :: refs.map Reference.name).Nodup := by
    refine List.nodup_cons.mpr ⟨fun again => ?_, ascent.nodup⟩
    obtain ⟨r, member, same⟩ := List.mem_map.mp again
    exact ascent.fresh r member (same ▸ List.mem_singleton_self name)
  have bound := (once.sublist (List.take_sublist refs.length _)).length_le_of_subset
    ascent.ascends.take_subset_keys
  simpa [Table.keys] using bound

theorem ancestorsFrom_isPrefix_add (definitions : Definitions) (depth more : Nat)
    (known : List String) (current : Option Schema) :
    definitions.ancestorsFrom depth known current <+:
      definitions.ancestorsFrom (depth + more) known current := by
  induction depth generalizing known current with
  | zero => exact List.nil_prefix
  | succ depth ih =>
    rw [Nat.succ_add, ancestorsFrom, ancestorsFrom]
    split
    · exact List.prefix_refl _
    · split
      · exact List.prefix_refl _
      · exact (List.prefix_cons_inj _).mpr (ih _ _)

/-- On every graph and for every depth, the ancestors are the one ascent from the definition that goes
as far as there are new bases; there are not more of them than definitions, and a smaller depth cuts
the same chain off earlier. -/
theorem ancestors_exact (definitions : Definitions) (name : String) :
    (∀ maxDepth refs, definitions.ancestors name maxDepth = refs ↔
      definitions.IsAscent maxDepth [name] (definitions.get? name) refs) ∧
    (∀ maxDepth, (definitions.ancestors name maxDepth).length ≤ definitions.length) ∧
    ∀ less more, definitions.ancestors name less <+: definitions.ancestors name (less + more) :=
  ⟨fun _ _ => ancestorsFrom_eq_iff,
    fun _ => (ancestorsFrom_eq_iff.mp rfl).length_le_definitions,
    fun less more => ancestorsFrom_isPrefix_add definitions less more [name] _⟩

/-- A circle is cut before it comes back to its start, and sooner by a smaller depth. -/
example :
    let extending (base : String) : Schema :=
      { children := { allOf := some [.ofReference (.toDefinition base .definitions)] } }
    let round : Definitions := [("A", extending "B"), ("B", extending "C"), ("C", extending "A")]
    (round.ancestors "A" 64).map Reference.name = ["B", "C"] ∧
      (round.ancestors "A" 1).map Reference.name = ["B"] := by decide

end SchemaGraph.Definitions
