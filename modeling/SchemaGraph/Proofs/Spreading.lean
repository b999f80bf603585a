import Mathlib.Data.List.Perm.Subperm
import Mathlib.Logic.Function.Iterate
import Mathlib.Logic.Relation
import SchemaGraph.Pass.NilSplit
import SchemaGraph.Proofs.Hierarchy

/- Spreading over the hierarchy. Rounds of insertion stop at the least set of names that holds the
   given ones and, with every name, the definitions that extend it directly and its ancestors. -/
namespace SchemaGraph.NilSplit

theorem mem_insertNew_iff (names : List String) (name other : String) :
    other ∈ insertNew names name ↔ other ∈ names ∨ other = name := by
  rw [insertNew]
  split
  · rename_i known
    rw [List.contains_iff_mem] at known
    exact ⟨Or.inl, fun h => h.elim id fun same => same ▸ known⟩
  · rw [List.mem_append, List.mem_singleton]

theorem nodup_insertNew {names : List String} (nodup : names.Nodup) (name : String) :
    (insertNew names name).Nodup := by
  rw [insertNew]
  split
  · exact nodup
  · rename_i fresh
    rw [List.contains_iff_mem] at fresh
    exact List.nodup_append.mpr ⟨nodup, by simp,
      fun a member b last same => fresh (List.mem_singleton.mp last ▸ same ▸ member)⟩

theorem prefix_insertNew (names : List String) (name : String) : names <+: insertNew names name := by
  rw [insertNew]
  split
  · exact List.prefix_rfl
  · exact List.prefix_append names [name]

/-- Names are added at the end, each once. -/
structure Grown (before after : List String) (added : String → Prop) : Prop where
  starts : before <+: after
  nodup : before.Nodup → after.Nodup
  mem : ∀ name, name ∈ after ↔ name ∈ before ∨ added name

theorem grown_insertNews (names more : List String) :
    Grown names (more.foldl insertNew names) (· ∈ more) := by
  induction more generalizing names with
  | nil => exact ⟨List.prefix_rfl, id, by simp⟩
  | cons name rest ih =>
    have later := ih (insertNew names name)
    refine ⟨(prefix_insertNew names name).trans later.starts,
      fun nodup => later.nodup (nodup_insertNew nodup name), fun other => ?_⟩
    rw [List.foldl_cons, later.mem, mem_insertNew_iff, List.mem_cons, or_assoc]

section
variable (related : String → List String)

theorem grown_spreadOnce (names : List String) :
    Grown names (spreadOnce related names) fun name => ∃ origin ∈ names, name ∈ related origin := by
  have each (l start : List String) :
      Grown start (l.foldl (fun found name => (related name).foldl insertNew found) start)
        fun name => ∃ origin ∈ l, name ∈ related origin := by
    induction l generalizing start with
    | nil => exact ⟨List.prefix_rfl, id, by simp⟩
    | cons name rest ih =>
      have first := grown_insertNews start (related name)
      have later := ih ((related name).foldl insertNew start)
      refine ⟨first.starts.trans later.starts, later.nodup ∘ first.nodup, fun other => ?_⟩
      rw [List.foldl_cons, later.mem, first.mem]
      simp [or_assoc]
  exact each names names

/-- Reached from one of the names over any number of relations. -/
def Reached (names : List String) (name : String) : Prop :=
  ∃ start ∈ names, Relation.ReflTransGen (fun a b => b ∈ related a) start name

theorem reached_of_mem_spreadWithin (rounds : Nat) {names : List String} {name : String}
    (member : name ∈ spreadWithin related rounds names) : Reached related names name := by
  induction rounds generalizing names with
  | zero => exact ⟨name, member, .refl⟩
  | succ rounds ih =>
    rw [spreadWithin] at member
    split at member
    · exact ⟨name, member, .refl⟩
    · obtain ⟨start, found, reached⟩ := ih member
      rcases ((grown_spreadOnce related names).mem start).mp found with known | ⟨origin, known, step⟩
      · exact ⟨start, known, reached⟩
      · exact ⟨origin, known, .head step reached⟩

/-- Rounds stop early only at a set that is closed, and every other round adds one of the names that
there are. -/
theorem spreadWithin_closed {everything : List String}
    (within : ∀ name ∈ everything, ∀ other ∈ related name, other ∈ everything) {rounds : Nat}
    {names : List String} (nodup : names.Nodup) (known : ∀ name ∈ names, name ∈ everything)
    (enough : everything.length < names.length + rounds) :
    (∀ name ∈ names, name ∈ spreadWithin related rounds names) ∧
    ∀ name ∈ spreadWithin related rounds names, ∀ other ∈ related name,
      other ∈ spreadWithin related rounds names := by
  have bounded {l : List String} (nodup : l.Nodup) (known : ∀ name ∈ l, name ∈ everything) :
      l.length ≤ everything.length := (List.subperm_of_subset nodup known).length_le
  induction rounds generalizing names with
  | zero => exact absurd (bounded nodup known) (by omega)
  | succ rounds ih =>
    have grown := grown_spreadOnce related names
    rw [spreadWithin]
    split
    · rename_i same
      refine ⟨fun _ => id, fun name member other step => ?_⟩
      rw [grown.starts.eq_of_length same.symm]
      exact (grown.mem other).mpr (Or.inr ⟨name, member, step⟩)
    · rename_i more
      have longer := grown.starts.length_le
      obtain ⟨kept, closed⟩ := ih (grown.nodup nodup) (fun name member =>
        ((grown.mem name).mp member).elim (known name) fun ⟨origin, inside, step⟩ =>
          within origin (known origin inside) name step) (by omega)
      exact ⟨fun name member => kept name ((grown.mem name).mpr (Or.inl member)), closed⟩

theorem nodup_spreadWithin (rounds : Nat) {names : List String} (nodup : names.Nodup) :
    (spreadWithin related rounds names).Nodup := by
  induction rounds generalizing names with
  | zero => exact nodup
  | succ rounds ih =>
    rw [spreadWithin]
    split
    · exact nodup
    · exact ih ((grown_spreadOnce related names).nodup nodup)

theorem spreadOnce_eq_self {names : List String} (nodup : names.Nodup)
    (closed : ∀ name ∈ names, ∀ other ∈ related name, other ∈ names) :
    spreadOnce related names = names := by
  have grown := grown_spreadOnce related names
  have within : spreadOnce related names ⊆ names := by
    intro name member
    rcases (grown.mem name).mp member with known | ⟨origin, known, step⟩
    · exact known
    · exact closed origin known name step
  have length := (List.subperm_of_subset (grown.nodup nodup) within).length_le
  exact (grown.starts.eq_of_length_le length).symm

theorem spreadWithin_eq_iterate (rounds : Nat) (names : List String) :
    ∃ n ≤ rounds, spreadWithin related rounds names = (spreadOnce related)^[n] names := by
  induction rounds generalizing names with
  | zero => exact ⟨0, Nat.le_refl 0, rfl⟩
  | succ rounds ih =>
    rw [spreadWithin]
    by_cases same : (spreadOnce related names).length = names.length
    · exact ⟨0, Nat.zero_le _, if_pos same⟩
    · obtain ⟨n, few, later⟩ := ih (spreadOnce related names)
      exact ⟨n + 1, Nat.succ_le_succ few, (if_neg same).trans later⟩

end

/-- The other definition extends the one directly, or is an ancestor of it. -/
def Spreads (definitions : Definitions) (maxDepth : Nat) (name other : String) : Prop :=
  definitions.Below other name ∨ ∃ r ∈ definitions.ancestors name maxDepth, r.name = other

theorem mem_related_iff (definitions : Definitions) (maxDepth : Nat) (name other : String) :
    other ∈ related definitions definitions.subtypes maxDepth name ↔
      Spreads definitions maxDepth name other := by
  rw [related, List.mem_append, Definitions.mem_subtypes_iff, List.mem_map, Spreads]

variable {definitions : Definitions}

theorem mem_keys_of_spreads
    (based : ∀ name base, definitions.Below name base → base ∈ definitions.keys)
    {maxDepth : Nat} {name other : String} (spreads : Spreads definitions maxDepth name other) :
    other ∈ definitions.keys := by
  have each : ∀ e ∈ definitions, ∀ r, e.2.base? = some r → r.name ∈ definitions.keys :=
    fun e member r extends_ => based e.1 r.name ⟨e.2, member, r, extends_, rfl⟩
  rcases spreads with ⟨s, member, _⟩ | ⟨r, above, rfl⟩
  · exact (Table.mem_keys_iff _ _).mpr ⟨s, member⟩
  · exact (definitions.ascends_ancestors name maxDepth).each
      (fun s found => each _ (Table.mem_of_get? found)) each r above

/-- The names that spreading can add: those of the definitions and of their bases. -/
def targets (definitions : Definitions) : List String :=
  definitions.keys ++ definitions.filterMap fun entry => entry.2.base?.map (·.name)

theorem length_targets_le (definitions : Definitions) :
    (targets definitions).length ≤ 2 * definitions.length := by
  have based : (definitions.filterMap fun entry => entry.2.base?.map (·.name)).length ≤
      definitions.length := List.length_filterMap_le _ _
  rw [targets, List.length_append, Table.keys, List.length_map]
  omega

theorem mem_targets_of_spreads {maxDepth : Nat} {name other : String}
    (spreads : Spreads definitions maxDepth name other) : other ∈ targets definitions := by
  have target : ∀ e ∈ definitions, ∀ r, e.2.base? = some r → r.name ∈ targets definitions := by
    intro e member r based
    refine List.mem_append.mpr (Or.inr (List.mem_filterMap.mpr ⟨e, member, ?_⟩))
    rw [based, Option.map_some]
  rcases spreads with ⟨s, member, _⟩ | ⟨r, above, rfl⟩
  · exact List.mem_append.mpr (Or.inl ((Table.mem_keys_iff _ _).mpr ⟨s, member⟩))
  · exact (definitions.ascends_ancestors name maxDepth).each
      (fun s found => target _ (Table.mem_of_get? found)) target r above

theorem spread_closed (definitions : Definitions) (maxDepth : Nat) {names : List String}
    (nodup : names.Nodup) : (∀ name ∈ names, name ∈ spread definitions maxDepth names) ∧
    ∀ name ∈ spread definitions maxDepth names, ∀ other, Spreads definitions maxDepth name other →
      other ∈ spread definitions maxDepth names := by
  have within : ∀ name ∈ names ++ targets definitions,
      ∀ other ∈ related definitions definitions.subtypes maxDepth name,
        other ∈ names ++ targets definitions := by
    intro name _ other step
    have spreads := (mem_related_iff definitions maxDepth name other).mp step
    exact List.mem_append.mpr (Or.inr (mem_targets_of_spreads spreads))
  have enough : (names ++ targets definitions).length <
      names.length + (2 * definitions.length + 1) := by
    have few := length_targets_le definitions
    rw [List.length_append]
    omega
  obtain ⟨kept, closed⟩ := spreadWithin_closed _ within nodup
    (fun name given => List.mem_append.mpr (Or.inl given)) enough
  constructor
  · exact kept
  · intro name member other spreads
    exact closed name member other ((mem_related_iff definitions maxDepth name other).mpr spreads)

/-- Spreading ends with the names that the given ones reach. -/
theorem mem_spread_iff (definitions : Definitions) (maxDepth : Nat) {names : List String}
    (nodup : names.Nodup) (name : String) : name ∈ spread definitions maxDepth names ↔
      ∃ start ∈ names, Relation.ReflTransGen (Spreads definitions maxDepth) start name := by
  have sameSteps : (fun a b => b ∈ related definitions definitions.subtypes maxDepth a) =
      Spreads definitions maxDepth := by
    funext a b
    exact propext (mem_related_iff definitions maxDepth a b)
  obtain ⟨kept, closed⟩ := spread_closed definitions maxDepth nodup
  constructor
  · intro member
    have reached := reached_of_mem_spreadWithin _ _ member
    rwa [Reached, sameSteps] at reached
  · rintro ⟨start, given, reached⟩
    induction reached with
    | refl => exact kept start given
    | tail _ step ih => exact closed _ ih _ step

theorem spread_of_bases {before after : Definitions} (same : after.bases = before.bases)
    (maxDepth : Nat) : spread after maxDepth = spread before maxDepth := by
  have length : after.length = before.length := by
    have keys := congrArg List.length (Definitions.keys_of_bases same)
    rwa [Table.keys, Table.keys, List.length_map, List.length_map] at keys
  funext names
  rw [spread, spread, length, Definitions.subtypes_of_bases same]
  have steps : related after before.subtypes maxDepth = related before before.subtypes maxDepth := by
    funext name
    rw [related, related, Definitions.ancestors_of_bases same]
  rw [steps]

theorem nodup_spread (maxDepth : Nat) {names : List String} (nodup : names.Nodup) :
    (spread definitions maxDepth names).Nodup := nodup_spreadWithin _ _ nodup

end SchemaGraph.NilSplit
