import Mathlib.Data.List.Induction
import SchemaGraph.Pass.Pruning
import SchemaGraph.Proofs.Extensions

/- The sweep that marks what pruning keeps. Its marks stay an audit of what is needed: whatever is
   marked is needed, and whatever was traversed or extended has what it brings along marked. A
   name that is covered as an extension of another definition need not be extended again, since its
   own extensions extend that definition too. The sweep ends with every mark traversed, so that
   exactly what is needed is marked. -/
namespace SchemaGraph

namespace Usage

def named (name : String) (o : Occurrence) : Bool := o.reference.name == name

theorem tally_concat (l : List Occurrence) (o : Occurrence) :
    tally (l ++ [o]) = (tally l).put o.reference.name
      ((((tally l).get? o.reference.name).getD {}).record o.structural) := by
  simp [tally]

theorem distinct_tally (l : List Occurrence) : (tally l).Distinct := by
  induction l using List.reverseRecOn with
  | nil => exact List.nodup_nil
  | append_singleton l o ih =>
    rw [tally_concat]
    exact Table.distinct_put ih _ _

theorem mem_keys_tally_iff (l : List Occurrence) (name : String) :
    name ∈ (tally l).keys ↔ ∃ o ∈ l, o.reference.name = name := by
  induction l using List.reverseRecOn with
  | nil => simp [tally, Table.keys]
  | append_singleton l o ih =>
    rw [tally_concat, Table.mem_keys_put_iff, ih]
    simp only [List.mem_append, List.mem_singleton, or_and_right, exists_or, exists_eq_left]
    exact or_congr_right eq_comm

theorem exists_tally_of_mem {l : List Occurrence} {o : Occurrence} (member : o ∈ l) :
    ∃ u, (o.reference.name, u) ∈ tally l :=
  (Table.mem_keys_iff _ _).mp ((mem_keys_tally_iff l _).mpr ⟨o, member, rfl⟩)

/-- Every occurrence is counted as a base or as a value. -/
theorem count_tally (l : List Occurrence) (name : String) :
    (((tally l).get? name).getD {}).count = (((tally l).get? name).getD {}).structural +
      l.countP fun o => named name o && !o.structural := by
  induction l using List.reverseRecOn with
  | nil => rfl
  | append_singleton l o ih =>
    rw [tally_concat, Table.get?_put, List.countP_append, List.countP_singleton]
    by_cases same : o.reference.name = name
    · subst same
      cases structural : o.structural <;> simp [record, named, ih] <;> omega
    · simp [same, named, ih]

/-- A definition is substitutable where some occurrence uses it as a value. -/
theorem substitutable_iff {l : List Occurrence} {name : String} {u : Usage}
    (member : (name, u) ∈ tally l) :
    0 < u.substitutable ↔ ∃ o ∈ l, o.reference.name = name ∧ o.structural = false := by
  have counted := count_tally l name
  rw [Table.get?_of_mem (distinct_tally l) member, Option.getD_some] at counted
  rw [substitutable, counted, Nat.add_sub_cancel_left, List.countP_pos_iff]
  simp [named]

end Usage

namespace Pruning

/-- The least set that holds the roots and, with a definition, every definition that it refers to
and every extension of the polymorphic ones that it uses as values. -/
inductive Needed (definitions : Definitions) (root : String → Prop) : String → Prop where
  | root {name} : root name → Needed definitions root name
  | reference {name s o} : Needed definitions root name → definitions.get? name = some s →
      o ∈ s.occurrences → Needed definitions root o.reference.name
  | extension {name s o e} : Needed definitions root name → definitions.get? name = some s →
      o ∈ s.occurrences → o.structural = false →
      isPolymorphic definitions o.reference.name → e ∈ definitions.extensions o.reference.name →
      Needed definitions root e

theorem isPolymorphic_iff (definitions : Definitions) (name : String) :
    isPolymorphic definitions name ↔ ∃ s, definitions.get? name = some s ∧
      ∃ value, s.keywords.polymorphic = some value ∧ value.isTruthy := by
  simp only [isPolymorphic, Option.any_eq_true]

namespace Marks
variable {marks : Marks} {definitions : Definitions}

theorem has_put (k : String) (m : Mark) (name : String) :
    Table.has (marks.put k m) name ↔ marks.has name ∨ name = k := by
  simp [Table.has_iff_mem_keys, Table.mem_keys_put_iff]

theorem mark_put (k : String) (m : Mark) (name : String) :
    mark (marks.put k m) name = if k = name then m else marks.mark name := by
  rw [mark, Table.get?_put]
  split <;> rfl

theorem has_enter (k name : String) :
    Table.has (marks.enter k) name ↔ marks.has name ∨ name = k := by
  rw [enter, Table.putNew]
  split
  · rename_i known
    exact ⟨Or.inl, fun h => h.elim id fun same => same ▸ known⟩
  · exact has_put k {} name

theorem mark_enter (k name : String) : mark (marks.enter k) name = marks.mark name := by
  rw [enter, Table.putNew]
  split
  · rfl
  · rename_i unknown
    have absent : marks.get? k = none := by simpa [Table.has] using unknown
    rw [mark_put]
    split
    · rename_i same
      rw [← same, mark, absent, Option.getD_none]
    · rfl

theorem has_extend (k name : String) :
    Table.has (marks.extend k) name ↔ marks.has name ∨ name = k := has_put _ _ _

theorem extended_extend (k name : String) :
    (mark (marks.extend k) name).extended ↔ (marks.mark name).extended ∨ name = k := by
  rw [extend, mark_put]
  split
  · rename_i same
    simp [same]
  · rename_i differs
    simp [Ne.symm differs]

theorem traversed_extend (k name : String) :
    (mark (marks.extend k) name).traversed = (marks.mark name).traversed := by
  rw [extend, mark_put]
  split
  · rename_i same
    rw [same]
  · rfl

theorem has_foldl_extend (names : List String) (marks : Marks) (name : String) :
    Table.has (names.foldl extend marks) name ↔ marks.has name ∨ name ∈ names := by
  induction names generalizing marks with
  | nil => simp
  | cons k names ih => rw [List.foldl_cons, ih, has_extend, List.mem_cons, or_assoc]

theorem extended_foldl_extend (names : List String) (marks : Marks) (name : String) :
    (mark (names.foldl extend marks) name).extended ↔
      (marks.mark name).extended ∨ name ∈ names := by
  induction names generalizing marks with
  | nil => simp
  | cons k names ih => rw [List.foldl_cons, ih, extended_extend, List.mem_cons, or_assoc]

theorem traversed_foldl_extend (names : List String) (marks : Marks) (name : String) :
    (mark (names.foldl extend marks) name).traversed = (marks.mark name).traversed := by
  induction names generalizing marks with
  | nil => rfl
  | cons k names ih => rw [List.foldl_cons, ih, traversed_extend]

theorem distinct_foldl_extend (names : List String) {marks : Marks} (distinct : marks.Distinct) :
    Table.Distinct (names.foldl extend marks) := by
  induction names generalizing marks with
  | nil => exact distinct
  | cons k names ih => exact ih (Table.distinct_put distinct _ _)

theorem distinct_enter (distinct : marks.Distinct) (k : String) :
    Table.Distinct (marks.enter k) := by
  rw [enter, Table.putNew]
  split
  · exact distinct
  · exact Table.distinct_put distinct _ _

/-- Whether the extensions of a referenced definition are marked now. -/
def Expands (definitions : Definitions) (marks : Marks) (target : String × Usage) : Prop :=
  0 < target.2.substitutable ∧ (marks.mark target.1).extended = false ∧
    isPolymorphic definitions target.1

theorem use_eq (definitions : Definitions) (marks : Marks) (target : String × Usage) :
    (Expands definitions marks target ∧ marks.use definitions target =
        (definitions.extensions target.1).foldl extend ((marks.enter target.1).extend target.1)) ∨
      (¬ Expands definitions marks target ∧
        marks.use definitions target = marks.enter target.1) := by
  rw [use]
  split
  · rename_i skipped
    refine Or.inr ⟨?_, rfl⟩
    rintro ⟨used, fresh, polymorphic⟩
    simp only [mark_enter, fresh, polymorphic, Bool.or_eq_true] at skipped
    simp at skipped
    omega
  · rename_i expanded
    refine Or.inl ⟨?_, rfl⟩
    simp only [mark_enter, Bool.or_eq_true, not_or, Bool.not_eq_true, Bool.not_eq_false']
      at expanded
    refine ⟨?_, expanded.1.2, expanded.2⟩
    have positive := expanded.1.1
    simp at positive
    omega

theorem has_use_iff (target : String × Usage) (name : String) :
    Table.has (marks.use definitions target) name ↔ marks.has name ∨ name = target.1 ∨
      (Expands definitions marks target ∧ name ∈ definitions.extensions target.1) := by
  rcases use_eq definitions marks target with ⟨expands, same⟩ | ⟨stays, same⟩
  · rw [same, has_foldl_extend, has_extend, has_enter]
    tauto
  · rw [same, has_enter]
    tauto

theorem extended_use_iff (target : String × Usage) (name : String) :
    (mark (marks.use definitions target) name).extended ↔ (marks.mark name).extended ∨
      (Expands definitions marks target ∧
        (name = target.1 ∨ name ∈ definitions.extensions target.1)) := by
  rcases use_eq definitions marks target with ⟨expands, same⟩ | ⟨stays, same⟩
  · rw [same, extended_foldl_extend, extended_extend, mark_enter]
    tauto
  · rw [same, mark_enter]
    tauto

theorem traversed_use (target : String × Usage) (name : String) :
    (mark (marks.use definitions target) name).traversed = (marks.mark name).traversed := by
  rcases use_eq definitions marks target with ⟨_, same⟩ | ⟨_, same⟩
  · rw [same, traversed_foldl_extend, traversed_extend, mark_enter]
  · rw [same, mark_enter]

theorem distinct_use (distinct : marks.Distinct) (target : String × Usage) :
    Table.Distinct (marks.use definitions target) := by
  rcases use_eq definitions marks target with ⟨_, same⟩ | ⟨_, same⟩
  · rw [same]
    exact distinct_foldl_extend _ (Table.distinct_put (distinct_enter distinct _) _ _)
  · rw [same]
    exact distinct_enter distinct _

/-- The extensions of every extended polymorphic definition are marked. -/
def Covered (definitions : Definitions) (marks : Marks) : Prop :=
  ∀ name, (marks.mark name).extended → isPolymorphic definitions name →
    ∀ e ∈ definitions.extensions name, marks.has e

/-- What a referenced definition brings along is marked. -/
def Met (definitions : Definitions) (marks : Marks) (target : String × Usage) : Prop :=
  marks.has target.1 ∧ (0 < target.2.substitutable → isPolymorphic definitions target.1 →
    ∀ e ∈ definitions.extensions target.1, marks.has e)

/-- An extended extension is covered by the definition that it extends. -/
theorem covered_use (distinct : definitions.Distinct) (covered : Covered definitions marks)
    (target : String × Usage) : Covered definitions (marks.use definitions target) := by
  intro name extended polymorphic e extension
  rw [has_use_iff]
  rcases (extended_use_iff target name).mp extended with before | ⟨expands, rfl | among⟩
  · exact Or.inl (covered name before polymorphic e extension)
  · exact Or.inr (Or.inr ⟨expands, extension⟩)
  · obtain ⟨s, found, value, marked, _⟩ := (isPolymorphic_iff _ _).mp polymorphic
    exact Or.inr (Or.inr ⟨expands,
      Definitions.extensions_subset distinct among found (by simp [marked]) extension⟩)

theorem met_use (covered : Covered definitions marks) (target : String × Usage) :
    Met definitions (marks.use definitions target) target := by
  refine ⟨(has_use_iff _ _).mpr (Or.inr (Or.inl rfl)), fun used polymorphic e extension => ?_⟩
  rw [has_use_iff]
  -- The flag may have been set for a definition that the target extends.
  cases fresh : (marks.mark target.1).extended with
  | true => exact Or.inl (covered target.1 fresh polymorphic e extension)
  | false => exact Or.inr (Or.inr ⟨⟨used, fresh, polymorphic⟩, extension⟩)

theorem met_mono {later : Marks} {target : String × Usage}
    (grows : ∀ name, marks.has name → later.has name) (met : Met definitions marks target) :
    Met definitions later target :=
  ⟨grows _ met.1, fun used polymorphic e extension => grows e (met.2 used polymorphic e extension)⟩

theorem has_foldl_use (targets : List (String × Usage)) {marks : Marks} {name : String}
    (known : marks.has name) : Table.has (targets.foldl (use definitions) marks) name := by
  induction targets generalizing marks with
  | nil => exact known
  | cons target targets ih => exact ih ((has_use_iff target name).mpr (Or.inl known))

theorem traversed_foldl_use (targets : List (String × Usage)) (marks : Marks) (name : String) :
    (mark (targets.foldl (use definitions) marks) name).traversed =
      (marks.mark name).traversed := by
  induction targets generalizing marks with
  | nil => rfl
  | cons target targets ih => rw [List.foldl_cons, ih, traversed_use]

theorem distinct_foldl_use (targets : List (String × Usage)) {marks : Marks}
    (distinct : marks.Distinct) : Table.Distinct (targets.foldl (use definitions) marks) := by
  induction targets generalizing marks with
  | nil => exact distinct
  | cons target targets ih => exact ih (distinct_use distinct target)

theorem covered_foldl_use (distinct : definitions.Distinct) (targets : List (String × Usage))
    {marks : Marks} (covered : Covered definitions marks) :
    Covered definitions (targets.foldl (use definitions) marks) := by
  induction targets generalizing marks with
  | nil => exact covered
  | cons target targets ih => exact ih (covered_use distinct covered target)

theorem met_foldl_use (distinct : definitions.Distinct) (targets : List (String × Usage))
    {marks : Marks} (covered : Covered definitions marks) :
    ∀ target ∈ targets, Met definitions (targets.foldl (use definitions) marks) target := by
  induction targets generalizing marks with
  | nil => simp
  | cons first targets ih =>
    intro target member
    have coveredNext := covered_use distinct covered first
    rcases List.mem_cons.mp member with rfl | later
    · exact met_mono (fun _ known => has_foldl_use targets known) (met_use covered target)
    · exact ih coveredNext target later

/-- Only referenced definitions and the extensions of those used as values are marked. -/
theorem new_of_has_foldl_use (targets : List (String × Usage)) {marks : Marks} {name : String}
    (known : Table.has (targets.foldl (use definitions) marks) name) :
    marks.has name ∨ ∃ target ∈ targets, name = target.1 ∨
      (0 < target.2.substitutable ∧ isPolymorphic definitions target.1 ∧
        name ∈ definitions.extensions target.1) := by
  induction targets generalizing marks with
  | nil => exact Or.inl known
  | cons first targets ih =>
    rcases ih known with before | ⟨target, member, brought⟩
    · rcases (has_use_iff first name).mp before with earlier | same | ⟨expands, extension⟩
      · exact Or.inl earlier
      · exact Or.inr ⟨first, by simp, Or.inl same⟩
      · exact Or.inr ⟨first, by simp, Or.inr ⟨expands.1, expands.2.2, extension⟩⟩
    · exact Or.inr ⟨target, by simp [member], brought⟩

/-- What holds of the marks after every round of the sweep. -/
structure Audit (definitions : Definitions) (root : String → Prop) (marks : Marks) : Prop where
  distinct : marks.Distinct
  rooted : ∀ name, root name → marks.has name
  needed : ∀ name, marks.has name → Needed definitions root name
  covered : Covered definitions marks
  followed : ∀ name, (marks.mark name).traversed → ∀ s, definitions.get? name = some s →
    ∀ target ∈ s.usage, Met definitions marks target

theorem has_visit {name : String} (k : String) (known : marks.has name) :
    Table.has (marks.visit definitions k) name := by
  have here : Table.has (marks.traverse k) name := (has_put _ _ _).mpr (Or.inl known)
  rw [visit]
  split
  · exact has_foldl_use _ here
  · exact here

theorem traversed_visit (k name : String) :
    (mark (marks.visit definitions k) name).traversed ↔
      (marks.mark name).traversed ∨ name = k := by
  have here : (mark (marks.traverse k) name).traversed ↔
      (marks.mark name).traversed ∨ name = k := by
    rw [traverse, mark_put]
    split
    · rename_i same
      simp [same]
    · rename_i differs
      simp [Ne.symm differs]
  rw [visit]
  split
  · rw [traversed_foldl_use, here]
  · exact here

theorem extended_traverse (k name : String) :
    (mark (marks.traverse k) name).extended = (marks.mark name).extended := by
  rw [traverse, mark_put]
  split
  · rename_i same
    rw [same]
  · rfl

theorem covered_traverse (k : String) (covered : Covered definitions marks) :
    Covered definitions (marks.traverse k) := by
  intro name extended polymorphic e extension
  rw [extended_traverse] at extended
  exact (has_put _ _ _).mpr (Or.inl (covered name extended polymorphic e extension))

/-- What the occurrences of a needed definition bring along is needed. -/
theorem needed_of_usage {root : String → Prop} {name : String} {s : Schema}
    (needed : Needed definitions root name) (found : definitions.get? name = some s)
    {target : String × Usage} (member : target ∈ s.usage) {e : String}
    (brought : e = target.1 ∨ (0 < target.2.substitutable ∧ isPolymorphic definitions target.1 ∧
      e ∈ definitions.extensions target.1)) : Needed definitions root e := by
  rcases brought with rfl | ⟨used, polymorphic, extension⟩
  · have named : target.1 ∈ s.usage.keys := List.mem_map_of_mem member
    obtain ⟨o, occurs, same⟩ := (Usage.mem_keys_tally_iff _ _).mp named
    rw [← same]
    exact .reference needed found occurs
  · obtain ⟨o, occurs, same, value⟩ := (Usage.substitutable_iff member).mp used
    rw [← same] at polymorphic extension
    exact .extension needed found occurs value polymorphic extension

theorem Audit.visit {root : String → Prop} (distinct : definitions.Distinct)
    (audit : Audit definitions root marks) {k : String} (known : marks.has k) :
    Audit definitions root (marks.visit definitions k) where
  distinct := by
    have here := Table.distinct_put audit.distinct k { marks.mark k with traversed := true }
    rw [Marks.visit]
    split
    · exact distinct_foldl_use _ here
    · exact here
  rooted name isRoot := has_visit k (audit.rooted name isRoot)
  needed name has := by
    have before (h : Table.has (marks.traverse k) name) : Needed definitions root name := by
      rcases (has_put _ _ _).mp h with earlier | rfl
      · exact audit.needed name earlier
      · exact audit.needed name known
    rw [Marks.visit] at has
    split at has
    · rename_i s found
      rcases new_of_has_foldl_use _ has with h | ⟨target, member, brought⟩
      · exact before h
      · exact needed_of_usage (audit.needed k known) found member brought
    · exact before has
  covered := by
    have here := covered_traverse k audit.covered
    rw [Marks.visit]
    split
    · exact covered_foldl_use distinct _ here
    · exact here
  followed name traversed s found target member := by
    rcases (traversed_visit k name).mp traversed with earlier | rfl
    · exact met_mono (fun _ => has_visit k) (audit.followed name earlier s found target member)
    · rw [Marks.visit, found]
      exact met_foldl_use distinct _ (covered_traverse name audit.covered) target member

theorem traversed_of_next?_eq_none (done : marks.next? = none) {name : String}
    (known : marks.has name) : (marks.mark name).traversed := by
  rw [Table.has, Option.isSome_iff_exists] at known
  obtain ⟨m, found⟩ := known
  rw [next?, Option.map_eq_none_iff, List.find?_eq_none] at done
  have traversed := done _ (Table.mem_of_get? found)
  rw [mark, found]
  simpa using traversed

theorem fresh_of_next?_eq_some (distinct : marks.Distinct) {name : String}
    (next : marks.next? = some name) :
    marks.has name ∧ (marks.mark name).traversed = false := by
  obtain ⟨⟨k, m⟩, first, same⟩ := Option.map_eq_some_iff.mp next
  subst same
  have found := Table.get?_of_mem distinct (List.mem_of_find?_eq_some first)
  have fresh := List.find?_some first
  refine ⟨by simp [Table.has, found], ?_⟩
  rw [mark, found]
  simpa using fresh

/-- How many of the names were not traversed. -/
def remaining (names : List String) (marks : Marks) : Nat :=
  names.countP fun name => !(marks.mark name).traversed

theorem remaining_visit {names : List String} {k : String} (known : k ∈ names)
    (fresh : (marks.mark k).traversed = false) :
    remaining names (marks.visit definitions k) < remaining names marks := by
  have stepped : names.countP (· == k) + remaining names (marks.visit definitions k) ≤
      remaining names marks := by
    apply countP_add_le
    · intro name _ same
      rw [beq_iff_eq.mp same]
      have now : (mark (marks.visit definitions k) k).traversed :=
        (traversed_visit k k).mpr (Or.inr rfl)
      simp [fresh, now]
    · intro name untraversed
      have kept : (mark (marks.visit definitions k) name).traversed ↔
          (marks.mark name).traversed ∨ name = k := traversed_visit k name
      simp_all
  have counted : 0 < names.countP (· == k) := List.countP_pos_iff.mpr ⟨k, known, by simp⟩
  omega

/-- A sweep with a round for every name that can be needed ends with nothing left to traverse. -/
theorem sweep_audit {root : String → Prop} (distinct : definitions.Distinct) {names : List String}
    (covers : ∀ name, Needed definitions root name → name ∈ names) (rounds : Nat) (marks : Marks)
    (audit : Audit definitions root marks) (enough : remaining names marks ≤ rounds) :
    Audit definitions root (sweep definitions rounds marks) ∧
      next? (sweep definitions rounds marks) = none := by
  induction rounds generalizing marks with
  | zero =>
    -- One more visit would lower the count below zero.
    refine ⟨audit, ?_⟩
    cases next : marks.next? with
    | none => rw [sweep, next]
    | some name =>
      obtain ⟨known, fresh⟩ := fresh_of_next?_eq_some audit.distinct next
      have more : remaining names (marks.visit definitions name) < remaining names marks :=
        remaining_visit (covers name (audit.needed name known)) fresh
      omega
  | succ rounds ih =>
    cases next : marks.next? with
    | none =>
      rw [sweep, next]
      exact ⟨audit, next⟩
    | some name =>
      obtain ⟨known, fresh⟩ := fresh_of_next?_eq_some audit.distinct next
      have fewer : remaining names (marks.visit definitions name) < remaining names marks :=
        remaining_visit (covers name (audit.needed name known)) fresh
      rw [sweep, next]
      exact ih _ (audit.visit distinct known) (by omega)

theorem has_foldl_enter (names : List String) (marks : Marks) (name : String) :
    Table.has (names.foldl enter marks) name ↔ marks.has name ∨ name ∈ names := by
  induction names generalizing marks with
  | nil => simp
  | cons k names ih => rw [List.foldl_cons, ih, has_enter, List.mem_cons, or_assoc]

theorem mark_foldl_enter (names : List String) (marks : Marks) (name : String) :
    mark (names.foldl enter marks) name = marks.mark name := by
  induction names generalizing marks with
  | nil => rfl
  | cons k names ih => rw [List.foldl_cons, ih, mark_enter]

theorem distinct_foldl_enter (names : List String) {marks : Marks} (distinct : marks.Distinct) :
    Table.Distinct (names.foldl enter marks) := by
  induction names generalizing marks with
  | nil => exact distinct
  | cons k names ih => exact ih (distinct_enter distinct k)

theorem audit_roots (definitions : Definitions) (roots : List String) :
    Audit definitions (· ∈ roots) (roots.foldl enter []) where
  distinct := distinct_foldl_enter roots List.nodup_nil
  rooted name isRoot := (has_foldl_enter roots [] name).mpr (Or.inr isRoot)
  needed name has := by
    rcases (has_foldl_enter roots [] name).mp has with known | isRoot
    · simp [Table.has, Table.get?] at known
    · exact .root isRoot
  covered name extended := by
    rw [mark_foldl_enter] at extended
    simp [mark, Table.get?] at extended
  followed name traversed := by
    rw [mark_foldl_enter] at traversed
    simp [mark, Table.get?] at traversed

end Marks

theorem mem_mentioned_of_needed {definitions : Definitions} {roots : List String}
    (known : ∀ name ∈ roots, name ∈ definitions.keys) (name : String)
    (needed : Needed definitions (· ∈ roots) name) : name ∈ mentioned definitions := by
  cases needed with
  | root isRoot => exact List.mem_append.mpr (Or.inl (known name isRoot))
  | reference before found occurs =>
    refine List.mem_append.mpr (Or.inr (List.mem_map.mpr ⟨_, ?_, rfl⟩))
    exact List.mem_flatMap.mpr ⟨_, List.mem_map.mpr ⟨_, Table.mem_of_get? found, rfl⟩, occurs⟩
  | extension before found occurs value polymorphic extension =>
    exact List.mem_append.mpr (Or.inl (Definitions.mem_keys_of_mem_extensions extension))

/-- The sweep stops with nothing left to traverse, on cyclic and on dangling graphs too. -/
theorem audit_needed {definitions : Definitions} {roots : List String}
    (distinct : definitions.Distinct) (known : ∀ name ∈ roots, name ∈ definitions.keys) :
    Marks.Audit definitions (· ∈ roots) (needed definitions roots) ∧
      (needed definitions roots).next? = none :=
  Marks.sweep_audit distinct (mem_mentioned_of_needed known) _ _ (Marks.audit_roots _ roots)
    List.countP_le_length

/-- The marked names are exactly the needed ones. -/
theorem has_needed_iff {definitions : Definitions} {roots : List String}
    (distinct : definitions.Distinct) (known : ∀ name ∈ roots, name ∈ definitions.keys)
    (name : String) :
    (needed definitions roots).has name ↔ Needed definitions (· ∈ roots) name := by
  obtain ⟨audit, done⟩ := audit_needed distinct known
  refine ⟨audit.needed name, fun h => ?_⟩
  -- Every marked name was traversed, so each step of a derivation is met where it starts.
  have met {n : String} {s : Schema} (has : (needed definitions roots).has n)
      (found : definitions.get? n = some s) :=
    audit.followed n (Marks.traversed_of_next?_eq_none done has) s found
  induction h with
  | root isRoot => exact audit.rooted _ isRoot
  | @reference n s o before found occurs ih =>
    obtain ⟨u, member⟩ := Usage.exists_tally_of_mem occurs
    exact (met ih found _ member).1
  | @extension n s o e before found occurs value polymorphic extension ih =>
    obtain ⟨u, member⟩ := Usage.exists_tally_of_mem occurs
    exact (met ih found _ member).2
      ((Usage.substitutable_iff member).mpr ⟨o, occurs, rfl, value⟩) polymorphic e extension

end Pruning
end SchemaGraph
