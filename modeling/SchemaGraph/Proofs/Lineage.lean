import Mathlib.Data.List.Basic
import Mathlib.Logic.Relation
import SchemaGraph.Proofs.Hierarchy

/- The whole chain of bases above a definition, up to one that extends nothing. There is at most one,
   no name comes twice in it, and looking up ancestors to a sufficient depth finds it. -/
namespace SchemaGraph.Definitions

/-- The references are all bases above the schema: each is defined, and the last extends nothing. -/
inductive Lineage (definitions : Definitions) : Schema → List Reference → Prop
  | top {s : Schema} (none : s.base? = none) : Lineage definitions s []
  | step {s base : Schema} {r : Reference} {rest : List Reference} (extended : s.base? = some r)
      (defined : definitions.get? r.name = some base) (above : Lineage definitions base rest) :
      Lineage definitions s (r :: rest)

/-- No chain of bases is longer. -/
def ChainsWithin (definitions : Definitions) (depth : Nat) : Prop :=
  ∀ name refs, definitions.Ascends (definitions.get? name) refs → refs.length ≤ depth

variable {definitions before after : Definitions} {s : Schema} {refs : List Reference}

/-- Chains are short where every base has a lower rank than what extends it. -/
theorem chainsWithin_of_rank (rank : String → Nat)
    (falls : ∀ e ∈ definitions, ∀ r ∈ e.2.base?, rank r.name < rank e.1) {depth : Nat}
    (low : ∀ name, rank name ≤ depth) : definitions.ChainsWithin depth := by
  intro name refs ascends
  refine Nat.le_trans ?_ (low name)
  induction refs generalizing name with
  | nil => exact Nat.zero_le _
  | cons r rest ih =>
    obtain ⟨extended, ascends⟩ := ascends
    obtain ⟨s, stood, extended⟩ := Option.bind_eq_some_iff.mp extended
    have lower := falls _ (Table.mem_of_get? stood) r extended
    exact Nat.lt_of_le_of_lt (ih r.name ascends) lower

namespace Lineage

theorem unique {more : List Reference} (lineage : definitions.Lineage s refs)
    (other : definitions.Lineage s more) : refs = more := by
  induction lineage generalizing more with
  | top none =>
    cases other with
    | top _ => rfl
    | step extended _ _ => cases none.symm.trans extended
  | step extended defined above ih =>
    cases other with
    | top none => cases none.symm.trans extended
    | step extended' defined' above' =>
      cases extended.symm.trans extended'
      cases defined.symm.trans defined'
      rw [ih above']

theorem retained (lineage : before.Lineage s refs)
    (retains : ∀ r ∈ refs, ∀ t, before.get? r.name = some t → after.get? r.name = some t) :
    after.Lineage s refs := by
  induction lineage with
  | top none => exact .top none
  | step extended defined _ ih =>
    obtain ⟨here, later⟩ := List.forall_mem_cons.mp retains
    exact .step extended (here _ defined) (ih later)

theorem ascends (lineage : definitions.Lineage s refs) : definitions.Ascends (some s) refs := by
  induction lineage with
  | top _ => trivial
  | step extended defined _ ih => exact ⟨extended, defined ▸ ih⟩

/-- What is above a base in the chain is the chain of that base. -/
theorem above {r : Reference} {lower upper : List Reference}
    (lineage : definitions.Lineage s (lower ++ r :: upper)) :
    ∃ base, definitions.get? r.name = some base ∧ definitions.Lineage base upper := by
  induction lower generalizing s with
  | nil =>
    cases lineage with
    | step _ defined above => exact ⟨_, defined, above⟩
  | cons _ lower ih =>
    cases lineage with
    | step _ _ above => exact ih above

theorem mem_names_iff (distinct : definitions.Distinct) {name : String}
    (stood : definitions.get? name = some s) (lineage : definitions.Lineage s refs) (base : String) :
    (∃ r ∈ refs, r.name = base) ↔ Relation.TransGen definitions.Below name base := by
  induction lineage generalizing name with
  | @top s none =>
    constructor
    · intro ⟨_, member, _⟩
      cases member
    · intro below
      obtain ⟨_, ⟨t, member, r, extended, _⟩, _⟩ := Relation.TransGen.head'_iff.mp below
      cases (Table.get?_of_mem distinct member).symm.trans stood
      cases none.symm.trans extended
  | @step s next r rest extended defined above ih =>
    have here : definitions.Below name r.name :=
      ⟨s, Table.mem_of_get? stood, r, extended, rfl⟩
    rw [List.exists_mem_cons_iff, ih defined]
    constructor
    · intro found
      rcases found with rfl | later
      · exact .single here
      · exact .head here later
    · intro below
      obtain ⟨middle, ⟨t, member, r', extended', rfl⟩, rest'⟩ := Relation.TransGen.head'_iff.mp below
      cases (Table.get?_of_mem distinct member).symm.trans stood
      cases extended.symm.trans extended'
      rcases Relation.reflTransGen_iff_eq_or_transGen.mp rest' with same | later
      · exact Or.inl same.symm
      · exact Or.inr later

/-- A definition is not among its own bases. -/
theorem name_ne {name : String} (stood : definitions.get? name = some s)
    (lineage : definitions.Lineage s refs) : ∀ r ∈ refs, r.name ≠ name := by
  intro r member same
  obtain ⟨lower, upper, rfl⟩ := List.append_of_mem member
  obtain ⟨base, defined, above⟩ := lineage.above
  rw [same, stood] at defined
  cases defined
  have length := congrArg List.length (lineage.unique above)
  simp only [List.length_append, List.length_cons] at length
  omega

theorem ancestorsFrom (lineage : definitions.Lineage s refs) {depth : Nat}
    (deep : refs.length ≤ depth) {seen : List String} (fresh : ∀ r ∈ refs, r.name ∉ seen) :
    definitions.ancestorsFrom depth seen (some s) = refs := by
  induction lineage generalizing depth seen with
  | top none =>
    cases depth with
    | zero => rfl
    | succ depth => simp [Definitions.ancestorsFrom, none]
  | @step s base r rest extended defined above ih =>
    rw [List.length_cons] at deep
    obtain ⟨depth, rfl⟩ : ∃ more, depth = more + 1 := ⟨depth - 1, by omega⟩
    obtain ⟨here, later⟩ := List.forall_mem_cons.mp fresh
    have unseen : ∀ other ∈ rest, other.name ∉ r.name :: seen := by
      intro other member
      rw [List.mem_cons, not_or]
      exact ⟨name_ne defined above other member, later other member⟩
    have goesOn := ih (Nat.le_of_succ_le_succ deep) unseen
    simp [Definitions.ancestorsFrom, extended, here, defined, goesOn]

theorem ancestors_eq {name : String} (stood : definitions.get? name = some s)
    (lineage : definitions.Lineage s refs) {depth : Nat} (deep : refs.length ≤ depth) :
    definitions.ancestors name depth = refs := by
  rw [Definitions.ancestors, stood]
  refine lineage.ancestorsFrom deep fun r member => ?_
  rw [List.mem_singleton]
  exact name_ne stood lineage r member

end Lineage

/-- A chain goes on until it ends, or is as long as one likes. -/
theorem lineage_or_ascends (closed : ∀ name base, definitions.Below name base →
    base ∈ definitions.keys) (length : Nat) {name : String}
    (stood : definitions.get? name = some s) :
    (∃ refs, definitions.Lineage s refs) ∨
      ∃ refs, definitions.Ascends (some s) refs ∧ refs.length = length := by
  induction length generalizing name s with
  | zero => exact Or.inr ⟨[], trivial, rfl⟩
  | succ length ih =>
    cases extended : s.base? with
    | none => exact Or.inl ⟨[], .top extended⟩
    | some r =>
      have below : definitions.Below name r.name :=
        ⟨s, Table.mem_of_get? stood, r, extended, rfl⟩
      obtain ⟨base, defined⟩ := (Table.exists_get?_iff _ _).mpr (closed name r.name below)
      rcases ih defined with ⟨refs, lineage⟩ | ⟨refs, ascends, long⟩
      · exact Or.inl ⟨r :: refs, .step extended defined lineage⟩
      · exact Or.inr ⟨r :: refs, ⟨extended, defined ▸ ascends⟩, by rw [List.length_cons, long]⟩

theorem exists_lineage (closed : ∀ name base, definitions.Below name base →
    base ∈ definitions.keys) {depth : Nat} (chains : definitions.ChainsWithin depth)
    {name : String} (stood : definitions.get? name = some s) :
    ∃ refs, definitions.Lineage s refs ∧ refs.length ≤ depth := by
  rcases lineage_or_ascends closed (depth + 1) stood with ⟨refs, lineage⟩ | ⟨refs, ascends, long⟩
  · exact ⟨refs, lineage, chains name refs (stood ▸ lineage.ascends)⟩
  · have short := chains name refs (stood ▸ ascends)
    omega

theorem not_transGen_self (distinct : definitions.Distinct)
    (closed : ∀ name base, definitions.Below name base → base ∈ definitions.keys) {depth : Nat}
    (chains : definitions.ChainsWithin depth) (name : String) :
    ¬ Relation.TransGen definitions.Below name name := by
  intro circle
  obtain ⟨_, ⟨s, member, _⟩, _⟩ := Relation.TransGen.head'_iff.mp circle
  have stood := Table.get?_of_mem distinct member
  obtain ⟨refs, lineage, _⟩ := exists_lineage closed chains stood
  obtain ⟨r, above, same⟩ := (lineage.mem_names_iff distinct stood name).mpr circle
  exact lineage.name_ne stood r above same

/-- One definition is changed so that its chain becomes another one of the same length: the other
chains stay, or go on with the new one from there. -/
theorem Lineage.redirected {root : String} {new : Schema} {old above : List Reference}
    {stood : Schema} (found : before.get? root = some stood) (was : before.Lineage stood old)
    (changed : after.get? root = some new) (becomes : after.Lineage new above)
    (length : above.length = old.length)
    (others : ∀ name t, name ≠ root → before.get? name = some t → after.get? name = some t)
    (lineage : before.Lineage s refs) : ∃ turned, after.Lineage s turned ∧
      turned.length = refs.length ∧ ∀ r ∈ turned, r ∈ refs ∨
        (∃ passed ∈ refs, passed.name = root) ∧ r ∈ above := by
  induction lineage with
  | top none => exact ⟨[], .top none, rfl, by simp⟩
  | @step s base r rest extended defined rising ih =>
    by_cases here : r.name = root
    · have same : stood = base := Option.some.inj (found.symm.trans (here ▸ defined))
      have rest' := was.unique (same ▸ rising)
      refine ⟨r :: above, .step extended (here ▸ changed) becomes, ?_, ?_⟩
      · rw [List.length_cons, List.length_cons, length, rest']
      · intro other member
        rcases List.mem_cons.mp member with rfl | later
        · exact Or.inl List.mem_cons_self
        · exact Or.inr ⟨⟨r, List.mem_cons_self, here⟩, later⟩
    · obtain ⟨turned, lineage, same, each⟩ := ih
      refine ⟨r :: turned, .step extended (others r.name base here defined) lineage, ?_, ?_⟩
      · rw [List.length_cons, List.length_cons, same]
      · intro other member
        rcases List.mem_cons.mp member with rfl | later
        · exact Or.inl List.mem_cons_self
        · rcases each other later with old | ⟨⟨passed, inside, named⟩, new⟩
          · exact Or.inl (List.mem_cons_of_mem _ old)
          · exact Or.inr ⟨⟨passed, List.mem_cons_of_mem _ inside, named⟩, new⟩

end SchemaGraph.Definitions
