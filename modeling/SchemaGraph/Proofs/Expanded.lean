import SchemaGraph.Pass.TypeExpansion
import SchemaGraph.Proofs.Entered

/- Expanding `typeOf` until nothing is left to expand: a round that notes no expansion met no node
   with a `typeOf`, and only after such a round does the pass succeed. -/
namespace SchemaGraph

/-- When the computation succeeds and nothing is noted in the end, nothing was noted before, and the
result satisfies the predicate. -/
def Silent {α : Type} (p : α → Prop) (x : ExceptT Error (StateM Bool) α) : Prop :=
  ∀ noted a, x.run.run noted = (.ok a, false) → noted = false ∧ p a

namespace Silent
variable {α β : Type} {p : α → Prop} {q : β → Prop}

theorem pure {a : α} (h : p a) : Silent p (Pure.pure a) := by
  rintro noted _ ⟨⟩
  exact ⟨rfl, h⟩

theorem bind {x : ExceptT Error (StateM Bool) α} {f : α → ExceptT Error (StateM Bool) β}
    (first : Silent p x) (next : ∀ a, Silent (fun b => p a → q b) (f a)) : Silent q (x >>= f) := by
  intro noted b ran
  rw [ExceptT.run_bind, StateT.run_bind] at ran
  generalize here : x.run.run noted = out at ran
  obtain ⟨_ | a, between⟩ := out
  · cases ran
  · obtain ⟨rfl, holds⟩ := next a between b ran
    obtain ⟨start, given⟩ := first noted a here
    exact ⟨start, holds given⟩

section
variable {visit : List String → α → ExceptT Error (StateM Bool) β}

theorem walkOption {γ : Type} {p : γ → Prop} {visit : α → ExceptT Error (StateM Bool) γ} {o : Option α}
    (each : ∀ a, o = some a → Silent p (visit a)) :
    Silent (fun o => ∀ b, o = some b → p b) (SchemaGraph.walkOption visit o) := by
  cases o with
  | none => exact pure (by simp)
  | some a => exact (each a rfl).bind fun b => pure fun given => forall_eq_some given

theorem walkMembers (keyword : String) (i : Nat) {l : List α}
    (each : ∀ a ∈ l, ∀ segments, Silent q (visit segments a)) :
    Silent (fun l => ∀ b ∈ l, q b) (SchemaGraph.walkMembers visit keyword i l) := by
  induction l generalizing i with
  | nil => exact pure (by simp)
  | cons a rest ih =>
    obtain ⟨here, later⟩ := List.forall_mem_cons.mp each
    refine (here _).bind fun b => (ih (i + 1) later).bind fun bs => pure fun others first => ?_
    exact List.forall_mem_cons.mpr ⟨first, others⟩

theorem walkProperties {t : Table α}
    (each : ∀ e ∈ t, ∀ segments, Silent q (visit segments e.2)) :
    Silent (fun t => ∀ e ∈ t, q e.2) (SchemaGraph.walkProperties visit t) := by
  induction t with
  | nil => exact pure (by simp)
  | cons entry rest ih =>
    obtain ⟨here, later⟩ := List.forall_mem_cons.mp each
    refine (here _).bind fun b => (ih later).bind fun bs => pure fun others first => ?_
    exact List.forall_mem_cons.mpr ⟨first, others⟩

end

theorem walkChildren {visit : List String → α → ExceptT Error (StateM Bool) α} {c : Children α}
    (each : c.entered.Each fun a => ∀ segments, Silent p (visit segments a)) :
    Silent (fun walked => walked.entered.Each p) (c.walk visit) := by
  refine (walkOption fun t found => walkProperties (each.properties t found)).bind fun properties => ?_
  refine (walkOption fun a found => each.items a found _).bind fun items => ?_
  refine (walkOption fun l found => walkMembers _ _ (each.allOf l found)).bind fun allOf => ?_
  refine (walkOption fun l found => walkMembers _ _ (each.oneOf l found)).bind fun oneOf => ?_
  refine (walkOption fun l found => walkMembers _ _ (each.anyOf l found)).bind fun anyOf => ?_
  refine pure fun inAnyOf inOneOf inAllOf inItems inProperties => ?_
  exact ⟨by simp [Children.entered], inItems, by simp [Children.entered], inProperties,
    inAllOf, inOneOf, inAnyOf⟩

section
variable {holds : Keywords → Prop} {hook : Position → Schema → ExceptT Error (StateM Bool) Schema}
  (silent : ∀ position s, Silent (fun t => t = s ∧ holds s.keywords) (hook position s))
include silent

theorem walk {levels : Nat} (position : Position) {s : Schema} (enough : s.levels ≤ levels) :
    Silent (Schema.EveryMet holds) (s.walk (.ofAfter hook) levels position) := by
  induction levels generalizing position s with
  | zero => exact absurd s.levels_pos (by omega)
  | succ levels ih =>
    obtain ⟨k, c⟩ := s
    have below : Silent (fun walked => walked.entered.Each (Schema.EveryMet holds))
        (c.walk fun segments child =>
          child.walk (.ofAfter hook) levels (position.child k.xml segments)) := by
      refine walkChildren ((Children.each_iff _ _).mpr fun child member segments => ih _ ?_)
      have lower := Schema.levels_lt_of_mem (k := k)
        ((c.mem_toList_iff child).mpr (Or.inl member))
      omega
    rw [Schema.walk, Visitor.ofAfter, pure_bind, ← Visitor.ofAfter]
    refine below.bind fun walked noted t ran => ?_
    obtain ⟨start, rfl, own⟩ := silent position ⟨k, walked⟩ noted t ran
    exact ⟨start, fun each => (Schema.everyMet_mk_iff k walked).mpr ⟨own, each⟩⟩

end

theorem walkFrom {holds : Keywords → Prop} (flavor : Flavor)
    {hook : Definitions → Position → Schema → ExceptT Error (StateM Bool) Schema}
    (silent : ∀ graph position s, Silent (fun t => t = s ∧ holds s.keywords) (hook graph position s))
    {finished rest left : Definitions} {noted : Bool}
    (ran : (Definitions.walkFrom flavor 0 (fun graph => .ofAfter (hook graph)) finished rest).run noted =
      ((left, .ok ()), false)) :
    noted = false ∧
      ((∀ e ∈ finished, e.2.EveryMet holds) → ∀ e ∈ left, e.2.EveryMet holds) := by
  induction rest generalizing finished noted with
  | nil =>
    cases ran
    exact ⟨rfl, id⟩
  | cons entry rest ih =>
    obtain ⟨name, root⟩ := entry
    have here := walk (silent (finished ++ (name, root) :: rest)) { flavor, definition := name }
      (Nat.le_refl root.levels) noted
    rw [Definitions.walkFrom, StateT.run_bind] at ran
    dsimp only [Nat.add_zero] at ran
    generalize StateT.run (ExceptT.run (root.walk (.ofAfter (hook (finished ++ (name, root) :: rest)))
      root.levels { flavor, definition := name })) noted = out at ran here
    obtain ⟨_ | changed, between⟩ := out
    · cases ran
    · obtain ⟨rfl, others⟩ := ih ran
      obtain ⟨start, given⟩ := here changed rfl
      refine ⟨start, fun each => others (List.forall_mem_append.mpr ⟨each, ?_⟩)⟩
      exact List.forall_mem_singleton.mpr given

end Silent

namespace TypeExpansion
variable {dictionary : Dictionary} {maxDepth : Nat}

theorem silent_after (graph : Definitions) (position : Position) (s : Schema) :
    Silent (fun t => t = s ∧ s.keywords.typeOf = none)
      (after dictionary maxDepth graph position s) := by
  rw [after]
  split
  · rename_i expanded
    exact .pure ⟨rfl, expanded⟩
  · have lifted (x : Except Error Schema) : Silent (fun _ => True)
        (liftM x : ExceptT Error (StateM Bool) Schema) := by
      rintro noted t ⟨⟩
      exact ⟨rfl, trivial⟩
    have noting : Silent (fun _ => False) (set true : ExceptT Error (StateM Bool) PUnit) := by
      rintro noted _ ⟨⟩
    exact (lifted _).bind fun expanded => noting.bind fun _ => .pure fun never _ => never.elim

/-- Where nothing was noted, no node that the walks meet has the shape of another one. -/
theorem expanded_of_silent {d left : Document} {noted : Bool}
    (ran : (d.walkAfterM (after dictionary maxDepth)).run noted = ((left, .ok ()), false)) :
    ∀ e ∈ left.definitions, e.2.EveryMet (·.typeOf = none) := by
  let out := (Definitions.walkFrom d.flavor 0
    (fun graph => .ofAfter (after dictionary maxDepth graph)) [] d.definitions).run noted
  have unfolded : (d.walkAfterM (after dictionary maxDepth)).run noted =
      (({ d with definitions := out.1.1 }, out.1.2), out.2) := rfl
  rw [unfolded, Prod.mk.injEq, Prod.mk.injEq] at ran
  obtain ⟨⟨rfl, ended⟩, quiet⟩ := ran
  have walked : out = ((out.1.1, .ok ()), false) := by
    rw [← ended, ← quiet]
    rfl
  exact (Silent.walkFrom d.flavor silent_after walked).2 (by simp)

theorem expanded_expandAll {rounds : Nat} {d left : Document}
    (ran : expandAll dictionary maxDepth rounds d = (left, .ok ())) :
    ∀ e ∈ left.definitions, e.2.EveryMet (·.typeOf = none) := by
  fun_induction expandAll dictionary maxDepth rounds d with
  | case1 => cases ran
  | case2 rounds d last _ walked =>
    cases ran
    exact expanded_of_silent walked
  | case3 => cases ran
  | case4 d last _ rounds walked ih => exact ih ran

theorem expanded_run {options : Options} {d left : Document} {report : Report}
    (ran : run dictionary options d = (left, .ok report)) :
    ∀ e ∈ left.definitions, e.2.EveryMet (·.typeOf = none) := by
  rw [run] at ran
  generalize all : expandAll dictionary options.maxDepth options.maxDepth d = out at ran
  obtain ⟨last, _ | _⟩ := out
  · cases ran
  · have expanded := expanded_expandAll all
    dsimp only at ran
    split at ran
    · cases ran
      refine List.forall_mem_map.mpr fun ⟨name, k, c⟩ listed => ?_
      obtain ⟨own, below⟩ := (Schema.everyMet_mk_iff k c).mp (expanded _ listed)
      exact (Schema.everyMet_mk_iff _ _).mpr ⟨own, below⟩
    · cases ran
      exact expanded

end TypeExpansion
end SchemaGraph
