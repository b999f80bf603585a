import SchemaGraph.Pass.Basic
import SchemaGraph.Proofs.Entered

/- Walks that could have effects and have none. -/
namespace SchemaGraph

namespace Children
variable {α β : Type}

section
variable {m : Type → Type} [Monad m] [LawfulMonad m] {visit : List String → α → m β}
  {f : List String → α → Id β}

theorem walkMembers_eq_pure (keyword : String) (i : Nat) {l : List α}
    (same : ∀ a ∈ l, ∀ segments, visit segments a = pure (f segments a).run) :
    walkMembers visit keyword i l = pure (walkMembers f keyword i l).run := by
  induction l generalizing i with
  | nil => rfl
  | cons a rest ih =>
    obtain ⟨first, others⟩ := List.forall_mem_cons.mp same
    rw [walkMembers, first, pure_bind, ih (i + 1) others, pure_bind]
    rfl

theorem walkProperties_eq_pure {t : Table α}
    (same : ∀ e ∈ t, ∀ segments, visit segments e.2 = pure (f segments e.2).run) :
    walkProperties visit t = pure (walkProperties f t).run := by
  induction t with
  | nil => rfl
  | cons entry rest ih =>
    obtain ⟨first, others⟩ := List.forall_mem_cons.mp same
    rw [walkProperties, first, pure_bind, ih others, pure_bind]
    rfl

theorem walkOption_eq_pure {γ δ : Type} {visit : γ → m δ} {f : γ → Id δ} {o : Option γ}
    (same : ∀ a, o = some a → visit a = pure (f a).run) :
    walkOption visit o = pure (walkOption f o).run := by
  cases o with
  | none => rfl
  | some a =>
    rw [walkOption, same a rfl, pure_bind]
    rfl

end

/-- Where no visit has an effect, the walk is a change of the children. -/
theorem walk_eq_pure {m : Type → Type} [Monad m] [LawfulMonad m] {visit : List String → α → m α}
    {f : List String → α → α} {c : Children α}
    (same : c.entered.Each fun a => ∀ segments, visit segments a = pure (f segments a)) :
    c.walk visit = pure (c.mapEntered f) := by
  let g : List String → α → Id α := f
  have properties : walkOption (walkProperties visit) c.properties =
      pure (walkOption (walkProperties g) c.properties).run :=
    walkOption_eq_pure fun t held => walkProperties_eq_pure (same.properties t held)
  have items : walkOption (visit ["items"]) c.items = pure (walkOption (g ["items"]) c.items).run :=
    walkOption_eq_pure fun a held => same.items a held _
  have members (keyword : String) (o : Option (List α))
      (each : ∀ l, o = some l → ∀ a ∈ l, ∀ segments, visit segments a = pure (f segments a)) :
      walkOption (walkMembers visit keyword 0) o = pure (walkOption (walkMembers g keyword 0) o).run :=
    walkOption_eq_pure fun l held => walkMembers_eq_pure keyword 0 (each l held)
  rw [walk, properties, pure_bind, items, pure_bind, members "allOf" c.allOf same.allOf,
    pure_bind, members "oneOf" c.oneOf same.oneOf, pure_bind, members "anyOf" c.anyOf same.anyOf,
    pure_bind]
  exact congrArg pure (walk_run g c)

end Children

/-- Where no hook has an effect, the walk is one without effects. -/
theorem Schema.walk_eq_pure {m : Type → Type} [Monad m] [LawfulMonad m] {holds : Keywords → Prop}
    {hook : Position → Schema → m Schema} {plain : Position → Schema → Schema}
    (same : ∀ p s, holds s.keywords → hook p s = pure (plain p s)) (levels : Nat) (p : Position)
    {s : Schema} (every : s.EveryMet holds) : s.walk (.ofAfter hook) levels p =
      pure (s.walk ⟨fun _ s => s, plain⟩ levels p : Id Schema).run := by
  induction levels generalizing p s with
  | zero => rfl
  | succ levels ih =>
    obtain ⟨k, c⟩ := s
    obtain ⟨own, below⟩ := (everyMet_mk_iff k c).mp every
    have children : c.walk (fun segments child =>
          child.walk (.ofAfter hook) levels (p.child k.xml segments)) =
        pure (c.mapEntered fun segments child =>
          (child.walk ⟨fun _ s => s, plain⟩ levels (p.child k.xml segments) : Id Schema).run) := by
      refine Children.walk_eq_pure ((Children.each_iff _ _).mpr fun child listed segments => ?_)
      exact ih _ ((Children.each_iff _ _).mp below child listed)
    rw [Schema.walk, Visitor.ofAfter, pure_bind, ← Visitor.ofAfter, children, pure_bind, walk_succ]
    exact same p _ own

/-- A pass whose hooks neither fail nor look at the graph changes every definition by itself. -/
theorem Document.walkAfter_eq_changeAfter {holds : Keywords → Prop}
    {hook : Definitions → Position → Schema → Except Error Schema} {plain : Position → Schema → Schema}
    (same : ∀ graph p s, holds s.keywords → hook graph p s = .ok (plain p s)) {d : Document}
    (every : ∀ e ∈ d.definitions, e.2.EveryMet holds) :
    d.walkAfter hook = (d.changeAfter plain, .ok ()) := by
  let visitor (graph : Definitions) : Visitor (ExceptT Error Id) :=
    .ofAfter fun p s => ExceptT.mk (pure (hook graph p s))
  have walked (rest finished : Definitions) (each : ∀ e ∈ rest, e.2.EveryMet holds) :
      (Definitions.walkFrom d.flavor 0 visitor finished rest).run =
        (finished ++ rest.change d.flavor ⟨fun _ s => s, plain⟩, .ok ()) := by
    induction rest generalizing finished with
    | nil => simp [Definitions.walkFrom, Definitions.change]
    | cons entry rest ih =>
      obtain ⟨name, root⟩ := entry
      obtain ⟨here, later⟩ := List.forall_mem_cons.mp each
      have agrees (p : Position) (s : Schema) (own : holds s.keywords) :
          (ExceptT.mk (pure (hook (finished ++ (name, root) :: rest) p s)) : ExceptT Error Id Schema) =
            pure (plain p s) := by
        rw [same _ p s own]
        rfl
      have success : root.walk (visitor (finished ++ (name, root) :: rest)) (root.levels + 0)
            { flavor := d.flavor, definition := name } = pure (root.walk ⟨fun _ s => s, plain⟩
              root.levels { flavor := d.flavor, definition := name } : Id Schema).run :=
        Schema.walk_eq_pure agrees root.levels _ here
      rw [Definitions.walkFrom, success]
      refine (ih _ later).trans ?_
      rw [List.append_assoc]
      rfl
  have whole := walked d.definitions [] every
  rw [List.nil_append] at whole
  have unfolded : d.walkAfter hook =
      ({ d with definitions := (Definitions.walkFrom d.flavor 0 visitor [] d.definitions).run.1 },
        (Definitions.walkFrom d.flavor 0 visitor [] d.definitions).run.2) := rfl
  rw [unfolded, whole]
  rfl

end SchemaGraph
