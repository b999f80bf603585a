import SchemaGraph.Proofs.Each
import SchemaGraph.Walk

/- What all results of a computation satisfy, whatever the effects of the computation are, and the
   walk as a computation: a visitor whose hooks keep the nodes of a schema within a predicate keeps
   those of every definition within it. -/
namespace SchemaGraph

/-- A way to say that the results of a computation satisfy a predicate. -/
structure Guarantee (m : Type → Type) [Monad m] where
  Holds {α : Type} : (α → Prop) → m α → Prop
  mono {α : Type} {p q : α → Prop} {x : m α} : Holds p x → (∀ a, p a → q a) → Holds q x
  pure {α : Type} {p : α → Prop} {a : α} : p a → Holds p (Pure.pure a)
  bind {α β : Type} {p : α → Prop} {q : β → Prop} {x : m α} {f : α → m β} :
    Holds p x → (∀ a, p a → Holds q (f a)) → Holds q (x >>= f)

/-- The result satisfies `p`, or the error is an allowed one. -/
def Ends {α : Type} (allowed : Error → Prop) (p : α → Prop) : Except Error α → Prop
  | .ok a => p a
  | .error e => allowed e

theorem Ends.mono {α : Type} {allowed : Error → Prop} {p q : α → Prop} {x : Except Error α}
    (h : Ends allowed p x) (weaker : ∀ a, p a → q a) : Ends allowed q x := by
  cases x with
  | ok a => exact weaker a h
  | error e => exact h

theorem Ends.bind {α β : Type} {allowed : Error → Prop} {p : α → Prop} {q : β → Prop}
    {x : Except Error α} {f : α → Except Error β} (hx : Ends allowed p x)
    (hf : ∀ a, p a → Ends allowed q (f a)) : Ends allowed q (x >>= f) := by
  cases x with
  | ok a => exact hf a hx
  | error e => exact hx

namespace Guarantee

def plain : Guarantee Id where
  Holds p x := p x.run
  mono h weaker := weaker _ h
  pure h := h
  bind hx hf := hf _ hx

/-- From every state. -/
def state (σ : Type) : Guarantee (StateM σ) where
  Holds p x := ∀ s, p (x.run s).1
  mono h weaker s := weaker _ (h s)
  pure h _ := h
  bind hx hf s := hf _ (hx s) _

def checked (allowed : Error → Prop) : Guarantee (Except Error) where
  Holds := Ends allowed
  mono := Ends.mono
  pure h := h
  bind hx hf := hx.bind hf

variable {m : Type → Type} [Monad m]

/-- With errors of which some are allowed. -/
def throwing (g : Guarantee m) (allowed : Error → Prop) : Guarantee (ExceptT Error m) where
  Holds p x := g.Holds (Ends allowed p) x.run
  mono h weaker := g.mono h fun _ ended => ended.mono weaker
  pure h := g.pure h
  bind hx hf := g.bind hx fun result ended => by
    cases result with
    | ok a => exact hf a ended
    | error e => exact g.pure ended

variable (g : Guarantee m) {α β : Type} {p : β → Prop}

theorem lift {allowed : Error → Prop} {x : Except Error β} (ends : Ends allowed p x) :
    (g.throwing allowed).Holds p (liftM x) := g.pure ends

theorem mapM [LawfulMonad m] {f : α → m β} {l : List α} (each : ∀ a ∈ l, g.Holds p (f a)) :
    g.Holds (fun l => ∀ b ∈ l, p b) (l.mapM f) := by
  induction l with
  | nil =>
    rw [List.mapM_nil]
    exact g.pure (by simp)
  | cons a rest ih =>
    rw [List.mapM_cons]
    refine g.bind (each a List.mem_cons_self) fun b first => ?_
    refine g.bind (ih fun a member => each a (List.mem_cons_of_mem _ member)) fun bs others => ?_
    exact g.pure (List.forall_mem_cons.mpr ⟨first, others⟩)

theorem walkOption {visit : α → m β} {o : Option α} (each : ∀ a, o = some a → g.Holds p (visit a)) :
    g.Holds (fun o => ∀ b, o = some b → p b) (SchemaGraph.walkOption visit o) := by
  cases o with
  | none => exact g.pure (by simp)
  | some a => exact g.bind (each a rfl) fun b visited => g.pure (by simpa using visited)

theorem walkMembers {visit : List String → α → m β} {l : List α} (keyword : String) (i : Nat)
    (each : ∀ a ∈ l, ∀ segments, g.Holds p (visit segments a)) :
    g.Holds (fun l => ∀ b ∈ l, p b) (SchemaGraph.walkMembers visit keyword i l) := by
  induction l generalizing i with
  | nil => exact g.pure (by simp)
  | cons a rest ih =>
    refine g.bind (each a List.mem_cons_self _) fun b first => ?_
    refine g.bind (ih (i + 1) fun a member => each a (List.mem_cons_of_mem _ member))
      fun bs others => ?_
    exact g.pure (List.forall_mem_cons.mpr ⟨first, others⟩)

theorem walkProperties {visit : List String → α → m β} {t : Table α}
    (each : ∀ e ∈ t, ∀ segments, g.Holds p (visit segments e.2)) :
    g.Holds (fun t => ∀ e ∈ t, p e.2) (SchemaGraph.walkProperties visit t) := by
  induction t with
  | nil => exact g.pure (by simp)
  | cons entry rest ih =>
    refine g.bind (each entry List.mem_cons_self _) fun b first => ?_
    refine g.bind (ih fun e member => each e (List.mem_cons_of_mem _ member)) fun bs others => ?_
    exact g.pure (List.forall_mem_cons.mpr ⟨first, others⟩)

/-- The children that the walk enters are replaced, the others stay. -/
theorem walkEntered {p q : α → Prop} {visit : List String → α → m α} {c : Children α}
    (within : c.entered.Each p) (each : ∀ a, p a → ∀ segments, g.Holds q (visit segments a)) :
    g.Holds (fun walked => walked.entered.Each q ∧ walked.skipped = c.skipped)
      (c.walk visit) := by
  refine g.bind (g.walkOption fun t h => g.walkProperties fun e member =>
    each e.2 (within.properties t h e member)) fun properties inProperties => ?_
  refine g.bind (g.walkOption fun a h => each a (within.items a h) _) fun items inItems => ?_
  refine g.bind (g.walkOption fun l h => g.walkMembers _ _ fun a member =>
    each a (within.allOf l h a member)) fun allOf inAllOf => ?_
  refine g.bind (g.walkOption fun l h => g.walkMembers _ _ fun a member =>
    each a (within.oneOf l h a member)) fun oneOf inOneOf => ?_
  refine g.bind (g.walkOption fun l h => g.walkMembers _ _ fun a member =>
    each a (within.anyOf l h a member)) fun anyOf inAnyOf => ?_
  exact g.pure ⟨⟨by simp [Children.entered], inItems, by simp [Children.entered], inProperties,
    inAllOf, inOneOf, inAnyOf⟩, rfl⟩

end Guarantee

/-- A predicate that a walk can keep: it holds of the children that a walk enters, and of a node in
which it holds of what these were replaced by. -/
structure Hereditary (p : Schema → Prop) : Prop where
  below : ∀ k c, p ⟨k, c⟩ → c.entered.Each p
  walked : ∀ k c walked, p ⟨k, c⟩ → walked.entered.Each p → walked.skipped = c.skipped →
    p ⟨k, walked⟩

theorem Schema.hereditary_every (holds : Keywords → Prop) : Hereditary (Schema.Every holds) where
  below k c h := ((Children.each_iff_entered _ c).mp h.below).1
  walked k c walked h entered same := by
    have skipped := ((Children.each_iff_entered _ c).mp h.below).2
    exact .mk h.own ((Children.each_iff_entered _ walked).mpr ⟨entered, same ▸ skipped⟩)

/-- Both hooks keep a schema within the predicate. -/
structure Visitor.Keeps {m : Type → Type} [Monad m] (g : Guarantee m) (p : Schema → Prop)
    (v : Visitor m) : Prop where
  before : ∀ position s, p s → g.Holds p (v.before position s)
  after : ∀ position s, p s → g.Holds p (v.after position s)

theorem Visitor.keeps_ofAfter {m : Type → Type} [Monad m] {g : Guarantee m} {p : Schema → Prop}
    {after : Position → Schema → m Schema}
    (h : ∀ position s, p s → g.Holds p (after position s)) : (Visitor.ofAfter after).Keeps g p :=
  ⟨fun _ _ within => g.pure within, h⟩

theorem Hereditary.walk {m : Type → Type} [Monad m] {g : Guarantee m} {p : Schema → Prop}
    (hereditary : Hereditary p) {v : Visitor m} (keeps : v.Keeps g p) (levels : Nat)
    (position : Position) {s : Schema} (within : p s) : g.Holds p (s.walk v levels position) := by
  induction levels generalizing position s with
  | zero => exact g.pure within
  | succ levels ih =>
    refine g.bind (keeps.before position s within) fun ⟨k, c⟩ entered => ?_
    -- The hook may have replaced the node, so the children walked are those of the new one.
    refine g.bind (g.walkEntered (hereditary.below k c entered) fun child inChild segments =>
      ih (position.child k.xml segments) inChild) fun walked ⟨each, same⟩ => ?_
    exact keeps.after position _ (hereditary.walked k c walked entered each same)

/-- A walk with enough levels for all nodes, whose hook runs after the nodes below. `before` holds of
the nodes that the walk enters as they came in, `after` of what becomes of them. -/
theorem Guarantee.walkAfter {m : Type → Type} [Monad m] (g : Guarantee m)
    {before after : Schema → Prop} {hook : Position → Schema → m Schema}
    (enter : ∀ k c, before ⟨k, c⟩ → c.entered.Each before)
    (leave : ∀ position k c walked, before ⟨k, c⟩ → walked.entered.Each after →
      walked.skipped = c.skipped → g.Holds after (hook position ⟨k, walked⟩))
    {levels : Nat} (position : Position) {s : Schema} (enough : s.levels ≤ levels)
    (h : before s) : g.Holds after (s.walk (.ofAfter hook) levels position) := by
  induction levels generalizing position s with
  | zero => exact absurd s.levels_pos (by omega)
  | succ levels ih =>
    obtain ⟨k, c⟩ := s
    refine g.bind (p := (· = ⟨k, c⟩)) (g.pure rfl) ?_
    rintro _ rfl
    have smaller : c.entered.Each fun child => before child ∧ child.levels ≤ levels := by
      refine (Children.each_iff _ _).mpr fun child member => ?_
      have lower := Schema.levels_lt_of_mem (k := k)
        ((c.mem_toList_iff child).mpr (Or.inl member))
      exact ⟨(Children.each_iff _ _).mp (enter k c h) child member, by omega⟩
    refine g.bind (g.walkEntered smaller fun child inside segments =>
      ih (position.child k.xml segments) inside.2 inside.1) ?_
    exact fun walked ⟨entered, same⟩ => leave position k c walked h entered same

section
variable {m : Type → Type} [Monad m] (g : Guarantee m)

/-- What holds of the finished roots and of those to come, whenever a root is finished. A walk that
fails leaves it so; one that does not has finished all roots. -/
theorem Guarantee.walkFrom (flavor : Flavor) (growth : Nat) (allowed : Error → Prop)
    (holds : Definitions → Definitions → Prop) {after : Definitions × Except Error Unit → Prop}
    {visitor : Definitions → Visitor (ExceptT Error m)}
    (step : ∀ finished name root rest, holds finished ((name, root) :: rest) →
      (g.throwing allowed).Holds (fun changed => holds (finished ++ [(name, changed)]) rest)
        (root.walk (visitor (finished ++ (name, root) :: rest)) (root.levels + growth)
          { flavor, definition := name }))
    (ends : ∀ finished, holds finished [] → after (finished, .ok ()))
    (fails : ∀ finished rest e, holds finished rest → allowed e → after (finished ++ rest, .error e))
    (finished rest : Definitions) (start : holds finished rest) :
    g.Holds after (Definitions.walkFrom flavor growth visitor finished rest) := by
  induction rest generalizing finished with
  | nil => exact g.pure (ends finished start)
  | cons entry rest ih =>
    obtain ⟨name, root⟩ := entry
    refine g.bind (step finished name root rest start) fun result ended => ?_
    cases result with
    | ok changed => exact ih _ ended
    | error e => exact g.pure (fails finished _ e start ended)

end

theorem Definitions.forall_change {p : Schema → Prop} (hereditary : Hereditary p) {v : Visitor Id}
    (keeps : v.Keeps .plain p) (flavor : Flavor) {definitions : Definitions}
    (each : ∀ e ∈ definitions, p e.2) : ∀ e ∈ definitions.change flavor v, p e.2 := by
  intro _ member
  obtain ⟨e, listed, rfl⟩ := List.mem_map.mp member
  exact hereditary.walk keeps _ _ (each e listed)

end SchemaGraph
