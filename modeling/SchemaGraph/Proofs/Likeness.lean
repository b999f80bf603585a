import SchemaGraph.Proofs.Guarantee

/- Two computations side by side, perhaps with different effects, that come to the same result. The
   relation is closed under what walks are made of. -/
namespace SchemaGraph

theorem Schema.hereditary_true : Hereditary fun _ : Schema => True :=
  ⟨fun _ _ _ => (Children.each_iff _ _).mpr fun _ _ => trivial, fun _ _ _ _ _ _ => trivial⟩

/-- A way to say that two computations come to the same results and that these satisfy a
predicate. -/
structure Likeness (m n : Type → Type) [Monad m] [Monad n] where
  Alike {α : Type} : (α → Prop) → m α → n α → Prop
  pure {α : Type} {p : α → Prop} {a : α} : p a → Alike p (Pure.pure a) (Pure.pure a)
  bind {α β : Type} {p : α → Prop} {q : β → Prop} {x : m α} {y : n α} {f : α → m β} {g : α → n β} :
    Alike p x y → (∀ a, p a → Alike q (f a) (g a)) → Alike q (x >>= f) (y >>= g)

namespace Likeness
variable {m n : Type → Type} [Monad m] [Monad n]

/-- With errors, the same on both sides. -/
def throwing (like : Likeness m n) : Likeness (ExceptT Error m) (ExceptT Error n) where
  Alike p x y := like.Alike (Ends (fun _ => True) p) x.run y.run
  pure h := like.pure h
  bind hx hf := like.bind hx fun result ended => by
    cases result with
    | ok a => exact hf a ended
    | error e => exact like.pure trivial

variable (like : Likeness m n)

/-- Two walks through the definitions are alike when those of every root are, whatever the graph. -/
theorem walkFrom (flavor : Flavor) (growth : Nat)
    {visitor : Definitions → Visitor (ExceptT Error m)}
    {other : Definitions → Visitor (ExceptT Error n)}
    (alike : ∀ graph levels position s, like.throwing.Alike (fun _ => True)
      (Schema.walk (visitor graph) levels position s) (s.walk (other graph) levels position))
    (finished rest : Definitions) : like.Alike (fun _ => True)
      (Definitions.walkFrom flavor growth visitor finished rest)
      (Definitions.walkFrom flavor growth other finished rest) := by
  induction rest generalizing finished with
  | nil => exact like.pure trivial
  | cons entry rest ih =>
    obtain ⟨name, root⟩ := entry
    refine like.bind (alike _ _ _ root) fun result _ => ?_
    cases result with
    | ok changed => exact ih (finished ++ [(name, changed)])
    | error e => exact like.pure trivial

end Likeness
end SchemaGraph
