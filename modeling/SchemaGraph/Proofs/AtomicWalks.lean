import SchemaGraph.Walk

/- Walks that fail. A walk goes from one definition to the next, and a definition is either left as its
   own walk has made it or as it came in: whatever the hooks do to nodes and to their state, a failure
   takes back the definition that it happens in and none before it. -/
namespace SchemaGraph

namespace Definitions
variable {σ : Type} (flavor : Flavor) (growth : Nat)
  (visitor : Definitions → Visitor (ExceptT Error (StateM σ)))

/-- What becomes of one definition and of the visitor's state when the hooks see the graph. -/
def walkOf (graph : Definitions) (name : String) (root : Schema) (state : σ) :
    Except Error Schema × σ :=
  (root.walk (visitor graph) (root.levels + growth) { flavor, definition := name }).run.run state

theorem run_walkFrom_cons (finished later : Definitions) (name : String) (root : Schema) (state : σ) :
    (walkFrom flavor growth visitor finished ((name, root) :: later)).run state =
      match walkOf flavor growth visitor (finished ++ (name, root) :: later) name root state with
      | (.ok changed, next) =>
        (walkFrom flavor growth visitor (finished ++ [(name, changed)]) later).run next
      | (.error e, next) => ((finished ++ (name, root) :: later, .error e), next) := by
  rw [walkFrom, StateT.run_bind, walkOf]
  obtain ⟨_ | changed, next⟩ := (root.walk (visitor (finished ++ (name, root) :: later))
    (root.levels + growth) { flavor, definition := name }).run.run state
  · rfl
  · rfl

/-- The first `done` of the definitions are left as their own walks have made them, the others as they
came in. A walk sees the definitions before it as they are left and the others as they came in; the
visitor's state goes from one walk to the next. -/
structure LeftAfter (finished rest left : Definitions) (done : Nat) (states : Nat → σ) : Prop where
  keys : left.keys = rest.keys
  done_le : done ≤ rest.length
  untouched : left.drop done = rest.drop done
  walked i (before : i < done) : ∃ name root changed, rest[i]? = some (name, root) ∧
    left[i]? = some (name, changed) ∧
    walkOf flavor growth visitor (finished ++ (left.take i ++ rest.drop i)) name root (states i) =
      (.ok changed, states (i + 1))

variable {flavor growth visitor}

theorem LeftAfter.none (finished rest : Definitions) (states : Nat → σ) :
    LeftAfter flavor growth visitor finished rest rest 0 states where
  keys := rfl
  done_le := Nat.zero_le _
  untouched := rfl
  walked i before := absurd before (Nat.not_lt_zero i)

/-- A walk that ends comes before those of the later definitions. -/
theorem LeftAfter.cons {finished later left : Definitions} {name : String} {root changed : Schema}
    {state : σ} {done : Nat} {states : Nat → σ}
    (walked : walkOf flavor growth visitor (finished ++ (name, root) :: later) name root state =
      (.ok changed, states 0))
    (h : LeftAfter flavor growth visitor (finished ++ [(name, changed)]) later left done states) :
    LeftAfter flavor growth visitor finished ((name, root) :: later) ((name, changed) :: left)
      (done + 1) (fun | 0 => state | i + 1 => states i) where
  keys := congrArg (name :: ·) h.keys
  done_le := Nat.succ_le_succ h.done_le
  untouched := h.untouched
  walked i before := by
    cases i with
    | zero => exact ⟨name, root, changed, rfl, rfl, walked⟩
    | succ i =>
      obtain ⟨name', root', changed', came, leaves, walked⟩ := h.walked i (by omega)
      rw [List.append_assoc] at walked
      exact ⟨name', root', changed', came, leaves, walked⟩

variable (flavor growth visitor) in
theorem exists_leftAfter (finished rest : Definitions) (start : σ) :
    ∃ left done states, LeftAfter flavor growth visitor finished rest left done states ∧
      states 0 = start ∧
      (done = rest.length ∧ (walkFrom flavor growth visitor finished rest).run start =
          ((finished ++ left, .ok ()), states done) ∨
        ∃ name root e after, rest[done]? = some (name, root) ∧
          walkOf flavor growth visitor (finished ++ left) name root (states done) =
            (.error e, after) ∧
          (walkFrom flavor growth visitor finished rest).run start =
            ((finished ++ left, .error e), after)) := by
  induction rest generalizing finished start with
  | nil =>
    refine ⟨[], 0, fun _ => start, .none finished [] _, rfl, .inl ⟨rfl, ?_⟩⟩
    rw [List.append_nil]
    rfl
  | cons entry later ih =>
    obtain ⟨name, root⟩ := entry
    have step := run_walkFrom_cons flavor growth visitor finished later name root start
    match walked : walkOf flavor growth visitor (finished ++ (name, root) :: later) name root start with
    | (.error e, after) =>
      rw [walked] at step
      -- Nothing is finished from here on: the failed definition and the later ones stay.
      exact ⟨_, 0, fun _ => start, .none finished _ _, rfl,
        .inr ⟨name, root, e, after, rfl, walked, step⟩⟩
    | (.ok changed, next) =>
      rw [walked] at step
      obtain ⟨left, done, states, leaves, rfl, ended⟩ := ih (finished ++ [(name, changed)]) next
      rw [List.append_assoc] at ended
      refine ⟨(name, changed) :: left, done + 1, _, leaves.cons walked, rfl, ?_⟩
      rcases ended with ⟨rfl, ran⟩ | ⟨name', root', e, after, came, failed, ran⟩
      · exact .inl ⟨rfl, step.trans ran⟩
      · exact .inr ⟨name', root', e, after, came, failed, step.trans ran⟩

/-- The walk goes through the definitions in their order and leaves all names in place. It finishes some
definitions from the first on, each in the graph of those before it in their final form and of the others
in their original form; then it has finished all of them, or the next one fails and this and all later
ones are as they came in. -/
theorem walk_atomic (flavor : Flavor) (growth : Nat)
    (visitor : Definitions → Visitor (ExceptT Error (StateM σ))) (definitions : Definitions)
    (start : σ) :
    ∃ (left : Definitions) (done : Nat) (states : Nat → σ),
      left.keys = definitions.keys ∧ done ≤ definitions.length ∧
      left.drop done = definitions.drop done ∧ states 0 = start ∧
      (∀ i < done, ∃ name root changed, definitions[i]? = some (name, root) ∧
        left[i]? = some (name, changed) ∧
        walkOf flavor growth visitor (left.take i ++ definitions.drop i) name root (states i) =
          (.ok changed, states (i + 1))) ∧
      (done = definitions.length ∧
          (definitions.walk flavor growth visitor).run start = ((left, .ok ()), states done) ∨
        ∃ name root e after, definitions[done]? = some (name, root) ∧
          walkOf flavor growth visitor (left.take done ++ definitions.drop done) name root
            (states done) = (.error e, after) ∧
          (definitions.walk flavor growth visitor).run start = ((left, .error e), after)) := by
  obtain ⟨left, done, states, leaves, started, ended⟩ :=
    exists_leftAfter flavor growth visitor [] definitions start
  have graph : left.take done ++ definitions.drop done = left := by
    rw [← leaves.untouched, List.take_append_drop]
  refine ⟨left, done, states, leaves.keys, leaves.done_le, leaves.untouched, started, leaves.walked, ?_⟩
  rw [graph]
  exact ended

end Definitions
end SchemaGraph
