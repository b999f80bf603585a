import Mathlib.Data.List.Induction
import SchemaGraph.Proofs.OptionalBranches
import SchemaGraph.Proofs.SteppedWalks

/- Places in a schema and walks that may fail. Every node that a walk enters is walked, and where the
   hooks keep the children of the nodes above a place, what is made of the node stands there again. -/
namespace SchemaGraph

theorem Place.isEntered_cons {step : Step} {rest : Place} :
    Place.isEntered (step :: rest) = true ↔ step.isEntered = true ∧ rest.isEntered = true := by
  rw [isEntered, List.all_cons, Bool.and_eq_true]
  rfl

/-- A node above the place, on the way from the root, is a stop. -/
def Place.passes (stop : Keywords → Bool) : Place → Schema → Bool
  | [], _ => false
  | step :: rest, s => stop s.keywords || (s.children.child? step).any (passes stop rest)

section
variable (hook : Position → Schema → Except Error Schema)

/-- A walk that reaches all nodes of the schema makes this of it. -/
def Walked (s left : Schema) : Prop :=
  ∃ levels p, s.levels ≤ levels ∧ (s.walk (.ofAfter fun p s =>
    ExceptT.mk (pure (hook p s) : Id (Except Error Schema))) levels p).run.run = .ok left

variable {hook} {stop : Keywords → Bool} {root root' : Schema}

/-- The children are walked before the hook comes to the node. -/
theorem Walked.exists_hook {k : Keywords} {c : Children Schema} {left : Schema}
    (walked : Walked hook ⟨k, c⟩ left) :
    ∃ p below, c.Related (Walked hook) below ∧ hook p ⟨k, below⟩ = .ok left := by
  obtain ⟨levels, p, enough, ran⟩ := walked
  cases levels with
  | zero => exact absurd (Schema.levels_pos ⟨k, c⟩) (by omega)
  | succ levels =>
    let visit (p : Position) (s : Schema) : ExceptT Error Id Schema := ExceptT.mk (pure (hook p s))
    let like := (Guarantee.plain.throwing fun _ => True).alone
    have smaller : c.entered.Each fun child => child.levels ≤ levels := by
      refine (Children.each_iff _ _).mpr fun child member => ?_
      have lower := Schema.levels_lt_of_mem (k := k) ((c.mem_toList_iff child).mpr (Or.inl member))
      omega
    have children : like.Alike (c.Related (Walked hook))
        (c.walk fun segments child => child.walk (.ofAfter visit) levels (p.child k.xml segments))
        (c.walk fun segments child =>
          child.walk (.ofAfter visit) levels (p.child k.xml segments)) := by
      refine like.relatedChildren smaller fun child lower segments => ?_
      change Ends _ (Walked hook child)
        (child.walk (.ofAfter visit) levels (p.child k.xml segments)).run.run
      cases below : (child.walk (.ofAfter visit) levels (p.child k.xml segments)).run.run with
      | error e => exact trivial
      | ok child' => exact ⟨levels, _, lower, below⟩
    have whole := like.bind children (q := fun left =>
        ∃ p below, c.Related (Walked hook) below ∧ hook p ⟨k, below⟩ = .ok left)
      (f := fun below => visit p ⟨k, below⟩) (g := fun below => visit p ⟨k, below⟩)
      fun below related => by
        change Ends _ _ (hook p ⟨k, below⟩)
        cases ended : hook p ⟨k, below⟩ with
        | error e => exact trivial
        | ok left => exact ⟨p, below, related, ended⟩
    change Ends _ _ (Schema.walk (.ofAfter visit) (levels + 1) p ⟨k, c⟩).run.run at whole
    rw [ran] at whole
    exact whole

theorem walked_of_walkedRoot {hook : Definitions → Position → Schema → Except Error Schema}
    {flavor : Flavor} {graph : Definitions} {name : String}
    (ran : walkedRoot hook flavor graph name root = .ok root') : Walked (hook graph) root root' :=
  ⟨_, _, Nat.le_refl _, ran⟩

/-- Every node that a walk enters is walked. -/
theorem Walked.exists_walked {place : Place} {s : Schema} (walked : Walked hook root root')
    (entered : place.isEntered = true) (stands : root.node? place = some s) :
    ∃ left, Walked hook s left := by
  induction place generalizing root root' with
  | nil =>
    cases stands
    exact ⟨root', walked⟩
  | cons step rest ih =>
    obtain ⟨k, c⟩ := root
    obtain ⟨_, below, related, _⟩ := walked.exists_hook
    obtain ⟨child, held, stands⟩ := Option.bind_eq_some_iff.mp stands
    have pair := related.child? (Place.isEntered_cons.mp entered).1
    rw [show c.child? step = some child from held] at pair
    generalize below.child? step = o at pair
    cases pair with
    | some childWalked => exact ih childWalked (Place.isEntered_cons.mp entered).2 stands

section
variable (keeps : ∀ p s left, stop s.keywords = false → hook p s = .ok left →
  left.children = s.children)
include keeps

/-- Where no stop is above a node, what becomes of it stands in its place. -/
theorem Walked.exists_node {place : Place} {s : Schema} (walked : Walked hook root root')
    (entered : place.isEntered = true) (free : place.passes stop root = false)
    (stands : root.node? place = some s) :
    ∃ left, root'.node? place = some left ∧ Walked hook s left := by
  induction place generalizing root root' with
  | nil =>
    cases stands
    exact ⟨root', rfl, walked⟩
  | cons step rest ih =>
    obtain ⟨k, c⟩ := root
    obtain ⟨p, below, related, ended⟩ := walked.exists_hook
    obtain ⟨child, held, stands⟩ := Option.bind_eq_some_iff.mp stands
    obtain ⟨goes, free⟩ := Bool.or_eq_false_iff.mp free
    have pair := related.child? (Place.isEntered_cons.mp entered).1
    rw [show c.child? step = some child from held] at pair free
    generalize there : below.child? step = o at pair
    cases pair with
    | some childWalked =>
      obtain ⟨left, found, leftWalked⟩ := ih childWalked (Place.isEntered_cons.mp entered).2 free stands
      refine ⟨left, ?_, leftWalked⟩
      rw [Schema.node?, keeps p ⟨k, below⟩ _ goes ended, there]
      exact found

end

end

section
variable {hook : Definitions → Position → Schema → Except Error Schema} {d : Document}

theorem Reached.length_eq {left : Definitions} (reached : Reached hook d left []) :
    left.length = d.definitions.length := by
  obtain ⟨earlier, split, pairs⟩ := reached.forall₂ (fun _ _ => True) fun _ _ _ _ _ _ _ => trivial
  rw [split, List.append_nil, pairs.length_eq]

theorem Reached.drop_eq {finished rest : Definitions} (reached : Reached hook d finished rest) :
    d.definitions.drop finished.length = rest := by
  obtain ⟨earlier, split, pairs⟩ := reached.forall₂ (fun _ _ => True) fun _ _ _ _ _ _ _ => trivial
  rw [split, ← pairs.length_eq, List.drop_left]

/-- Each finished definition has been walked in the graph of its moment. -/
theorem Reached.exists_getElem? {finished rest : Definitions} (reached : Reached hook d finished rest)
    {n : Nat} {name : String} {root : Schema} (listed : d.definitions[n]? = some (name, root))
    (done : n < finished.length) :
    ∃ left, finished[n]? = some (name, left) ∧
      walkedRoot hook d.flavor (finished.take n ++ d.definitions.drop n) name root = .ok left := by
  induction reached with
  | start => cases done
  | @step finished later other its left before walked ih =>
    by_cases earlier : n < finished.length
    · obtain ⟨left', found, ran⟩ := ih earlier
      refine ⟨left', by rw [List.getElem?_append_left earlier]; exact found, ?_⟩
      rw [List.take_append_of_le_length (Nat.le_of_lt earlier)]
      exact ran
    · have last : n = finished.length := by
        rw [List.length_append, List.length_singleton] at done
        omega
      subst last
      have here := before.drop_eq
      have same : (other, its) = (name, root) := by
        have first := congrArg (·[0]?) here
        simp only [List.getElem?_drop, Nat.add_zero, List.getElem?_cons_zero] at first
        exact Option.some.inj (first.symm.trans listed)
      cases same
      refine ⟨left, by simp, ?_⟩
      rw [List.take_left, here]
      exact walked

/-- Where no definition is changed, all states of the walk are those of the start. -/
theorem reached_of_idle (idle : ∀ graph, ∀ e ∈ d.definitions,
      walkedRoot hook d.flavor graph e.1 e.2 = .ok e.2)
    {finished rest : Definitions} (split : d.definitions = finished ++ rest) :
    Reached hook d finished rest := by
  induction finished using List.reverseRecOn generalizing rest with
  | nil =>
    rw [List.nil_append] at split
    exact split ▸ .start
  | append_singleton finished e ih =>
    rw [List.append_assoc, List.singleton_append] at split
    exact .step (ih split) (idle _ e (split ▸ List.mem_append_right _ List.mem_cons_self))

theorem walkPass_of_idle (idle : ∀ graph, ∀ e ∈ d.definitions,
      walkedRoot hook d.flavor graph e.1 e.2 = .ok e.2) :
    d.walkPass hook = (d, .ok {}) :=
  walkPass_eq_ok_iff.mpr ⟨reached_of_idle idle (List.append_nil _).symm, rfl⟩

end
end SchemaGraph
