import SchemaGraph.Pass.Basic
import SchemaGraph.Proofs.Guarantee
import SchemaGraph.Proofs.Rule

/- Grounded graphs: every definition obeys a rule, and those that the rule asks for are there. What a
   reference means in such a graph obeys the rule again, so passes can follow references, and the
   graph stays grounded while its roots are replaced one by one. -/
namespace SchemaGraph

variable {R : Rule}

namespace Definitions
variable {graph : Definitions}

structure Grounded (R : Rule) (graph : Definitions) : Prop where
  defines : ∀ name ∈ R.names, name ∈ graph.keys
  obeys : ∀ e ∈ graph, e.2.Obeys R

theorem grounded_any (definitions : Definitions) : definitions.Grounded .any :=
  ⟨by simp [Rule.any], fun e _ => e.2.obeys_any⟩

theorem target?_of_isPlain {r : Reference} (plain : r.IsPlain) :
    graph.target? r = graph.get? r.name := by
  have itself (s : Schema) : Schema.descend [] s = some s := rfl
  rw [target?, plain]
  cases graph.get? r.name with
  | none => rfl
  | some s => exact itself s

theorem Grounded.get? (grounded : graph.Grounded R) {name : String} {s : Schema}
    (found : graph.get? name = some s) : s.Obeys R :=
  grounded.obeys _ (Table.mem_of_get? found)

theorem Grounded.target? (grounded : graph.Grounded R) {r : Reference} {s : Schema}
    (meant : graph.target? r = some s) : s.Obeys R := by
  obtain ⟨root, found, inside⟩ := Option.bind_eq_some_iff.mp meant
  exact Schema.of_descend (fun _ obeys => obeys.below.toEach) r.tail (grounded.get? found) inside

theorem Grounded.resolve (grounded : graph.Grounded R) {r : Reference} (h : R.reference r)
    (location : String) : Ends R.allowed (Schema.Obeys R) (graph.resolve r location) := by
  rw [Definitions.resolve]
  cases meant : graph.target? r with
  | some s => exact grounded.target? meant
  | none =>
    rcases R.meant with there | anything
    · obtain ⟨plain, named⟩ := there r h
      rw [target?_of_isPlain plain, Table.get?_eq_none_iff] at meant
      exact absurd (grounded.defines r.name named) meant
    · exact anything r.raw location

theorem Grounded.deref (grounded : graph.Grounded R) {s : Schema} (h : s.Obeys R)
    (location : String) : Ends R.allowed (Schema.Obeys R) (graph.deref s location) := by
  rw [Definitions.deref]
  cases refers : s.keywords.reference with
  | none => exact h
  | some r => exact grounded.resolve (h.own.reference r refers) location

/-- Changed roots under the same names. -/
theorem Grounded.map (grounded : graph.Grounded R) {f : String × Schema → String × Schema}
    (sameName : ∀ e, (f e).1 = e.1) (obeys : ∀ e ∈ graph, (f e).2.Obeys R) :
    Grounded R (graph.map f) := by
  constructor
  · intro name named
    have same : Table.keys (graph.map f) = graph.keys := by
      simp [Table.keys, Function.comp_def, sameName]
    rw [same]
    exact grounded.defines name named
  · intro _ member
    obtain ⟨e, listed, rfl⟩ := List.mem_map.mp member
    exact obeys e listed

theorem Grounded.mapValues (grounded : graph.Grounded R) {f : Schema → Schema}
    (keeps : ∀ s, Schema.Obeys R s → (f s).Obeys R) : Grounded R (Table.mapValues f graph) :=
  grounded.map (fun _ => rfl) fun e member => keeps e.2 (grounded.obeys e member)

theorem Grounded.change (grounded : graph.Grounded R) (flavor : Flavor) {v : Visitor Id}
    (keeps : v.Keeps .plain (Schema.Obeys R)) : (graph.change flavor v).Grounded R :=
  grounded.map (fun _ => rfl) fun e member =>
    (Schema.hereditary_obeys R).walk keeps _ _ (grounded.obeys e member)

theorem keys_replace (finished rest : Definitions) (name : String) (root changed : Schema) :
    Table.keys (finished ++ (name, changed) :: rest) =
      Table.keys (finished ++ (name, root) :: rest) := by
  simp [Table.keys]

theorem Grounded.replace {finished rest : Definitions} {name : String} {root changed : Schema}
    (grounded : Grounded R (finished ++ (name, root) :: rest)) (obeys : changed.Obeys R) :
    Grounded R (finished ++ (name, changed) :: rest) := by
  constructor
  · intro other named
    rw [keys_replace finished rest name root]
    exact grounded.defines other named
  · intro e member
    have others := grounded.obeys e
    simp only [List.mem_append, List.mem_cons] at member others
    rcases member with earlier | rfl | later
    · exact others (Or.inl earlier)
    · exact obeys
    · exact others (Or.inr (Or.inr later))

section
variable {m : Type → Type} [Monad m] {g : Guarantee m}

/-- The graph stays grounded whenever a root is finished, and also when the walk ends with an
error. -/
theorem walkFrom_grounded (flavor : Flavor) (growth : Nat)
    {visitor : Definitions → Visitor (ExceptT Error m)}
    (keeps : ∀ graph, Grounded R graph →
      (visitor graph).Keeps (g.throwing R.allowed) (Schema.Obeys R))
    (finished rest : Definitions) (grounded : Grounded R (finished ++ rest)) :
    g.Holds (fun out => Grounded R out.1 ∧ out.1.keys = Table.keys (finished ++ rest) ∧
      Ends R.allowed (fun _ => True) out.2) (walkFrom flavor growth visitor finished rest) := by
  -- The finished roots and those to come are one graph, grounded before and after each root.
  refine g.walkFrom flavor growth R.allowed
    (fun done later => Grounded R (done ++ later) ∧
      Table.keys (done ++ later) = Table.keys (finished ++ rest))
    (fun done name root later held => ?_) (fun done held => ?_)
    (fun done later e held ended => ⟨held.1, held.2, ended⟩) finished rest ⟨grounded, rfl⟩
  · have within : root.Obeys R := held.1.obeys (name, root) (by simp)
    refine (g.throwing R.allowed).mono ((Schema.hereditary_obeys R).walk (keeps _ held.1) _ _ within)
      fun changed obeys => ?_
    rw [List.append_assoc, List.singleton_append]
    exact ⟨held.1.replace obeys, (keys_replace done later name root changed).trans held.2⟩
  · rw [List.append_nil] at held
    exact ⟨held.1, held.2, trivial⟩

end

end Definitions

namespace Document
variable {d : Document}

theorem every_changeAfter {holds : Keywords → Prop} {after : Position → Schema → Schema}
    (every : ∀ e ∈ d.definitions, e.2.Every holds)
    (keeps : ∀ position s, Schema.Every holds s → Schema.Every holds (after position s)) :
    ∀ e ∈ (d.changeAfter after).definitions, e.2.Every holds :=
  Definitions.forall_change (v := ⟨fun _ s => s, after⟩) (Schema.hereditary_every holds)
    ⟨fun _ _ h => h, keeps⟩ d.flavor every

/-- What a pass leaves of the document when it changes what the definitions say: their names are
the same ones, everything else stays, and no other error ends the pass than an allowed one. -/
structure Rewritten {α : Type} (R : Rule) (d : Document) (out : Document × Except Error α) :
    Prop where
  outer : out.1 = { d with definitions := out.1.definitions }
  keys : out.1.definitions.keys.Perm d.definitions.keys
  grounded : out.1.definitions.Grounded R
  ended : Ends R.allowed (fun _ => True) out.2

theorem Rewritten.trans {α β : Type} {first : Document × Except Error α}
    {second : Document × Except Error β} (h : Rewritten R d first)
    (next : Rewritten R first.1 second) : Rewritten R d second where
  outer := by
    rw [next.outer, h.outer]
  keys := next.keys.trans h.keys
  grounded := next.grounded
  ended := next.ended

/-- A pass fails where its walk fails. -/
theorem Rewritten.failed {α β : Type} {left : Document} {e : Error}
    (h : Rewritten (α := α) R d (left, .error e)) : Rewritten (α := β) R d (left, .error e) :=
  ⟨h.outer, h.keys, h.grounded, h.ended⟩

theorem rewritten_of_definitions {definitions : Definitions} (grounded : definitions.Grounded R)
    (keys : definitions.keys.Perm d.definitions.keys) :
    Rewritten R d (unreported { d with definitions }) := ⟨rfl, keys, grounded, trivial⟩

theorem rewritten_unreported (grounded : d.definitions.Grounded R) :
    Rewritten R d d.unreported := ⟨rfl, .refl _, grounded, trivial⟩

theorem keys_change (d : Document) (v : Visitor Id) :
    (d.definitions.change d.flavor v).keys = d.definitions.keys := by
  simp [Definitions.change, Table.keys, Function.comp_def]

theorem rewritten_changeAfter {after : Position → Schema → Schema}
    (grounded : d.definitions.Grounded R)
    (keeps : ∀ position s, Schema.Obeys R s → Schema.Obeys R (after position s)) :
    Rewritten R d (d.changeAfter after).unreported :=
  rewritten_of_definitions (grounded.change d.flavor ⟨fun _ _ h => h, keeps⟩)
    (.of_eq (d.keys_change _))

theorem rewritten_walkAfterM {m : Type → Type} [Monad m] {g : Guarantee m}
    (grounded : d.definitions.Grounded R)
    {after : Definitions → Position → Schema → ExceptT Error m Schema}
    (keeps : ∀ graph, Definitions.Grounded R graph → ∀ position s, Schema.Obeys R s →
      (g.throwing R.allowed).Holds (Schema.Obeys R) (after graph position s)) :
    g.Holds (Rewritten R d) (d.walkAfterM after) := by
  refine g.bind (Definitions.walkFrom_grounded d.flavor 0
    (fun graph grounded => Visitor.keeps_ofAfter (keeps graph grounded)) [] d.definitions grounded)
    fun out walked => ?_
  exact g.pure ⟨rfl, .of_eq walked.2.1, walked.1, walked.2.2⟩

section
variable {after : Definitions → Position → Schema → Except Error Schema}

theorem rewritten_walkAfter (grounded : d.definitions.Grounded R)
    (keeps : ∀ graph, Definitions.Grounded R graph → ∀ position s, Schema.Obeys R s →
      Ends R.allowed (Schema.Obeys R) (after graph position s)) :
    Rewritten R d (d.walkAfter after) := rewritten_walkAfterM (g := .plain) grounded keeps

theorem rewritten_walkPass (grounded : d.definitions.Grounded R)
    (keeps : ∀ graph, Definitions.Grounded R graph → ∀ position s, Schema.Obeys R s →
      Ends R.allowed (Schema.Obeys R) (after graph position s)) :
    Rewritten R d (d.walkPass after) := by
  have walked := rewritten_walkAfter grounded keeps
  rw [Document.walkPass]
  generalize d.walkAfter after = out at walked
  obtain ⟨left, result⟩ := out
  refine ⟨walked.outer, walked.keys, walked.grounded, ?_⟩
  cases result with
  | ok _ => trivial
  | error e => exact walked.ended

end

end Document
end SchemaGraph
