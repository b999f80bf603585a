import SchemaGraph.Pass.Basic
import SchemaGraph.Proofs.RelatedWalks

/- Walks through definitions that may fail, as steps from one definition to the next. A state of the
   walk is what is finished and what is still to come; a step finishes one definition in the graph of
   both. -/
namespace SchemaGraph

/-- Of two computations only the first is looked at. -/
def Guarantee.alone {m : Type → Type} [Monad m] (g : Guarantee m) : Likeness m m where
  Alike p x _ := g.Holds p x
  pure h := g.pure h
  bind hx hf := g.bind hx hf

section
variable (hook : Definitions → Position → Schema → Except Error Schema)

/-- What becomes of a definition in the graph. -/
def walkedRoot (flavor : Flavor) (graph : Definitions) (name : String) (root : Schema) :
    Except Error Schema :=
  (root.walk (.ofAfter fun p s => ExceptT.mk (pure (hook graph p s) : Id (Except Error Schema)))
    root.levels { flavor, definition := name }).run.run

/-- The states that a walk comes to: the definitions that it has finished and those to come. -/
inductive Reached (d : Document) : Definitions → Definitions → Prop where
  | start : Reached d [] d.definitions
  | step {finished later : Definitions} {name : String} {root left : Schema}
      (before : Reached d finished ((name, root) :: later))
      (walked : walkedRoot hook d.flavor (finished ++ (name, root) :: later) name root = .ok left) :
      Reached d (finished ++ [(name, left)]) later

variable {hook} {d : Document}

/-- What holds of a node and of what becomes of it, because it holds of the children and the hook
goes on with it, holds of a definition. -/
theorem ends_walkedRoot (allowed : Error → Prop) (within : Schema → Prop)
    (rel : Schema → Schema → Prop) {flavor : Flavor} {graph : Definitions} {name : String}
    {root : Schema} (enter : ∀ k c, within ⟨k, c⟩ → c.entered.Each within)
    (leave : ∀ p k c walked, within ⟨k, c⟩ → c.Related rel walked →
      Ends allowed (rel ⟨k, c⟩) (hook graph p ⟨k, walked⟩)) (h : within root) :
    Ends allowed (rel root) (walkedRoot hook flavor graph name root) := by
  let visit (p : Position) (s : Schema) : ExceptT Error Id Schema :=
    ExceptT.mk (pure (hook graph p s))
  have leaves (p : Position) (k : Keywords) (c walked : Children Schema) (h : within ⟨k, c⟩)
      (related : c.Related rel walked) : (Guarantee.plain.throwing allowed).alone.Alike
        (rel ⟨k, c⟩) (visit p ⟨k, walked⟩) (visit p ⟨k, walked⟩) := leave p k c walked h related
  exact Likeness.walkRelated _ enter leaves _ (Nat.le_refl _) h

/-- The walk through the definitions to come. -/
private def walkOn (hook : Definitions → Position → Schema → Except Error Schema) (d : Document)
    (finished rest : Definitions) : Definitions × Except Error Unit :=
  (Definitions.walkFrom d.flavor 0 (fun graph => .ofAfter fun p s =>
    ExceptT.mk (pure (hook graph p s) : Id (Except Error Schema))) finished rest).run

private theorem walkOn_cons (finished later : Definitions) (name : String) (root : Schema) :
    walkOn hook d finished ((name, root) :: later) =
      match walkedRoot hook d.flavor (finished ++ (name, root) :: later) name root with
      | .ok left => walkOn hook d (finished ++ [(name, left)]) later
      | .error e => (finished ++ (name, root) :: later, .error e) := by
  rw [walkOn, Definitions.walkFrom]
  change Id.run (match walkedRoot hook d.flavor (finished ++ (name, root) :: later) name root with
    | .ok left => _ | .error e => _) = _
  cases walkedRoot hook d.flavor (finished ++ (name, root) :: later) name root <;> rfl

private theorem Reached.walkOn_eq {finished rest : Definitions}
    (reached : Reached hook d finished rest) :
    walkOn hook d finished rest = walkOn hook d [] d.definitions := by
  induction reached with
  | start => rfl
  | step before walked ih => rw [← ih, walkOn_cons, walked]

private theorem Reached.of_walkOn {finished rest left : Definitions}
    (reached : Reached hook d finished rest) (ended : walkOn hook d finished rest = (left, .ok ())) :
    Reached hook d left [] := by
  induction rest generalizing finished with
  | nil =>
    have same : finished = left := (Prod.mk.inj ended).1
    exact same ▸ reached
  | cons entry later ih =>
    obtain ⟨name, root⟩ := entry
    rw [walkOn_cons] at ended
    generalize walked : walkedRoot hook d.flavor (finished ++ (name, root) :: later) name root = out
      at ended
    cases out with
    | ok changed => exact ih (reached.step walked) ended
    | error e => cases ended

/-- A walk ends well when it comes to its last state. -/
theorem walkAfter_eq_ok_iff {left : Document} : d.walkAfter hook = (left, .ok ()) ↔
    Reached hook d left.definitions [] ∧ left = { d with definitions := left.definitions } := by
  have unfolded : d.walkAfter hook = ({ d with definitions := (walkOn hook d [] d.definitions).1 },
      (walkOn hook d [] d.definitions).2) := rfl
  constructor
  · intro ended
    rw [unfolded] at ended
    obtain ⟨rfl, well⟩ := Prod.mk.inj ended
    exact ⟨Reached.start.of_walkOn (Prod.ext rfl well), rfl⟩
  · rintro ⟨reached, same⟩
    have whole : walkOn hook d [] d.definitions = (left.definitions, .ok ()) := reached.walkOn_eq.symm
    rw [unfolded, whole, same]

theorem walkPass_eq_ok_iff {left : Document} : d.walkPass hook = (left, .ok {}) ↔
    Reached hook d left.definitions [] ∧ left = { d with definitions := left.definitions } := by
  rw [← walkAfter_eq_ok_iff, Document.walkPass]
  generalize d.walkAfter hook = out
  obtain ⟨left', e | ⟨⟩⟩ := out
  · constructor <;> rintro ⟨⟩
  · constructor <;> rintro ⟨⟩ <;> rfl

/-- The definitions are finished in their order, each in relation to what it was. -/
theorem Reached.forall₂ (rel : Schema → Schema → Prop) {finished rest : Definitions}
    (reached : Reached hook d finished rest)
    (each : ∀ finished name root later left, Reached hook d finished ((name, root) :: later) →
      walkedRoot hook d.flavor (finished ++ (name, root) :: later) name root = .ok left →
      rel root left) :
    ∃ earlier, d.definitions = earlier ++ rest ∧
      List.Forall₂ (fun e e' : String × Schema => e'.1 = e.1 ∧ rel e.2 e'.2) earlier finished := by
  induction reached with
  | start => exact ⟨[], rfl, .nil⟩
  | step before walked ih =>
    obtain ⟨earlier, split, pairs⟩ := ih
    refine ⟨earlier ++ [(_, _)], by rw [split, List.append_assoc]; rfl, ?_⟩
    exact List.rel_append pairs (.cons ⟨rfl, each _ _ _ _ _ before walked⟩ .nil)

/-- What holds of all definitions, and of one that is finished in a graph of such, holds of all that
the walk has. -/
theorem Reached.forall_mem (holds : Schema → Prop) {finished rest : Definitions}
    (reached : Reached hook d finished rest) (first : ∀ e ∈ d.definitions, holds e.2)
    (each : ∀ finished name root later left, Reached hook d finished ((name, root) :: later) →
      (∀ e ∈ finished ++ (name, root) :: later, holds e.2) →
      walkedRoot hook d.flavor (finished ++ (name, root) :: later) name root = .ok left →
      holds left) :
    ∀ e ∈ finished ++ rest, holds e.2 := by
  induction reached with
  | start => exact first
  | @step finished later name root left before walked ih =>
    have changed := each finished name root later left before ih walked
    intro e listed
    rw [List.append_assoc, List.mem_append] at listed
    rcases listed with earlier | here
    · exact ih e (List.mem_append_left _ earlier)
    · rcases List.mem_cons.mp here with rfl | toCome
      · exact changed
      · exact ih e (List.mem_append_right _ (List.mem_cons_of_mem _ toCome))

theorem Reached.keys {finished rest : Definitions} (reached : Reached hook d finished rest) :
    Table.keys (finished ++ rest) = d.definitions.keys := by
  obtain ⟨earlier, split, pairs⟩ := reached.forall₂ (fun _ _ => True) fun _ _ _ _ _ _ _ => trivial
  have same : Table.keys finished = Table.keys earlier := by
    rw [Table.keys, Table.keys, ← List.forall₂_eq_eq_eq, List.forall₂_map_left_iff,
      List.forall₂_map_right_iff]
    exact pairs.flip.imp fun _ _ both => both.1
  rw [Table.keys_append, same, ← Table.keys_append, split]

/-- A walk of which no step fails comes to its last state. -/
theorem Reached.exists_last {finished rest : Definitions} (reached : Reached hook d finished rest)
    (each : ∀ finished name root later, Reached hook d finished ((name, root) :: later) →
      ∃ left, walkedRoot hook d.flavor (finished ++ (name, root) :: later) name root = .ok left) :
    ∃ left, Reached hook d left [] := by
  induction rest generalizing finished with
  | nil => exact ⟨finished, reached⟩
  | cons entry later ih =>
    obtain ⟨left, walked⟩ := each finished entry.1 entry.2 later reached
    exact ih (reached.step walked)

end
end SchemaGraph
