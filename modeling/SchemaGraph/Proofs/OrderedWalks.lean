import Mathlib.Logic.Function.Basic
import SchemaGraph.Proofs.Outline
import SchemaGraph.Proofs.PlainWalks

/- Walks through definitions whose hooks see the graph and add to a state. A walk sees the definitions
   before the one that it is at as it has left them and the others as they came in; what it makes of
   all of them is said by one equation for each definition. -/
namespace SchemaGraph

/-- Hooks that do nothing leave every node as it is. -/
theorem Schema.walk_eq_pure_self {m : Type → Type} [Monad m] [LawfulMonad m]
    (holds : Keywords → Prop) {hook : Position → Schema → m Schema}
    (same : ∀ p s, holds s.keywords → hook p s = pure s) (levels : Nat) (p : Position) {s : Schema}
    (every : s.EveryMet holds) : s.walk (.ofAfter hook) levels p = pure s := by
  have stays (levels : Nat) (p : Position) (s : Schema) :
      (s.walk ⟨fun _ s => s, fun _ s => s⟩ levels p : Id Schema).run = s := by
    induction levels generalizing p s with
    | zero => rfl
    | succ levels ih =>
      obtain ⟨k, c⟩ := s
      have children : c.mapEntered (fun segments child =>
          (child.walk ⟨fun _ s => s, fun _ s => s⟩ levels (p.child k.xml segments) :
            Id Schema).run) = c :=
        (Children.mapEntered_eq_self_iff c).mpr fun placed _ => ih _ placed.2
      exact (walk_succ _ levels p ⟨k, c⟩).trans (congrArg (Schema.mk k) children)
  rw [walk_eq_pure same levels p every, stays]

theorem Table.keys_append_cons {α : Type} (earlier later : Table α) (name : String) (value : α) :
    Table.keys (earlier ++ (name, value) :: later) = earlier.keys ++ name :: later.keys :=
  List.map_append

/-- The one definition stands before the other. -/
def Definitions.Precedes (definitions : Definitions) (one other : String) : Prop :=
  definitions.keys.idxOf one < definitions.keys.idxOf other

instance (definitions : Definitions) (one other : String) :
    Decidable (definitions.Precedes one other) :=
  inferInstanceAs (Decidable (_ < _))

/-- What stands before a definition is what is listed before it. -/
theorem Definitions.precedes_iff {definitions earlier later : Definitions} {name : String}
    {root : Schema} (split : definitions = earlier ++ (name, root) :: later)
    (distinct : definitions.Distinct) (other : String) :
    definitions.Precedes other name ↔ other ∈ earlier.keys := by
  subst split
  rw [Table.Distinct, Table.keys_append_cons] at distinct
  have fresh : name ∉ earlier.keys := fun member =>
    (List.nodup_append.mp distinct).2.2 name member name List.mem_cons_self rfl
  rw [Precedes, Table.keys_append_cons, List.idxOf_append_of_notMem fresh, List.idxOf_cons_self,
    Nat.add_zero]
  constructor
  · intro lower
    by_contra absent
    rw [List.idxOf_append_of_notMem absent] at lower
    omega
  · intro member
    rw [List.idxOf_append_of_mem member]
    exact List.idxOf_lt_length_of_mem member

/-- The earlier definitions in their final form. -/
def finishedAs (final : String → Schema) (earlier : Definitions) : Definitions :=
  earlier.map fun e => (e.1, final e.1)

theorem get?_finishedAs (final : String → Schema) (earlier : Definitions) (name : String) :
    (finishedAs final earlier).get? name =
      if name ∈ earlier.keys then some (final name) else none := by
  induction earlier with
  | nil => rfl
  | cons e rest ih =>
    obtain ⟨first, root⟩ := e
    change Table.get? ((first, final first) :: finishedAs final rest) name =
      if name ∈ first :: Table.keys rest then some (final name) else none
    rw [Table.get?, ih]
    by_cases same : first = name
    · simp [same]
    · simp [same, Ne.symm same]

theorem get?_finishedAs_append {final : String → Schema} {order earlier later : Definitions}
    (split : order = earlier ++ later) (name : String) :
    Table.get? (finishedAs final earlier ++ later) name =
      if name ∈ earlier.keys then some (final name) else order.get? name := by
  rw [Table.get?_append, get?_finishedAs, split, Table.get?_append]
  split
  · rfl
  · rename_i absent
    rw [(Table.get?_eq_none_iff earlier name).mpr absent]

theorem finishedAs_congr {final other : String → Schema} {earlier : Definitions}
    (same : ∀ name ∈ earlier.keys, final name = other name) :
    finishedAs final earlier = finishedAs other earlier :=
  List.map_congr_left fun e listed =>
    congrArg (e.1, ·) (same e.1 (List.mem_map.mpr ⟨e, listed, rfl⟩))

theorem keys_finishedAs (final : String → Schema) (earlier : Definitions) :
    (finishedAs final earlier).keys = earlier.keys := by
  rw [Table.keys, finishedAs, List.map_map]
  rfl

theorem precedes_finishedAs (final : String → Schema) (definitions : Definitions)
    (one other : String) :
    Definitions.Precedes (finishedAs final definitions) one other ↔
      definitions.Precedes one other := by
  rw [Definitions.Precedes, Definitions.Precedes, keys_finishedAs]

section
variable {σ : Type} (hook : Definitions → Position → Schema → ExceptT Error (StateM σ) Schema)
  (start : σ) (flavor : Flavor)

/-- What becomes of a definition in the graph, and what is noted when nothing was before. -/
def visitRoot (graph : Definitions) (name : String) (root : Schema) : Except Error Schema × σ :=
  (root.walk (.ofAfter (hook graph)) root.levels { flavor, definition := name }).run.run start

/-- What a definition becomes does not depend on what was noted before. -/
def Steady (add : σ → σ → σ) : Prop :=
  ∀ graph name root noted,
    (root.walk (.ofAfter (hook graph)) root.levels { flavor, definition := name }).run.run noted =
      ((visitRoot hook start flavor graph name root).1,
        add noted (visitRoot hook start flavor graph name root).2)

/-- One walk through the definitions after the finished ones. -/
abbrev walkRoots (finished rest : Definitions) : StateM σ (Definitions × Except Error Unit) :=
  Definitions.walkFrom flavor 0 (fun graph => .ofAfter (hook graph)) finished rest

/-- Every definition becomes what is said, with the earlier ones as they become and the later ones
as they are. -/
def AllBecome (final : String → Schema) (noted : String → σ) (finished rest : Definitions) : Prop :=
  ∀ earlier name root later, rest = earlier ++ (name, root) :: later →
    visitRoot hook start flavor (finished ++ (finishedAs final earlier ++ (name, root) :: later))
      name root = (.ok (final name), noted name)

variable {hook start flavor} {add : σ → σ → σ}

theorem Steady.run_walkRoots_cons (steady : Steady hook start flavor add) (finished : Definitions)
    (name : String) (root : Schema) (rest : Definitions) (noted : σ) :
    (walkRoots hook flavor finished ((name, root) :: rest)).run noted =
      match visitRoot hook start flavor (finished ++ (name, root) :: rest) name root with
      | (.ok changed, more) => (walkRoots hook flavor (finished ++ [(name, changed)]) rest).run
          (add noted more)
      | (.error e, more) => ((finished ++ (name, root) :: rest, .error e), add noted more) := by
  rw [walkRoots, Definitions.walkFrom, StateT.run_bind]
  dsimp only [Nat.add_zero]
  rw [steady]
  obtain ⟨_ | changed, more⟩ :=
    visitRoot hook start flavor (finished ++ (name, root) :: rest) name root
  · rfl
  · rfl

theorem AllBecome.run {final : String → Schema} {noted : String → σ} {finished rest : Definitions}
    (become : AllBecome hook start flavor final noted finished rest)
    (steady : Steady hook start flavor add) (before : σ) :
    (walkRoots hook flavor finished rest).run before = ((finished ++ finishedAs final rest, .ok ()),
      rest.foldl (fun notes e => add notes (noted e.1)) before) := by
  induction rest generalizing finished before with
  | nil =>
    rw [finishedAs, List.map_nil, List.append_nil]
    rfl
  | cons entry rest ih =>
    obtain ⟨name, root⟩ := entry
    have here := become [] name root rest rfl
    have later : AllBecome hook start flavor final noted (finished ++ [(name, final name)]) rest := by
      intro earlier other its rest' split
      rw [List.append_assoc]
      exact become ((name, root) :: earlier) other its rest' (by rw [split, List.cons_append])
    rw [steady.run_walkRoots_cons]
    change visitRoot hook start flavor (finished ++ (name, root) :: rest) name root = _ at here
    rw [here]
    dsimp only
    rw [ih later, List.append_assoc, List.foldl_cons]
    rfl

theorem Steady.allBecome_of_run (steady : Steady hook start flavor add)
    {finished rest left : Definitions} (distinct : rest.Distinct) {before after : σ}
    (ran : (walkRoots hook flavor finished rest).run before = ((left, .ok ()), after)) :
    ∃ final noted, AllBecome hook start flavor final noted finished rest := by
  induction rest generalizing finished before with
  | nil => exact ⟨fun _ => {}, fun _ => before, by simp [AllBecome]⟩
  | cons entry rest ih =>
    obtain ⟨name, root⟩ := entry
    obtain ⟨fresh, distinctRest⟩ := List.nodup_cons.mp distinct
    rw [steady.run_walkRoots_cons] at ran
    generalize here : visitRoot hook start flavor (finished ++ (name, root) :: rest) name
      root = out at ran
    obtain ⟨_ | changed, more⟩ := out
    · cases ran
    · obtain ⟨final, noted, become⟩ := ih distinctRest ran
      refine ⟨Function.update final name changed, Function.update noted name more, ?_⟩
      rintro (_ | ⟨first, earlier⟩) other its later split
      · cases split
        rw [Function.update_self, Function.update_self]
        exact here
      · have parts : (name, root) :: rest = first :: (earlier ++ (other, its) :: later) := split
        obtain ⟨rfl, tail⟩ := List.cons.inj parts
        -- No later definition has the name, so nothing that was said of them changes.
        have apart : ∀ key ∈ Table.keys rest, key ≠ name := fun key member same =>
          fresh (same ▸ member)
        rw [tail, Table.keys_append_cons] at apart
        have same :
            finishedAs (Function.update final name changed) earlier = finishedAs final earlier :=
          finishedAs_congr fun key member =>
            Function.update_of_ne (apart key (List.mem_append_left _ member)) _ _
        have differs := apart other (List.mem_append_right _ List.mem_cons_self)
        rw [finishedAs, List.map_cons, ← finishedAs, Function.update_self, same,
          Function.update_of_ne differs, Function.update_of_ne differs]
        have visited := become earlier other its later tail
        rw [List.append_assoc] at visited
        exact visited

/-- Where every definition is visited alike in the other order, the definitions become the same. -/
theorem AllBecome.of_perm {final : String → Schema} {noted : String → σ} {one other : Definitions}
    (become : AllBecome hook start flavor final noted [] one) (perm : other.Perm one)
    (alike : ∀ name root before next earlier later, one = before ++ (name, root) :: next →
      other = earlier ++ (name, root) :: later →
      visitRoot hook start flavor (finishedAs final earlier ++ (name, root) :: later) name root =
        visitRoot hook start flavor (finishedAs final before ++ (name, root) :: next) name root) :
    AllBecome hook start flavor final noted [] other := by
  intro earlier name root later splitOther
  have listed : (name, root) ∈ one :=
    perm.mem_iff.mp (splitOther ▸ List.mem_append_right _ List.mem_cons_self)
  obtain ⟨before, next, splitOne⟩ := List.append_of_mem listed
  rw [List.nil_append, alike name root before next earlier later splitOne splitOther]
  exact become before name root next splitOne

theorem run_walkAfterM (d : Document) (noted : σ) : (d.walkAfterM hook).run noted =
    (({ d with definitions := ((walkRoots hook d.flavor [] d.definitions).run noted).1.1 },
      ((walkRoots hook d.flavor [] d.definitions).run noted).1.2),
      ((walkRoots hook d.flavor [] d.definitions).run noted).2) := rfl

/-- What a walk through a document leaves of it. -/
theorem AllBecome.walkAfterM {d : Document} {final : String → Schema} {noted : String → σ}
    (become : AllBecome hook start d.flavor final noted [] d.definitions)
    (steady : Steady hook start d.flavor add) (before : σ) :
    (d.walkAfterM hook).run before =
      (({ d with definitions := finishedAs final d.definitions }, .ok ()),
        d.definitions.foldl (fun notes e => add notes (noted e.1)) before) := by
  rw [run_walkAfterM, become.run steady before]
  rfl

theorem Steady.walkAfterM {d left : Document} {noted : σ} (steady : Steady hook start d.flavor add)
    (distinct : d.definitions.Distinct)
    (ran : (d.walkAfterM hook).run start = ((left, .ok ()), noted)) :
    ∃ final more, AllBecome hook start d.flavor final more [] d.definitions ∧
      left = { d with definitions := finishedAs final d.definitions } ∧
      noted = d.definitions.foldl (fun notes e => add notes (more e.1)) start := by
  have ended := ran
  rw [run_walkAfterM] at ran
  generalize walked : (walkRoots hook d.flavor [] d.definitions).run start = out at ran
  obtain ⟨⟨definitions, result⟩, last⟩ := out
  cases ran
  obtain ⟨final, more, become⟩ := steady.allBecome_of_run distinct walked
  obtain ⟨outcome, notes⟩ := Prod.mk.inj (ended.symm.trans (become.walkAfterM steady start))
  exact ⟨final, more, become, (Prod.mk.inj outcome).1, notes⟩

end
end SchemaGraph
