import SchemaGraph.Proofs.OrderedWalks
import SchemaGraph.Proofs.SteppedWalks

/- Passes whose hooks see the graph and may fail, but note nothing, over the same definitions in two
   orders. They are walks of which nothing is noted, so what holds of the one in the one order holds
   of it in the other where every definition is walked alike. -/
namespace SchemaGraph

/-- The same result on both sides, and nothing to note. -/
def silent : Likeness Id (StateM Unit) where
  Alike p x y := p x.run ∧ y.run () = (x.run, ())
  pure h := ⟨h, rfl⟩
  bind := by
    rintro α β p q x y f g ⟨holds, same⟩ next
    obtain ⟨ends, further⟩ := next _ holds
    refine ⟨ends, ?_⟩
    rw [StateT.run_bind, same]
    exact further

/-- The same result on both sides. -/
def agreeing : Likeness Id Id where
  Alike p x y := p x.run ∧ y.run = x.run
  pure h := ⟨h, rfl⟩
  bind := by
    rintro α β p q x y f g ⟨holds, same⟩ next
    obtain ⟨ends, further⟩ := next _ holds
    refine ⟨ends, ?_⟩
    change (g y.run).run = _
    rw [same]
    exact further

section
variable (hook : Definitions → Position → Schema → Except Error Schema)

/-- The hook among those that could note something. -/
def quietly (graph : Definitions) (p : Position) (s : Schema) :
    ExceptT Error (StateM Unit) Schema :=
  ExceptT.mk (pure (hook graph p s))

/-- Every definition becomes what is said, with the earlier ones as they become and the later ones
as they are. -/
def EachBecomes (flavor : Flavor) (final : String → Schema) (definitions : Definitions) : Prop :=
  ∀ earlier name root later, definitions = earlier ++ (name, root) :: later →
    walkedRoot hook flavor (finishedAs final earlier ++ (name, root) :: later) name root =
      .ok (final name)

variable {hook}

theorem alike_quietly (graph : Definitions) (levels : Nat) (p : Position) (s : Schema) :
    silent.throwing.Alike (fun _ => True)
      (s.walk (.ofAfter fun p s => ExceptT.mk (pure (hook graph p s))) levels p)
      (s.walk (.ofAfter (quietly hook graph)) levels p) := by
  refine Likeness.walk silent.throwing Schema.hereditary_true (fun p s _ => ?_) levels p trivial
  refine ⟨?_, rfl⟩
  change Ends _ _ (hook graph p s)
  cases hook graph p s <;> exact trivial

theorem visitRoot_quietly (flavor : Flavor) (graph : Definitions) (name : String) (root : Schema) :
    visitRoot (quietly hook) () flavor graph name root =
      (walkedRoot hook flavor graph name root, ()) :=
  (alike_quietly graph root.levels _ root).2

theorem walkAfterM_quietly (d : Document) :
    (d.walkAfterM (quietly hook)).run () = (d.walkAfter hook, ()) := by
  have alike := silent.walkFrom d.flavor 0
    (@alike_quietly hook) [] d.definitions
  rw [run_walkAfterM, walkRoots, alike.2]
  rfl

theorem steady_quietly (flavor : Flavor) : Steady (quietly hook) () flavor fun _ _ => () :=
  fun _ _ _ _ => rfl

theorem eachBecomes_iff (flavor : Flavor) (final : String → Schema) (definitions : Definitions) :
    EachBecomes hook flavor final definitions ↔
      AllBecome (quietly hook) () flavor final (fun _ => ()) [] definitions := by
  simp only [EachBecomes, AllBecome, List.nil_append, visitRoot_quietly, Prod.mk.injEq, and_true]

theorem walkPass_of_walkAfter {d left : Document} (ran : d.walkAfter hook = (left, .ok ())) :
    d.walkPass hook = (left, .ok {}) := by
  rw [Document.walkPass, ran]
  rfl

theorem walkPass_cases (hook : Definitions → Position → Schema → Except Error Schema) (d : Document) :
    (∃ left e, d.walkPass hook = (left, .error e)) ∨ ∃ left, d.walkPass hook = (left, .ok {}) := by
  rw [Document.walkPass]
  obtain ⟨left, e | ⟨⟩⟩ := d.walkAfter hook
  · exact Or.inl ⟨left, e, rfl⟩
  · exact Or.inr ⟨left, rfl⟩

theorem EachBecomes.walkPass {d : Document} {final : String → Schema}
    (become : EachBecomes hook d.flavor final d.definitions) :
    d.walkPass hook = ({ d with definitions := finishedAs final d.definitions }, .ok {}) := by
  have ran := ((eachBecomes_iff _ _ _).mp become).walkAfterM (steady_quietly d.flavor) ()
  rw [walkAfterM_quietly] at ran
  exact walkPass_of_walkAfter (Prod.mk.inj ran).1

theorem exists_eachBecomes {d left : Document} (distinct : d.definitions.Distinct)
    (ran : d.walkPass hook = (left, .ok {})) :
    ∃ final, EachBecomes hook d.flavor final d.definitions ∧
      left = { d with definitions := finishedAs final d.definitions } := by
  have walked : d.walkAfter hook = (left, .ok ()) :=
    walkAfter_eq_ok_iff.mpr (walkPass_eq_ok_iff.mp ran)
  have noted : (d.walkAfterM (quietly hook)).run () = ((left, .ok ()), ()) := by
    rw [walkAfterM_quietly, walked]
  obtain ⟨final, _, become, same, _⟩ := (steady_quietly d.flavor).walkAfterM distinct noted
  exact ⟨final, (eachBecomes_iff _ _ _).mpr become, same⟩

/-- Where every definition is walked alike in the other order, the pass succeeds there too and leaves
the same definitions. -/
theorem walkPass_of_perm {d left : Document} {order : Definitions}
    (distinct : d.definitions.Distinct) (perm : order.Perm d.definitions)
    (alike : ∀ final, EachBecomes hook d.flavor final d.definitions →
      ∀ name root before next earlier later, d.definitions = before ++ (name, root) :: next →
        order = earlier ++ (name, root) :: later →
        walkedRoot hook d.flavor (finishedAs final earlier ++ (name, root) :: later) name root =
          walkedRoot hook d.flavor (finishedAs final before ++ (name, root) :: next) name root)
    (ran : d.walkPass hook = (left, .ok {})) :
    ∃ left', ({ d with definitions := order } : Document).walkPass hook = (left', .ok {}) ∧
      ∀ name, left.definitions.get? name = left'.definitions.get? name := by
  obtain ⟨final, become, rfl⟩ := exists_eachBecomes distinct ran
  have again : EachBecomes hook d.flavor final order := by
    refine (eachBecomes_iff _ _ _).mpr (((eachBecomes_iff _ _ _).mp become).of_perm perm ?_)
    intro name root before next earlier later splitOne splitOther
    rw [visitRoot_quietly, visitRoot_quietly,
      alike final become name root before next earlier later splitOne splitOther]
  have finals : List.Perm (finishedAs final order) (finishedAs final d.definitions) :=
    perm.map _
  have distinct' : (finishedAs final d.definitions).Distinct := by
    rw [Table.Distinct, keys_finishedAs]
    exact distinct
  exact ⟨_, EachBecomes.walkPass (d := { d with definitions := order }) again,
    fun name => (Table.get?_of_perm finals distinct' name).symm⟩

end
end SchemaGraph
