import SchemaGraph.Proofs.Attributes
import SchemaGraph.Proofs.CanonicalForm
import SchemaGraph.Proofs.Renaming

/- What the passes leave of the nodes that the walks meet: no records of a hierarchy, and no empty or
   temporary keys. -/
namespace SchemaGraph

namespace Schema

theorem EveryMet.redirect {holds : Keywords → Prop} {f : Reference → Option Reference}
    (turns : ∀ k, holds k → holds (k.redirect f)) {s : Schema} (h : s.EveryMet holds) :
    (s.redirect f).EveryMet holds := by
  induction s using children_induction with
  | step k c ih =>
    obtain ⟨own, below⟩ := (everyMet_mk_iff k c).mp h
    rw [redirect_mk, everyMet_mk_iff]
    refine ⟨turns k own, (Children.each_iff _ _).mpr fun s listed => ?_⟩
    rw [Children.toList_entered_map] at listed
    obtain ⟨child, member, rfl⟩ := List.mem_map.mp listed
    exact ih child ((c.mem_toList_iff child).mpr (Or.inl member))
      ((Children.each_iff _ _).mp below child member)

end Schema

/-- Nothing is recorded of the hierarchy that the node stands in. -/
def Keywords.NoRecords (k : Keywords) : Prop := k.ancestor = none ∧ k.descendants = none

theorem Keywords.NoRecords.onto {top base : Keywords} (first : top.NoRecords) (second : base.NoRecords) :
    (top.onto base).NoRecords := by
  simp [NoRecords, Keywords.onto, first.1, first.2, second.1, second.2]

namespace Typedefs
variable {d : Document}

theorem shallow_strip : Visitor.Shallow ⟨fun _ s => s, strip⟩ where
  keywords _ _ _ _ := rfl
  keeps _ _ := rfl
  after := ⟨fun _ _ _ _ => rfl, fun _ _ => rfl, fun _ _ => rfl⟩

theorem noRecords_run : ∀ e ∈ (run d).1.definitions, e.2.EveryMet Keywords.NoRecords := by
  have stripped : ∀ node ∈ (d.changeAfter strip).definitions.met, node.2.keywords.NoRecords := by
    intro node met
    obtain ⟨original, _, _, q, f, _, turned⟩ :=
      Definitions.exists_of_mem_met_change shallow_strip met
    rw [turned]
    exact ⟨rfl, rfl⟩
  rw [← Definitions.everyMet_iff] at stripped
  intro e listed
  obtain ⟨name, s, before, turned⟩ := exists_of_mem_run listed
  rw [turned]
  refine (stripped _ before).redirect fun k clear => ?_
  simp [Keywords.NoRecords, Keywords.redirect, clear.1, clear.2]

end Typedefs

namespace Attributes

section
variable {attributes : List String} {graph : Definitions}
  (plain : ∀ e ∈ graph, e.2.EveryMet Keywords.NoRecords)
include plain

theorem noRecords_after (position : Position) {s : Schema} (h : s.EveryMet Keywords.NoRecords) :
    Ends (fun _ => True) (Schema.EveryMet Keywords.NoRecords) (after attributes graph position s) := by
  rw [after]
  split
  · rename_i r refers
    split
    · rename_i inlined
      rw [Bool.and_eq_true, List.isEmpty_iff] at inlined
      rw [Definitions.overlay, Definitions.resolve, Definitions.target?_of_isPlain inlined.1]
      cases found : graph.get? r.name with
      | none => trivial
      | some target =>
        obtain ⟨k, c⟩ := s
        have there := plain _ (Table.mem_of_get? found)
        obtain ⟨own, below⟩ := (Schema.everyMet_mk_iff k c).mp h
        have rest : Schema.EveryMet Keywords.NoRecords ⟨{ k with reference := none }, c⟩ :=
          (Schema.everyMet_mk_iff _ c).mpr ⟨own, below⟩
        exact there.onto rest (there _ (Schema.mem_met_self _ []) |>.onto own)
    · exact h
  · exact h

theorem noRecords_walk (position : Position) {root : Schema}
    (h : root.EveryMet Keywords.NoRecords) :
    (Guarantee.plain.throwing fun _ => True).Holds (Schema.EveryMet Keywords.NoRecords)
      (root.walk (.ofAfter fun position s => ExceptT.mk (pure (after attributes graph position s)))
        root.levels position) := by
  refine Guarantee.walkAfter _ (fun k c h => ((Schema.everyMet_mk_iff k c).mp h).2)
    (fun position k c walked h below _ => ?_) position (Nat.le_refl _) h
  exact noRecords_after plain position
    ((Schema.everyMet_mk_iff k walked).mpr ⟨((Schema.everyMet_mk_iff k c).mp h).1, below⟩)

end

theorem noRecords_run {d : Document} (plain : ∀ e ∈ d.definitions, e.2.EveryMet Keywords.NoRecords) :
    ∀ e ∈ (run d).1.definitions, e.2.EveryMet Keywords.NoRecords := by
  let visitor (graph : Definitions) : Visitor (ExceptT Error Id) :=
    .ofAfter fun position s => ExceptT.mk (pure (after (attributes d) graph position s))
  have walked : Guarantee.plain.Holds (fun out : Definitions × Except Error Unit =>
      ∀ e ∈ out.1, e.2.EveryMet Keywords.NoRecords) (d.definitions.walk d.flavor 0 visitor) := by
    refine Guarantee.plain.walkFrom d.flavor 0 (fun _ => True)
      (fun finished rest => ∀ e ∈ finished ++ rest, e.2.EveryMet Keywords.NoRecords)
      (fun finished name root rest held => ?_) (fun finished held => by simpa using held)
      (fun finished rest _ held _ => held) [] d.definitions plain
    refine Guarantee.mono _ (noRecords_walk held _ (held (name, root) (by simp))) fun changed met => ?_
    simp only [List.mem_append, List.mem_cons, List.not_mem_nil, or_false] at held ⊢
    rintro e ((earlier | rfl) | later)
    · exact held e (Or.inl earlier)
    · exact met
    · exact held e (Or.inr (Or.inr later))
  exact of_run (motive := fun d => ∀ e ∈ d.definitions, e.2.EveryMet Keywords.NoRecords) plain walked
    fun _ _ left e listed => left e (List.mem_of_mem_filter listed)

end Attributes

/-! The passes that finish a document keep it so, and clean the other keys. -/

theorem Canonical.noRecords_cleaned {v3 : Option Bool} {k : Keywords} (h : k.NoRecords) :
    (cleaned v3 k).NoRecords := by
  rcases v3 with _ | _ | _ <;> exact h

section
variable (isPure : Bool) (v3 : Option Bool) (p : Position) {s : Schema}

theorem noRecords_turn_finisher (h : s.keywords.NoRecords) :
    ((finisher isPure v3).turn p s).keywords.NoRecords := by
  rw [turn_finisher, Canonical.polish_eq]
  exact Canonical.noRecords_cleaned h

theorem extra_turn_finisher (s : Schema) :
    ((finisher isPure v3).turn p s).keywords.extra = Canonical.cleanExtra s.keywords.extra := by
  rw [turn_finisher, Canonical.polish_eq, Canonical.extra_cleaned]
  rfl

end

end SchemaGraph
