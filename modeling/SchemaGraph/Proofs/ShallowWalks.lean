import SchemaGraph.Proofs.OptionalBranches

/- Walks of shallow hooks, place by place. Afterwards the node of a place is the one that stood there,
   walked from the position that the walk had come to; where no walk goes, it is untouched. -/
namespace SchemaGraph

namespace Visitor
variable (v : Visitor Id)

/-- The position in which a walk meets the node at the place. -/
def positionAt : Place → Schema → Position → Position
  | [], _, p => p
  | step :: rest, s, p =>
    match s.children.child? step with
    | some child => positionAt rest child (p.child (v.before p s).run.keywords.xml step.segments)
    | none => p

variable {v} {place rest : Place} {step : Step} {s t child : Schema} {p : Position} {levels : Nat}

theorem positionAt_cons (found : s.children.child? step = some child) :
    v.positionAt (step :: rest) s p =
      v.positionAt rest child (p.child (v.before p s).run.keywords.xml step.segments) := by
  rw [positionAt, found]

theorem trail_positionAt (stands : s.node? place = some t) :
    (v.positionAt place s p).trail = place.trail ++ p.trail := by
  induction place generalizing s p with
  | nil => rfl
  | cons step rest ih =>
    obtain ⟨child, found, stands⟩ := Option.bind_eq_some_iff.mp stands
    rw [positionAt_cons found, ih stands, Place.trail_cons, List.append_assoc]
    rfl

theorem Shallow.keywords_walk (h : v.Shallow) (enough : s.levels ≤ levels) :
    (s.walk v levels p).run.keywords = (v.turn p s).keywords := by
  cases levels with
  | zero => exact absurd s.levels_pos (by omega)
  | succ levels => rw [h.walk_succ]

/-- Hooks that give up no child leave every node at its place. -/
theorem Shallow.node?_walk (h : v.Shallow)
    (holds : ∀ p s step, (v.turn p s).children.child? step = s.children.child? step)
    (place : Place) (enough : s.levels ≤ levels) :
    (s.walk v levels p).run.node? place = (s.node? place).map fun t =>
      if place.isEntered then (t.walk v t.levels (v.positionAt place s p)).run else t := by
  induction place generalizing levels p s with
  | nil => exact congrArg some (Schema.walk_eq_of_levels h.keeps p enough (Nat.le_refl _))
  | cons step rest ih =>
    cases levels with
    | zero => exact absurd s.levels_pos (by omega)
    | succ levels =>
      obtain ⟨k, c⟩ := s
      rw [h.walk_succ, Schema.node?, Children.child?_mapEntered, holds, Schema.node?]
      cases found : c.child? step with
      | none => rfl
      | some child =>
        have lower : child.levels < Schema.levels ⟨k, c⟩ :=
          Schema.levels_lt_of_mem (Children.mem_toList_of_child? found)
        rw [Option.map_some, Option.bind_some, Option.bind_some, positionAt_cons found,
          Place.isEntered, List.all_cons, ← Place.isEntered]
        cases step.isEntered with
        | true => exact ih (by omega)
        | false => simp

/-- Hooks that keep a view of the keywords, and the children, keep that view of the schema. -/
theorem Shallow.rekey_walk (h : v.Shallow) {g : Keywords → Keywords}
    (keywords : ∀ p s, g (v.turn p s).keywords = g s.keywords)
    (children : ∀ p s, (v.turn p s).children = s.children) (levels : Nat) (p : Position)
    (s : Schema) : (s.walk v levels p).run.rekey g = s.rekey g := by
  induction levels generalizing p s with
  | zero => rfl
  | succ levels ih =>
    obtain ⟨k, c⟩ := s
    rw [h.walk_succ, Schema.rekey_mk, Schema.rekey_mk, keywords, children,
      Children.map_mapEntered fun _ _ => ih _ _]

end Visitor

namespace Definitions
variable {v : Visitor Id}

/-- The node at a place of a definition. -/
def node? (definitions : Definitions) (name : String) (place : Place) : Option Schema :=
  (definitions.get? name).bind (Schema.node? place)

theorem node?_change (h : v.Shallow)
    (holds : ∀ p s step, (v.turn p s).children.child? step = s.children.child? step)
    (flavor : Flavor) (definitions : Definitions) (name : String) (place : Place) :
    (definitions.change flavor v).node? name place =
      (definitions.get? name).bind fun root => (root.node? place).map fun s =>
        if place.isEntered then
          (s.walk v s.levels (v.positionAt place root { flavor, definition := name })).run
        else s := by
  rw [node?, get?_change]
  cases definitions.get? name with
  | none => rfl
  | some root => exact h.node?_walk holds place (Nat.le_refl _)

theorem mapValues_rekey_change (h : v.Shallow) {g : Keywords → Keywords}
    (keywords : ∀ p s, g (v.turn p s).keywords = g s.keywords)
    (children : ∀ p s, (v.turn p s).children = s.children) (flavor : Flavor)
    (definitions : Definitions) : Table.mapValues (Schema.rekey g) (definitions.change flavor v) =
      Table.mapValues (Schema.rekey g) definitions := by
  rw [Table.mapValues, change, List.map_map]
  exact List.map_congr_left fun e _ =>
    congrArg (Prod.mk e.1) (h.rekey_walk keywords children e.2.levels _ e.2)

end Definitions
end SchemaGraph
