import Mathlib.Data.List.Induction
import Mathlib.Data.List.Infix
import SchemaGraph.Proofs.CanonicalForm
import SchemaGraph.Proofs.ShallowWalks

/- What spreading the namespaces makes of the annotations: a rule that looks at the schema as it came in, at
   the node of a place and at the nodes above it. The walk itself sees enclosing annotations that are spread
   already; the invariant is that these pass on what the nearest annotation of the input does. -/
namespace SchemaGraph

/-- A definition, the value of a property or the items of an array. -/
def Place.isRead (place : Place) : Bool :=
  match place.getLast? with
  | none | some (.property _) | some .items => true
  | _ => false

namespace Schema

/-- The annotation of the nearest node above the place that has one. -/
def enclosingXml (root : Schema) (place : Place) : Option Xml :=
  place.inits.dropLast.reverse.findSome? fun above => (root.node? above).bind (·.keywords.xml)

/-- The schema without annotations. -/
def unannotated : Schema → Schema := rekey fun k => { k with xml := none }

variable (root : Schema)

theorem enclosingXml_cons (step : Step) (rest : Place) : root.enclosingXml (step :: rest) =
    ((root.children.child? step).bind (·.enclosingXml rest)).or root.keywords.xml := by
  have above : (step :: rest).inits.dropLast = [] :: rest.inits.dropLast.map (step :: ·) := by
    rw [List.inits_cons, List.dropLast_cons_of_ne_nil (by cases rest <;> simp), List.map_dropLast]
  have below : (rest.inits.dropLast.reverse.findSome? fun above =>
        (root.node? (step :: above)).bind (·.keywords.xml)) =
      (root.children.child? step).bind (·.enclosingXml rest) := by
    simp only [node?]
    cases root.children.child? step <;> simp [enclosingXml]
  rw [enclosingXml, above, List.reverse_cons, List.findSome?_append, ← List.map_reverse,
    List.findSome?_map]
  exact congrArg₂ Option.or below (by simp [node?])

end Schema

namespace XmlHints

/-- What a node with this annotation passes on to the nodes below: the namespace, an absent one being
the empty one, and its short name. -/
def passedOn (x : Xml) : Xml := { uri := some (x.uri.getD ""), qualifier := x.qualifier }

/-- The annotation of a node to which `passed` is passed on. -/
def annotation (passed : Option Xml) (s : Schema) : Option Xml :=
  match s.keywords.xml with
  | some x => some { x with uri := some (x.uri.getD "") }
  | none => if s.children.items.isNone && s.keywords.reference.isNone then passed else none

/-- The annotation that the node at a place is left with. In pure form it goes where it is not read,
and from arrays without a name. -/
def spread (pure : Bool) (root : Schema) (place : Place) (s : Schema) : Option Xml :=
  let xml := annotation ((root.enclosingXml place).map passedOn) s
  if pure && (!place.isRead || s.children.items.isSome && xml.any (·.name.isNone)) then none else xml

/-- What the enclosing annotations pass on. -/
def inherits (enclosing : List (Option Xml)) : Option Xml :=
  (enclosing.findSome? id).map Xml.inherited

theorem hint_eq_annotation (enclosing : List (Option Xml)) (s : Schema) :
    hint enclosing s = annotation (inherits enclosing) s := rfl

/-- Below a node that has an annotation, this one is passed on, and below any other node what is
passed on to it, be it an array or a reference or not. -/
theorem inherits_hint_cons (enclosing : List (Option Xml)) (s : Schema) :
    inherits (hint enclosing s :: enclosing) = (s.keywords.xml.map passedOn).or (inherits enclosing) := by
  cases own : s.keywords.xml with
  | some x =>
    rw [hint, own]
    rfl
  | none =>
    rw [hint_of_none own]
    split
    · rw [inherits, inherits]
      cases found : enclosing.findSome? id with
      | none => simp [found]
      | some x => rfl
    · rfl

theorem inherits_positionAt {pure : Bool} {place : Place} {root s : Schema} {p : Position}
    (stands : root.node? place = some s) :
    inherits ((visitor pure).positionAt place root p).enclosing =
      ((root.enclosingXml place).map passedOn).or (inherits p.enclosing) := by
  induction place generalizing root p with
  | nil => rfl
  | cons step rest ih =>
    obtain ⟨child, found, stands⟩ := Option.bind_eq_some_iff.mp stands
    have entered : (p.child (hint p.enclosing root) step.segments).enclosing =
        hint p.enclosing root :: p.enclosing := rfl
    rw [Visitor.positionAt_cons found, ih stands, Schema.enclosingXml_cons, found, Option.bind_some]
    change Option.or _ (inherits (p.child (hint p.enclosing root) step.segments).enclosing) = _
    rw [entered, inherits_hint_cons, ← Option.or_assoc]
    cases child.enclosingXml rest <;> rfl

/-- The segments to a place tell whether annotations are read there. -/
theorem isRead_eq {place : Place} (entered : place.isEntered = true) {p : Position}
    (here : p.trail = place.trail) (s : Schema) : isRead p s =
      (place.isRead && !(s.children.items.isSome && s.keywords.xml.any (·.name.isNone))) := by
  rw [isRead, Position.isRoot, Position.parentKey?, Position.key?, here]
  refine congrArg (· && _) ?_
  cases place using List.reverseRecOn with
  | nil => rfl
  | append_singleton above last =>
    have goes : last.isEntered = true :=
      List.all_eq_true.mp entered last (List.mem_append_right above List.mem_cons_self)
    rw [Place.trail_concat, Place.isRead, List.getLast?_concat]
    cases last with
    | property | items => simp [Step.segments]
    | allOf i | oneOf i | anyOf i => simp [Step.segments, Step.index_ne_items]
    | not | additional => cases goes

/-- The walk spreads the annotations by the rule. -/
theorem shown_positionAt (pure : Bool) {place : Place} (entered : place.isEntered = true)
    {root s : Schema} (stands : root.node? place = some s) {p : Position} (start : p.trail = [])
    (alone : p.enclosing = []) :
    shown pure ((visitor pure).positionAt place root p) s = spread pure root place s := by
  have here : ((visitor pure).positionAt place root p).trail = place.trail := by
    rw [Visitor.trail_positionAt stands, start, List.append_nil]
  have passed : inherits ((visitor pure).positionAt place root p).enclosing =
      (root.enclosingXml place).map passedOn := by
    rw [inherits_positionAt stands, alone]
    exact Option.or_none
  rw [shown, isRead_eq entered here, hint_eq_annotation, passed, spread, Schema.children_withXml,
    Schema.xml_withXml, Bool.not_and, Bool.not_not]

theorem children_turn (pure : Bool) (p : Position) (s : Schema) :
    ((visitor pure).turn p s).children = s.children := by
  rw [turn_visitor, Schema.children_withXml]

/-- Spreading the namespaces changes nothing but annotations, and those by the rule at every place
that the walk enters: a node's own annotation stays, its namespace filled in; a node without one that
is neither an array nor a reference gets the namespace and the short name of the nearest annotation
above it; and pure form takes away what is not read. -/
theorem run_spreads (pure : Bool) (d : Document) : ∃ left : Definitions,
    run pure d = ({ d with definitions := left }, .ok {}) ∧
    Table.mapValues Schema.unannotated left = Table.mapValues Schema.unannotated d.definitions ∧
    ∀ name place, (left.node? name place).map (·.keywords) =
      (d.definitions.get? name).bind fun root => (root.node? place).map fun s => { s.keywords with
        xml := if place.isEntered then spread pure root place s else s.keywords.xml } := by
  have shallow := shallow_visitor pure
  refine ⟨d.definitions.change d.flavor (visitor pure), rfl, ?_, fun name place => ?_⟩
  · refine Definitions.mapValues_rekey_change shallow (fun p s => ?_) (children_turn pure) _ _
    rw [turn_visitor]
    rfl
  · rw [Definitions.node?_change shallow fun p s step =>
      congrArg (Children.child? · step) (children_turn pure p s), Option.map_bind]
    refine Option.bind_congr fun root _ => ?_
    rw [Function.comp_apply, Option.map_map]
    refine Option.map_congr fun s stands => ?_
    rw [Function.comp_apply]
    split
    · rename_i entered
      rw [shallow.keywords_walk (Nat.le_refl _), turn_visitor,
        shown_positionAt pure entered stands rfl rfl]
      rfl
    · rfl

theorem turn_turn_visitor (pure : Bool) {p q : Position} (follows : Follows p q) (s : Schema) :
    (visitor pure).turn q ((visitor pure).turn p s) = (visitor pure).turn p s := by
  have again : shown pure q ((visitor pure).turn p s) = ((visitor pure).turn p s).keywords.xml := by
    refine shown_again (s := s) (g := id) pure follows (fun _ => rfl) (fun _ => rfl) ?_ ?_ ?_
    · rw [turn_visitor, Schema.xml_withXml, Option.map_id, id]
    · rw [turn_visitor]
      rfl
    · rw [children_turn]
  rw [turn_visitor pure q, again, Schema.withXml_self]

/-- A walk over what a walk left, from a position that follows that of the first, changes nothing. -/
theorem walk_walk_visitor (pure : Bool) (levels : Nat) {p q : Position} (follows : Follows p q)
    (s : Schema) : ((s.walk (visitor pure) levels p).run.walk (visitor pure) levels q).run =
      (s.walk (visitor pure) levels p).run := by
  induction levels generalizing p q s with
  | zero => rfl
  | succ levels ih =>
    have shallow := shallow_visitor pure
    have turned := turn_turn_visitor pure follows s
    have xml : (s.walk (visitor pure) (levels + 1) p).run.keywords.xml =
        (shown pure p s).map id := by
      rw [shallow.walk_succ, turn_visitor, Schema.xml_withXml, Option.map_id, id]
    refine (shallow.walk_again_iff levels (congrArg Schema.children turned)).mpr ⟨turned, ?_⟩
    exact fun placed _ => ih (follows.child pure xml placed.1) placed.2

/-- Annotations that are spread once are spread for good, although pure form takes away some that
were passed on: what could miss them has an annotation of its own by then, or loses what it gets. -/
theorem run_run (pure : Bool) (d : Document) : run pure (run pure d).1 = run pure d := by
  have shallow := shallow_visitor pure
  have same : (d.definitions.change d.flavor (visitor pure)).change d.flavor (visitor pure) =
      d.definitions.change d.flavor (visitor pure) := by
    rw [Definitions.change_eq_self_iff, Definitions.forall_mem_change_iff]
    intro e _
    have enough := shallow.levels_walk e.2.levels { flavor := d.flavor, definition := e.1 } e.2
    refine Eq.trans ?_ (walk_walk_visitor pure e.2.levels
      (p := { flavor := d.flavor, definition := e.1 }) ⟨rfl, id, by simp⟩ e.2)
    exact Schema.walk_eq_of_levels shallow.keeps _ (Nat.le_refl _) enough
  exact congrArg (fun definitions => Document.unreported { d with definitions }) same

end XmlHints

end SchemaGraph
