import SchemaGraph.Proofs.RelatedWalks
import SchemaGraph.Proofs.ShapeChains

/- What the expansion of a definition looks up: the shapes of its nodes, the shapes of these and,
   where unions are written out, the extensions that are listed on the way. Two graphs that agree as
   far as that reaches make the same of the definition. -/
namespace SchemaGraph

/-- From every state the same result on both sides, and the same noted further. -/
def noting : Likeness (StateM Bool) (StateM Bool) where
  Alike p x y := ∃ a more, p a ∧ (∀ noted, x.run noted = (a, noted || more)) ∧
    ∀ noted, y.run noted = (a, noted || more)
  pure h := ⟨_, false, h, fun noted => by rw [Bool.or_false]; rfl,
    fun noted => by rw [Bool.or_false]; rfl⟩
  bind := by
    rintro α β p q x y f g ⟨a, more, holds, one, other⟩ next
    obtain ⟨b, further, ends, here, there⟩ := next a holds
    refine ⟨b, more || further, ends, fun noted => ?_, fun noted => ?_⟩
    · rw [StateT.run_bind, one, ← Bool.or_assoc]
      exact here _
    · rw [StateT.run_bind, other, ← Bool.or_assoc]
      exact there _

theorem holds_of_noting {α : Type} {p : α → Prop} {x y : StateM Bool α}
    (alike : noting.Alike p x y) : (Guarantee.state Bool).Holds p x := by
  obtain ⟨a, more, holds, ran, _⟩ := alike
  intro noted
  rw [ran]
  exact holds

namespace TypeExpansion

/-- What a node looks up lies within the names: the shape that it has and, where unions are written
out, its extensions. -/
abbrev LooksWithin (unions : Bool) (names : String → Prop) : Keywords → Prop :=
  ShapesIn (fun r => names r.name) fun r => unions = true → names r.name

section
variable {dictionary : Dictionary} {within : String → String → Prop}
  (trans : ∀ a b c, within a b → within b c → within a c) {one other : Definitions} {name : String}

/-- Two graphs have the same under all names within reach of a definition, and what is there looks
up no other names. -/
structure Agree (unions : Bool) (within : String → String → Prop) (name : String)
    (one other : Definitions) : Prop where
  same : ∀ target, within name target → one.get? target = other.get? target
  closed : ∀ target s, within name target → one.get? target = some s →
    s.Every (LooksWithin unions (within target))

variable (agree : Agree dictionary.unions within name one other)
include agree

theorem Agree.target?_eq {r : Reference} (inside : within name r.name) :
    one.target? r = other.target? r := by
  rw [Definitions.target?, Definitions.target?, agree.same r.name inside]

theorem Agree.resolve_eq {r : Reference} (inside : within name r.name) (location : String) :
    one.resolve r location = other.resolve r location := by
  rw [Definitions.resolve, Definitions.resolve, agree.target?_eq inside]

theorem Agree.every {r : Reference} (inside : within name r.name) {target : Schema}
    (meant : one.target? r = some target) :
    target.Every (LooksWithin dictionary.unions (within r.name)) := by
  obtain ⟨root, found, here⟩ := Option.bind_eq_some_iff.mp meant
  exact Schema.of_descend (fun _ every => every.below) r.tail (agree.closed _ _ inside found) here

theorem Agree.mapping_eq {members : List Reference} (inside : ∀ r ∈ members, within name r.name)
    (location : String) (isFirst : Bool) (t : Table String) :
    mapping one location isFirst t members = mapping other location isFirst t members := by
  induction members generalizing isFirst t with
  | nil => rfl
  | cons member rest ih =>
    obtain ⟨here, later⟩ := List.forall_mem_cons.mp inside
    rw [mapping, mapping, agree.resolve_eq here]
    exact congrArg (other.resolve member location >>= ·) (funext fun target => ih later _ _)

include trans

/-- Both graphs have the same chain, and it stays within reach. -/
theorem Agree.follow_eq (location : String) (max : Nat) {depth : Nat} {shape : Shape}
    (inside : within name shape.reference.name)
    (meant : one.target? shape.reference = some shape.target) :
    follow one location max depth shape = follow other location max depth shape := by
  induction depth generalizing shape with
  | zero => rfl
  | succ depth ih =>
    rw [follow, follow]
    split
    · rfl
    · rename_i next further
      have reached := trans _ _ _ inside ((agree.every inside meant).own.1 next further)
      rw [← agree.resolve_eq reached]
      cases resolved : one.resolve next location with
      | error e => rfl
      | ok target => exact ih reached (Definitions.target?_of_resolve resolved)

theorem Agree.chain {r final : Reference} {targets : List Schema} (inside : within name r.name)
    (chain : Chain one r targets final) : within name final.name ∧
      ∀ l, targets.findSome? (·.keywords.descendants) = some l →
        ∀ q ∈ l, dictionary.unions = true → within name q.name := by
  induction chain with
  | last meant _ =>
    refine ⟨inside, fun l listed q member unions => ?_⟩
    rw [List.findSome?_singleton] at listed
    exact trans _ _ _ inside ((agree.every inside meant).own.2 l listed q member unions)
  | @next r after final target targets meant further _ ih =>
    have every := (agree.every inside meant).own
    obtain ⟨reached, extensions⟩ := ih (trans _ _ _ inside (every.1 after further))
    refine ⟨reached, fun l listed q member unions => ?_⟩
    rw [List.findSome?_cons] at listed
    cases here : target.keywords.descendants with
    | none =>
      rw [here] at listed
      exact extensions l listed q member unions
    | some _ =>
      rw [here] at listed
      cases listed
      exact trans _ _ _ inside (every.2 l here q member unions)

/-- A node is expanded alike in both graphs. -/
theorem Agree.expand_eq {maxDepth : Nat} {p : Position} {s : Schema} {typeOf : Reference}
    (own : LooksWithin dictionary.unions (within name) s.keywords)
    (inside : within name typeOf.name) :
    expand dictionary maxDepth one p s typeOf =
      expand dictionary maxDepth other p s typeOf := by
  rw [expand, expand, ← agree.resolve_eq inside]
  cases resolved : one.resolve typeOf p.location with
  | error e => rfl
  | ok first =>
    have meant := Definitions.target?_of_resolve resolved
    have followed : follow one p.location maxDepth maxDepth (startShape s typeOf first) =
        follow other p.location maxDepth maxDepth (startShape s typeOf first) :=
      agree.follow_eq trans p.location maxDepth inside meant
    change (follow one p.location maxDepth maxDepth (startShape s typeOf first) >>= _) =
      (follow other p.location maxDepth maxDepth (startShape s typeOf first) >>= _)
    rw [← followed]
    cases found : follow one p.location maxDepth maxDepth (startShape s typeOf first) with
    | error e => rfl
    | ok shape =>
      obtain ⟨targets, chain, _, descendants⟩ := chain_of_start meant found
      obtain ⟨reached, extensions⟩ := agree.chain trans inside chain
      change (if _ then _ else _) = (if _ then _ else _)
      -- Only a union looks up its extensions.
      split
      · rename_i union
        have unions := (Bool.and_eq_true_iff.mp union).1
        have members : ∀ r ∈ shape.reference :: shape.descendants.getD [], within name r.name := by
          refine List.forall_mem_cons.mpr ⟨reached, fun r listed => ?_⟩
          obtain ⟨l, held, member⟩ : ∃ l, shape.descendants = some l ∧ r ∈ l := by
            cases held : shape.descendants with
            | none => simp [held] at listed
            | some l => exact ⟨l, rfl, by simpa [held] using listed⟩
          rcases Option.or_eq_some_iff.mp (descendants.symm.trans held) with here | ⟨_, further⟩
          · exact own.2 l here r member unions
          · exact extensions l further r member unions
        rw [agree.mapping_eq members]
      · rfl

/-- What a node is expanded to looks up nothing that is out of reach. -/
theorem Agree.every_expand {maxDepth : Nat} {p : Position} {s made : Schema} {typeOf : Reference}
    (own : LooksWithin dictionary.unions (within name) s.keywords)
    (inside : within name typeOf.name)
    (expanded : expand dictionary maxDepth one p s typeOf = .ok made) :
    made.Every (LooksWithin dictionary.unions (within name)) := by
  refine every_of_expand expanded own.2 fun targets final target chain meant => ?_
  have reached := (agree.chain trans inside chain).1
  intro k member
  obtain ⟨shape, extensions⟩ := agree.every reached meant k member
  exact ⟨fun r shaped => trans _ _ _ reached (shape r shaped),
    fun l listed r inside unions => trans _ _ _ reached (extensions l listed r inside unions)⟩

end

section
variable (dictionary : Dictionary) (maxDepth : Nat) {one other : Definitions}

/-- Hooks that expand alike do the same and note the same. -/
theorem alike_after {holds : Schema → Prop} {p : Position} {s : Schema}
    (plain : s.keywords.typeOf = none → holds s)
    (same : ∀ typeOf, s.keywords.typeOf = some typeOf →
      expand dictionary maxDepth one p s typeOf = expand dictionary maxDepth other p s typeOf ∧
        Ends (fun _ => True) holds (expand dictionary maxDepth one p s typeOf)) :
    noting.throwing.Alike holds (after dictionary maxDepth one p s)
      (after dictionary maxDepth other p s) := by
  rw [after, after]
  split
  · rename_i none
    exact Likeness.pure _ (plain none)
  · rename_i typeOf shaped
    obtain ⟨alike, ends⟩ := same typeOf shaped
    rw [← alike]
    refine Likeness.bind _ (p := holds) (noting.pure ends) fun made inside => ?_
    refine Likeness.bind _ (p := fun _ => True) ?_ fun _ _ => Likeness.pure _ inside
    exact ⟨.ok (), true, trivial, fun noted => by rw [Bool.or_true]; rfl,
      fun noted => by rw [Bool.or_true]; rfl⟩

/-- What a walk comes to and what it notes does not depend on what was noted before. -/
theorem alike_walk (graph : Definitions) (levels : Nat) (p : Position) (s : Schema) :
    noting.throwing.Alike (fun _ => True)
      (s.walk (.ofAfter (after dictionary maxDepth graph)) levels p)
      (s.walk (.ofAfter (after dictionary maxDepth graph)) levels p) := by
  refine noting.throwing.walk Schema.hereditary_true
    (fun p s _ => alike_after dictionary maxDepth (fun _ => trivial) fun typeOf _ => ⟨rfl, ?_⟩)
    levels p trivial
  cases expand dictionary maxDepth graph p s typeOf <;> trivial

variable {dictionary} in
theorem Agree.walk {within : String → String → Prop}
    (trans : ∀ a b c, within a b → within b c → within a c) {name : String}
    (agree : Agree dictionary.unions within name one other) (levels : Nat) (p : Position)
    {s : Schema} (every : s.Every (LooksWithin dictionary.unions (within name))) :
    noting.throwing.Alike (Schema.Every (LooksWithin dictionary.unions (within name)))
      (s.walk (.ofAfter (after dictionary maxDepth one)) levels p)
      (s.walk (.ofAfter (after dictionary maxDepth other)) levels p) := by
  refine noting.throwing.walk (Schema.hereditary_every _) (fun p s every => ?_) levels p every
  refine alike_after dictionary maxDepth (fun _ => every) fun typeOf shaped => ?_
  have inside := every.own.1 typeOf shaped
  refine ⟨agree.expand_eq trans every.own inside, ?_⟩
  cases expanded : expand dictionary maxDepth one p s typeOf with
  | error e => trivial
  | ok made => exact agree.every_expand trans every.own inside expanded

end

end TypeExpansion
end SchemaGraph
