import Mathlib.Logic.Relation
import SchemaGraph.Inlining
import SchemaGraph.Proofs.FoldedContent

/- Inlining to the end. What inlining goes on with is either what a reference stands for, and then one
   inlining less is left, or a child, and then less of the node is; so it ends on all graphs. It succeeds
   exactly where no chain of inlinings is too long and no reference on the way is lost, and then nothing
   that it has gone through refers any more. -/
namespace SchemaGraph

section
variable {ε α β : Type} {f : α → Except ε β}

theorem forall₂_of_walkOption {o : Option α} {o' : Option β} (ended : walkOption f o = .ok o') :
    List.Forall₂ (fun a b => f a = .ok b) o.toList o'.toList := by
  cases o with
  | none =>
    cases ended
    exact .nil
  | some a =>
    obtain ⟨b, here, ended⟩ := of_bind_eq_ok ended
    cases ended
    exact .cons here .nil

theorem forall₂_of_walkMembers {o : Option (List α)} {o' : Option (List β)}
    (ended : walkOption (List.mapM f) o = .ok o') :
    List.Forall₂ (fun a b => f a = .ok b) (o.getD []) (o'.getD []) := by
  cases o with
  | none =>
    cases ended
    exact .nil
  | some l =>
    obtain ⟨l', here, ended⟩ := of_bind_eq_ok ended
    cases ended
    exact mapM_eq_ok_iff.mp here

theorem exists_walkOption {o : Option α} (each : ∀ a, o = some a → ∃ b, f a = .ok b) :
    ∃ o', walkOption f o = .ok o' := by
  cases o with
  | none => exact ⟨none, rfl⟩
  | some a =>
    obtain ⟨b, here⟩ := each a rfl
    refine ⟨some b, ?_⟩
    rw [walkOption, here]
    rfl

end

namespace Inlining

/-- What becomes of a reference, with so many inlinings left. -/
def deeper (graph : Definitions) (location : String) (max : Nat) :
    Nat → Reference → Schema → Except Error Schema
  | 0, r, _ => do
    let _ ← graph.resolve r location
    throw (.depthExceeded location max)
  | budget + 1, r, s => do
    inlineWithin graph location max budget (← graph.overlay r s location)

section
variable {graph : Definitions} {location : String} {max budget : Nat} {s left : Schema} {r : Reference}

theorem inlineWithin_mk (graph : Definitions) (location : String) (max budget : Nat) (k : Keywords)
    (c : Children Schema) : inlineWithin graph location max budget ⟨k, c⟩ =
      inlineNode (deeper graph location max budget) k
        (c.map fun child => (child, fun _ => inlineWithin graph location max budget child)) () := by
  have unfolded (s : Schema) : inlineWithin graph location max budget s =
      s.para (inlineNode (deeper graph location max budget)) () := by
    cases budget <;> rfl
  have same : (fun child : Schema => (child, fun _ => inlineWithin graph location max budget child)) =
      fun child => (child, child.para (inlineNode (deeper graph location max budget))) :=
    funext fun child => congrArg (Prod.mk child) (funext fun _ => unfolded child)
  rw [unfolded, Schema.para_mk, same]

theorem map_fst_children (run : Schema → Unit → Except Error Schema) (c : Children Schema) :
    (c.map fun child => (child, run child)).map Prod.fst = c := by
  rw [Children.map_map]
  exact c.map_id

theorem inlineWithin_of_reference (refers : s.keywords.reference = some r) :
    inlineWithin graph location max budget s = deeper graph location max budget r s := by
  obtain ⟨k, c⟩ := s
  replace refers : k.reference = some r := refers
  rw [inlineWithin_mk, inlineNode, map_fst_children, refers]

theorem inlineWithin_of_free (free : s.keywords.reference = none) :
    inlineWithin graph location max budget s =
      if s.isObject then .ok s else do
        let items ← walkOption (inlineWithin graph location max budget) s.children.items
        let allOf ← walkOption (List.mapM (inlineWithin graph location max budget)) s.children.allOf
        let oneOf ← walkOption (List.mapM (inlineWithin graph location max budget)) s.children.oneOf
        let anyOf ← walkOption (List.mapM (inlineWithin graph location max budget)) s.children.anyOf
        return { s with
          children.items := items, children.allOf := allOf, children.oneOf := oneOf,
          children.anyOf := anyOf } := by
  let run (child : Schema) : Child := (child, fun _ => inlineWithin graph location max budget child)
  have single (o : Option Schema) : walkOption (fun child : Child => child.2 ()) (o.map run) =
      walkOption (inlineWithin graph location max budget) o := by
    cases o <;> rfl
  have members (o : Option (List Schema)) : runList (o.map (List.map run)) =
      walkOption (List.mapM (inlineWithin graph location max budget)) o := by
    cases o with
    | none => rfl
    | some l => simp [runList, walkOption, run, Function.comp_def]
  obtain ⟨k, c⟩ := s
  replace free : k.reference = none := free
  have items : walkOption (fun child : Child => child.2 ()) (c.map run).items = _ := single c.items
  have allOf : runList (c.map run).allOf = _ := members c.allOf
  have oneOf : runList (c.map run).oneOf = _ := members c.oneOf
  have anyOf : runList (c.map run).anyOf = _ := members c.anyOf
  rw [inlineWithin_mk, inlineNode, map_fst_children, free]
  dsimp only
  rw [items, allOf, oneOf, anyOf]

/-- The children that inlining goes on with; the inside of an object stays as it is. -/
def opened (s : Schema) : List Schema :=
  if s.isObject then [] else
    s.children.items.toList ++ s.children.allOf.getD [] ++ s.children.oneOf.getD [] ++
      s.children.anyOf.getD []

theorem mem_toList_of_opened {child : Schema} (below : child ∈ opened s) :
    child ∈ s.children.toList := by
  rw [opened] at below
  split at below
  · cases below
  · simp only [List.mem_append] at below
    simp only [Children.toList, List.mem_append]
    tauto

/-- A node that is no reference keeps what it says, and each of the opened children is inlined. -/
theorem opened_of_ok (free : s.keywords.reference = none)
    (ended : inlineWithin graph location max budget s = .ok left) :
    left.keywords = s.keywords ∧ List.Forall₂
      (fun child child' => inlineWithin graph location max budget child = .ok child')
      (opened s) (opened left) := by
  rw [inlineWithin_of_free free] at ended
  split at ended
  · rename_i object
    cases ended
    rw [opened, if_pos object]
    exact ⟨rfl, .nil⟩
  · rename_i noObject
    obtain ⟨items, inItems, ended⟩ := of_bind_eq_ok ended
    obtain ⟨allOf, inAllOf, ended⟩ := of_bind_eq_ok ended
    obtain ⟨oneOf, inOneOf, ended⟩ := of_bind_eq_ok ended
    obtain ⟨anyOf, inAnyOf, ended⟩ := of_bind_eq_ok ended
    cases ended
    refine ⟨rfl, ?_⟩
    rw [opened, if_neg noObject]
    show List.Forall₂ _ _ (if s.isObject then _ else _)
    rw [if_neg noObject]
    have inBoth := List.rel_append (forall₂_of_walkOption inItems) (forall₂_of_walkMembers inAllOf)
    exact List.rel_append (List.rel_append inBoth (forall₂_of_walkMembers inOneOf))
      (forall₂_of_walkMembers inAnyOf)

/-- A reference is replaced, and one inlining less is left. -/
theorem overlaid_of_ok (refers : s.keywords.reference = some r)
    (ended : inlineWithin graph location max budget s = .ok left) :
    ∃ target rest, graph.target? r = some target ∧ budget = rest + 1 ∧
      inlineWithin graph location max rest
        (target.onto { s with keywords.reference := none }) = .ok left := by
  rw [inlineWithin_of_reference refers] at ended
  cases budget with
  | zero =>
    obtain ⟨_, _, ended⟩ := of_bind_eq_ok ended
    cases ended
  | succ budget =>
    obtain ⟨overlaid, laid, ended⟩ := of_bind_eq_ok ended
    obtain ⟨target, resolved, laid⟩ := of_bind_eq_ok laid
    cases laid
    exact ⟨target, budget, Definitions.target?_of_resolve resolved, rfl, ended⟩

/-- Inlining succeeds, with so many inlinings left. -/
def Succeeds (graph : Definitions) (location : String) (max budget : Nat) (s : Schema) : Prop :=
  ∃ inlined, inlineWithin graph location max budget s = .ok inlined

theorem succeeds_of_opened (free : s.keywords.reference = none)
    (each : ∀ child ∈ opened s, Succeeds graph location max budget child) :
    Succeeds graph location max budget s := by
  rw [Succeeds, inlineWithin_of_free free]
  split
  · exact ⟨s, rfl⟩
  · rename_i noObject
    rw [opened, if_neg noObject] at each
    simp only [List.mem_append, or_imp, forall_and] at each
    obtain ⟨⟨⟨inItems, inAllOf⟩, inOneOf⟩, inAnyOf⟩ := each
    have members {o : Option (List Schema)}
        (each : ∀ child ∈ o.getD [], Succeeds graph location max budget child) :
        ∃ o', walkOption (List.mapM (inlineWithin graph location max budget)) o = .ok o' := by
      refine exists_walkOption fun l held => exists_mapM_eq_ok ?_
      rwa [held] at each
    obtain ⟨items, inItems⟩ := exists_walkOption fun child held =>
      inItems child (Option.mem_toList.mpr held)
    obtain ⟨allOf, inAllOf⟩ := members inAllOf
    obtain ⟨oneOf, inOneOf⟩ := members inOneOf
    obtain ⟨anyOf, inAnyOf⟩ := members inAnyOf
    rw [inItems, inAllOf, inOneOf, inAnyOf]
    exact ⟨_, rfl⟩

end

/-- What inlining goes on with at a node, and how many inlinings this takes: what its reference stands
for, or an opened child. -/
inductive Follows (graph : Definitions) : Nat → Schema → Schema → Prop where
  | inlined {s target : Schema} {r : Reference} (refers : s.keywords.reference = some r)
      (found : graph.target? r = some target) :
      Follows graph 1 s (target.onto { s with keywords.reference := none })
  | opened {s child : Schema} (free : s.keywords.reference = none) (below : child ∈ opened s) :
      Follows graph 0 s child

/-- What inlining comes to from a node, through a chain of so many inlinings. -/
inductive Leads (graph : Definitions) : Nat → Schema → Schema → Prop where
  | here (s : Schema) : Leads graph 0 s s
  | next {m n : Nat} {s t u : Schema} (first : Follows graph m s t) (rest : Leads graph n t u) :
      Leads graph (m + n) s u

/-- A call for a node with so many inlinings left calls itself for another one: there are no
other calls in `inlineWithin_of_free` and `deeper`. -/
def Calls (graph : Definitions) (later earlier : Nat × Schema) : Prop :=
  ∃ n, Follows graph n earlier.2 later.2 ∧ earlier.1 = later.1 + n

/-- An inlining is used up, or the node has fewer levels. -/
theorem wellFounded_calls (graph : Definitions) : WellFounded (Calls graph) := by
  let measure (call : Nat × Schema) : Nat × Nat := (call.1, call.2.levels)
  refine Subrelation.wf (fun {later earlier} calls => ?_)
    (InvImage.wf measure (Prod.lex Nat.lt_wfRel Nat.lt_wfRel).wf)
  obtain ⟨budget, s⟩ := earlier
  obtain ⟨budget', t⟩ := later
  obtain ⟨n, follows, left⟩ := calls
  dsimp only at follows left
  cases follows with
  | inlined refers found =>
    have less : budget' < budget := by omega
    exact .left _ _ less
  | opened free below =>
    cases left
    obtain ⟨k, c⟩ := s
    exact .right _ (Schema.levels_lt_of_mem (mem_toList_of_opened below))

section
variable {graph : Definitions} {location : String} {max budget : Nat} {s : Schema}

/-- One step: the node's reference is not lost, and inlining succeeds for what follows. -/
theorem succeeds_iff : Succeeds graph location max budget s ↔
    (∀ r, s.keywords.reference = some r → (graph.target? r).isSome) ∧
    ∀ n t, Follows graph n s t → n ≤ budget ∧ Succeeds graph location max (budget - n) t := by
  cases refers : s.keywords.reference with
  | none =>
    constructor
    · rintro ⟨left, ended⟩
      refine ⟨fun _ same => (nomatch same), fun n t follows => ?_⟩
      cases follows with
      | inlined refers' _ => cases refers.symm.trans refers'
      | opened _ below =>
        obtain ⟨_, pairs⟩ := opened_of_ok refers ended
        obtain ⟨t', _, ended⟩ := exists_of_mem_right pairs.flip below
        exact ⟨Nat.zero_le _, t', ended⟩
    · rintro ⟨_, each⟩
      exact succeeds_of_opened refers fun child below => (each 0 child (.opened refers below)).2
  | some r =>
    constructor
    · rintro ⟨left, ended⟩
      obtain ⟨target, rest, found, rfl, inlines⟩ := overlaid_of_ok refers ended
      refine ⟨fun r' same => ?_, fun n t follows => ?_⟩
      · cases same
        exact Option.isSome_iff_exists.mpr ⟨target, found⟩
      · cases follows with
        | inlined refers' found' =>
          cases refers.symm.trans refers'
          cases found.symm.trans found'
          exact ⟨by omega, left, inlines⟩
        | opened free _ => cases refers.symm.trans free
    · rintro ⟨known, each⟩
      obtain ⟨target, found⟩ := Option.isSome_iff_exists.mp (known r rfl)
      obtain ⟨enough, left, ended⟩ := each 1 _ (.inlined refers found)
      obtain ⟨budget, rfl⟩ := Nat.exists_eq_add_one.mpr enough
      refine ⟨left, ?_⟩
      rw [inlineWithin_of_reference refers, deeper, Definitions.overlay, Definitions.resolve, found]
      exact ended

/-- A whole chain: inlining succeeds for all that the node leads to. -/
theorem Succeeds.of_leads {n : Nat} {t : Schema} (succeeds : Succeeds graph location max budget s)
    (leads : Leads graph n s t) :
    n ≤ budget ∧ ∀ r, t.keywords.reference = some r → (graph.target? r).isSome := by
  induction leads generalizing budget with
  | here s => exact ⟨Nat.zero_le _, (succeeds_iff.mp succeeds).1⟩
  | next first rest ih =>
    obtain ⟨enough, succeeds⟩ := (succeeds_iff.mp succeeds).2 _ _ first
    obtain ⟨within, known⟩ := ih succeeds
    exact ⟨by omega, known⟩

theorem succeeds_of_leads (location : String) (max : Nat) (call : Nat × Schema)
    (each : ∀ n t, Leads graph n call.2 t →
      n ≤ call.1 ∧ ∀ r, t.keywords.reference = some r → (graph.target? r).isSome) :
    Succeeds graph location max call.1 call.2 := by
  induction call using (wellFounded_calls graph).induction with
  | _ call ih =>
    refine succeeds_iff.mpr ⟨(each 0 _ (.here _)).2, fun n t follows => ?_⟩
    have enough : n ≤ call.1 := (each (n + 0) t (.next follows (.here t))).1
    refine ⟨enough, ih (call.1 - n, t) ⟨n, follows, by dsimp only; omega⟩ fun n' u leads => ?_⟩
    obtain ⟨within, known⟩ := each (n + n') u (.next follows leads)
    exact ⟨by dsimp only; omega, known⟩

/-- What has been inlined refers nowhere along the opened children. -/
theorem free_of_ok (call : Nat × Schema) {inlined t : Schema}
    (ended : inlineWithin graph location max call.1 call.2 = .ok inlined)
    (reached : Relation.ReflTransGen (fun s child => child ∈ opened s) inlined t) :
    t.keywords.reference = none := by
  induction call using (wellFounded_calls graph).induction generalizing inlined t with
  | _ call ih =>
    obtain ⟨budget, s⟩ := call
    cases refers : s.keywords.reference with
    | none =>
      obtain ⟨same, pairs⟩ := opened_of_ok refers ended
      rcases reached.cases_head with rfl | ⟨child', below, reached⟩
      · rw [same, refers]
      · obtain ⟨child, opens, ended⟩ := exists_of_mem_right pairs below
        exact ih (budget, child) ⟨0, .opened refers opens, rfl⟩ ended reached
    | some r =>
      obtain ⟨target, rest, found, rfl, inlines⟩ := overlaid_of_ok refers ended
      exact ih (rest, _) ⟨1, .inlined refers found, rfl⟩ inlines reached

end

/-- Inlining calls itself only for less, on all graphs. When it ends well, no node along the opened
children refers; and it does exactly when no chain of inlinings is longer than the bound and every
reference on the way leads to a node. -/
theorem inlining_complete (graph : Definitions) (location : String) (maxDepth : Nat) (s : Schema) :
    WellFounded (Calls graph) ∧
    (∀ inlined, inlineReferences graph location maxDepth s = .ok inlined →
      ∀ t, Relation.ReflTransGen (fun s child => child ∈ opened s) inlined t →
        t.keywords.reference = none) ∧
    ((∃ inlined, inlineReferences graph location maxDepth s = .ok inlined) ↔
      ∀ n t, Leads graph n s t →
        n ≤ maxDepth ∧ ∀ r, t.keywords.reference = some r → (graph.target? r).isSome) := by
  refine ⟨wellFounded_calls graph, fun inlined ended t reached => ?_, fun succeeds n t leads => ?_,
    fun each => ?_⟩
  · exact free_of_ok (maxDepth, s) ended reached
  · exact Succeeds.of_leads succeeds leads
  · exact succeeds_of_leads location maxDepth (maxDepth, s) each

/-- An array whose items are such arrays again: the chain through them has no end. -/
def endless : Definitions :=
  [("Loop", { children := { items := some (.ofReference (.toDefinition "Loop" .definitions)) } })]

example : inlineReferences endless "#" 2 (.ofReference (.toDefinition "Loop" .definitions)) =
    .error (.depthExceeded "#" 2) := by rfl

end Inlining
end SchemaGraph
