import SchemaGraph.Pipeline

/- Runs of several passes. A full run that is accepted went through all its passes, and the document
   that it leaves has no dangling references. -/
namespace SchemaGraph

namespace Pass

theorem ofName?_name (pass : Pass) : ofName? pass.name = some pass := by cases pass <;> rfl

theorem runNamed_name (dictionary : Dictionary) (options : Options) (d : Document) (pass : Pass) :
    runNamed dictionary options d pass.name = pass.run dictionary options d := by
  rw [runNamed, ofName?_name]

/-- What passes leave when each works on what the one before it left. -/
def leave (dictionary : Dictionary) (options : Options) (passes : List Pass) (d : Document) :
    Document := passes.foldl (fun d pass => (pass.run dictionary options d).1) d

theorem leave_append (dictionary : Dictionary) (options : Options) (first second : List Pass)
    (d : Document) : leave dictionary options (first ++ second) d =
      leave dictionary options second (leave dictionary options first d) := List.foldl_append

theorem leave_of_runAll {dictionary : Dictionary} {options : Options} {passes : List Pass}
    {d left : Document} {report result : Report}
    (ran : runAll dictionary options passes report d = (left, .ok result)) :
    left = leave dictionary options passes d := by
  induction passes generalizing d report with
  | nil =>
    cases ran
    rfl
  | cons pass rest ih =>
    rw [runAll] at ran
    split at ran
    · rename_i next own here
      rw [leave, List.foldl_cons, here]
      exact ih ran
    · cases ran

theorem leave_cons (dictionary : Dictionary) (options : Options) (pass : Pass) (rest : List Pass)
    (d : Document) : leave dictionary options (pass :: rest) d =
      leave dictionary options rest (pass.run dictionary options d).1 := rfl

theorem runAll_append (dictionary : Dictionary) (options : Options) (first second : List Pass)
    (report : Report) (d : Document) :
    runAll dictionary options (first ++ second) report d =
      match runAll dictionary options first report d with
      | (left, .ok report) => runAll dictionary options second report left
      | (left, .error e) => (left, .error e) := by
  induction first generalizing report d with
  | nil => rfl
  | cons pass rest ih =>
    rw [List.cons_append, runAll, runAll]
    generalize pass.run dictionary options d = out
    obtain ⟨next, _ | own⟩ := out
    · rfl
    · exact ih (report ++ own) next

/-- Each pass of a run that succeeds has succeeded on what the passes before it left. -/
theorem ok_of_runAll {dictionary : Dictionary} {options : Options} {first rest : List Pass}
    {pass : Pass} {d left : Document} {report result : Report}
    (ran : runAll dictionary options (first ++ pass :: rest) report d = (left, .ok result)) :
    ∃ own, pass.run dictionary options (leave dictionary options first d) =
      (leave dictionary options (first ++ [pass]) d, .ok own) := by
  induction first generalizing d report with
  | nil =>
    rw [List.nil_append, runAll] at ran
    split at ran
    · rename_i next own here
      refine ⟨own, ?_⟩
      rw [List.nil_append, leave_cons, here]
      exact here
    · cases ran
  | cons earlier first ih =>
    rw [List.cons_append, runAll] at ran
    split at ran
    · rename_i next own here
      rw [List.cons_append, leave_cons, leave_cons, here]
      exact ih ran
    · cases ran

end Pass

namespace Document
variable {dictionary : Dictionary} {options : Options} {d left : Document} {report : Report}

theorem closed_of_verify (verified : d.verify = .ok ()) : d.Closed := by
  rw [verify] at verified
  split at verified
  · assumption
  · cases verified

/-- The check of the references leaves what the passes left. -/
theorem fst_normalize (dictionary : Dictionary) (options : Options) (d : Document) :
    (d.normalize dictionary options).1 =
      (Pass.runAll dictionary options Pass.sequence {} d).1 := by
  rw [normalize]
  generalize Pass.runAll dictionary options Pass.sequence {} d = out
  obtain ⟨last, _ | _⟩ := out <;> rfl

/-- A run is accepted when all passes succeed and the check of the references does. -/
theorem runAll_of_normalize (accepted : d.normalize dictionary options = (left, .ok report)) :
    Pass.runAll dictionary options Pass.sequence {} d = (left, .ok report) ∧
      left.verify = .ok () := by
  rw [normalize] at accepted
  generalize Pass.runAll dictionary options Pass.sequence {} d = out at accepted ⊢
  obtain ⟨last, _ | _⟩ := out
  · cases accepted
  · obtain ⟨rfl, verified⟩ := Prod.mk.inj accepted
    cases checked : last.verify with
    | error e =>
      rw [checked] at verified
      cases verified
    | ok =>
      rw [checked] at verified
      cases verified
      exact ⟨rfl, rfl⟩

theorem of_normalize (accepted : d.normalize dictionary options = (left, .ok report)) :
    left = Pass.leave dictionary options Pass.sequence d ∧ left.Closed := by
  obtain ⟨ran, verified⟩ := runAll_of_normalize accepted
  exact ⟨Pass.leave_of_runAll ran, closed_of_verify verified⟩

end Document
end SchemaGraph
