import SchemaGraph.Error

/- What a run did besides changing the graph. -/
namespace SchemaGraph

/-- A change that was given up while the run went on. -/
structure Warning where
  stage : String
  message : String
  deriving DecidableEq, Repr

structure Report where
  warnings : List Warning := []
  /-- Names of definitions that were added. -/
  created : List String := []
  /-- Names of definitions that were taken away. -/
  removed : List String := []
  deriving DecidableEq, Repr

namespace Report

def isClean (r : Report) : Bool := r.warnings.isEmpty

instance : Append Report where
  append a b := ⟨a.warnings ++ b.warnings, a.created ++ b.created, a.removed ++ b.removed⟩

def warningJson (w : Warning) : Json := .obj [("stage", .str w.stage), ("message", .str w.message)]

def toJson (r : Report) : Json :=
  .obj [("warnings", .arr (r.warnings.map warningJson)), ("created", .arr (r.created.map .str)),
    ("removed", .arr (r.removed.map .str))]

end Report
end SchemaGraph
