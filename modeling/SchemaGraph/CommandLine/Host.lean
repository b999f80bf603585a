import SchemaGraph.Table

/- Where a command reads and writes: any system that has files and two streams. -/
namespace SchemaGraph.CommandLine

inductive Content where
  | absent
  /-- Something is there, but it is no text. -/
  | unreadable
  | text (value : String)
  deriving DecidableEq, Repr

/-- What became of a text that was to replace a file. -/
inductive Delivery where
  | done
  | notCreated
  | notWritten
  /-- Only the line end of the last line was refused. -/
  | notEnded
  deriving DecidableEq, Repr

structure Host (m : Type → Type) where
  read : String → m Content
  write : String → String → m Delivery
  print : String → m Unit
  warn : String → m Unit

end SchemaGraph.CommandLine
