import SchemaGraph.CommandLine.Host

/- A host held in memory: the folder that a command runs in, the two streams, and as much of the
   system around the folder as a path can be expected to name. -/
namespace SchemaGraph.CommandLine

/-- Files by their paths from the folder or from the root, and what was written to the streams. -/
structure Folder where
  files : Table String
  printed : String := ""
  warned : String := ""
  deriving DecidableEq, Repr

inductive Base where
  | root
  /-- So many levels above the folder; zero is the folder. -/
  | above (levels : Nat)
  deriving DecidableEq, Repr

/-- What a path leads to, whether something is there or not. -/
structure Place where
  base : Base
  segments : List String := []
  deriving DecidableEq, Repr

namespace Place

def name (p : Place) : String :=
  let start := match p.base with
    | .root => "/"
    | .above levels => String.join (List.replicate levels "../")
  start ++ "/".intercalate p.segments

def parent (p : Place) : Place :=
  match p.segments, p.base with
  | [], .root => p
  | [], .above levels => ⟨.above (levels + 1), []⟩
  | segments, base => ⟨base, segments.dropLast⟩

def systemFolders : List String :=
  ["bin", "dev", "dev/fd", "etc", "home", "lib", "proc", "root", "sys", "tmp", "usr", "var"]

/-- Outside the folder and what is above it, only the place for temporary files takes new ones. -/
def takesFile (p : Place) : Bool := p.base != .root || p.segments.head? == some "tmp"

end Place

inductive Device where
  | nothing
  | zeros
  /-- Takes no text. -/
  | full
  | printed
  | warned
  deriving DecidableEq, Repr

def Device.ofName? : String → Option Device
  | "/dev/null" => some nothing
  | "/dev/stdin" => some nothing
  | "/dev/fd/0" => some nothing
  | "/dev/zero" => some zeros
  | "/dev/full" => some full
  | "/dev/stdout" => some printed
  | "/dev/fd/1" => some printed
  | "/dev/stderr" => some warned
  | "/dev/fd/2" => some warned
  | _ => none

namespace Folder

/-- In bytes, as the other limits. -/
def maxPath : Nat := 4095

def maxSegment : Nat := 255

/-- A text that fits the buffer of a writer is never refused. -/
def bufferSize : Nat := 8192

def isDirectory (folder : Folder) (p : Place) : Bool :=
  p.segments.isEmpty ||
    (p.base == .root && Place.systemFolders.contains ("/".intercalate p.segments)) ||
    folder.files.keys.any fun key => key.startsWith (p.name ++ "/")

/-- One segment further; only a directory can be left or stayed in. -/
def enter (folder : Folder) (p : Place) (segment : String) : Option Place :=
  if !folder.isDirectory p || maxSegment < segment.utf8ByteSize then none
  else if segment = "" ∨ segment = "." then some p
  else if segment = ".." then some p.parent
  else some { p with segments := p.segments ++ [segment] }

def place? (folder : Folder) (path : String) : Option Place :=
  if path = "" ∨ maxPath < path.utf8ByteSize then none
  else
    let start : Place := ⟨if path.startsWith "/" then .root else .above 0, []⟩
    (path.splitOn "/").foldlM folder.enter start

def content (folder : Folder) (path : String) : Content :=
  match folder.place? path with
  | none => .absent
  | some p =>
    if folder.isDirectory p then .unreadable
    else match Device.ofName? p.name, folder.files.get? p.name with
      | some .nothing, _ => .text ""
      | some _, _ => .unreadable
      | none, some value => .text value
      | none, none => .absent

def print (folder : Folder) (value : String) : Folder :=
  { folder with printed := folder.printed ++ value }

def warn (folder : Folder) (value : String) : Folder :=
  { folder with warned := folder.warned ++ value }

/-- A full device refuses what the buffer cannot hold. -/
def refusal (value : String) : Delivery :=
  if value.utf8ByteSize ≤ bufferSize then .done
  else if value.utf8ByteSize = bufferSize + 1 then .notEnded
  else .notWritten

def writeTo (folder : Folder) (device : Device) (value : String) : Folder × Delivery :=
  match device with
  | .nothing => (folder, .done)
  | .zeros => (folder, .done)
  | .full => (folder, refusal value)
  | .printed => (folder.print value, .done)
  | .warned => (folder.warn value, .done)

def write (folder : Folder) (path value : String) : Folder × Delivery :=
  match folder.place? path with
  | none => (folder, .notCreated)
  | some p =>
    if folder.isDirectory p then (folder, .notCreated)
    else match Device.ofName? p.name with
      | some device => folder.writeTo device value
      | none =>
        if folder.files.has p.name || p.takesFile then
          ({ folder with files := folder.files.put p.name value }, .done)
        else (folder, .notCreated)

def host : Host (StateM Folder) where
  read path := do return (← get).content path
  write path value := modifyGet fun folder => (folder.write path value).swap
  print value := modify (·.print value)
  warn value := modify (·.warn value)

end Folder
end SchemaGraph.CommandLine
