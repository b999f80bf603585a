import SchemaGraph.CommandLine.Run

/- The program: the command line on the files and streams of the system. -/
namespace SchemaGraph.CommandLine

def readAll (file : IO.FS.Handle) : IO Content :=
  try
    let bytes ← file.readBinToEnd
    return ((String.fromUTF8? bytes).map Content.text).getD .unreadable
  catch _ => return .unreadable

def readSystemFile (path : String) : IO Content :=
  try
    let file ← IO.FS.Handle.mk path IO.FS.Mode.read
    readAll file
  catch _ => return .absent

def writeAll (file : IO.FS.Handle) (value : String) : IO Delivery :=
  try
    file.putStr value
    file.flush
    return .done
  catch _ => return .notWritten

def writeSystemFile (path value : String) : IO Delivery :=
  try
    let file ← IO.FS.Handle.mk path IO.FS.Mode.write
    writeAll file value
  catch _ => return .notCreated

def system : Host IO where
  read := readSystemFile
  write := writeSystemFile
  print := IO.print
  warn := IO.eprint

end SchemaGraph.CommandLine

def main (arguments : List String) : IO UInt32 :=
  SchemaGraph.CommandLine.run SchemaGraph.CommandLine.system arguments
