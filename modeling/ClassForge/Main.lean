/-
# The command line

Specification, section 10.6: the command line.

Reads the input, runs the command, and writes what comes of it.
-/

import ClassForge.Command

namespace ClassForge

/-- The directory part of a path. -/
def directoryOf (path : String) : String := "/".intercalate (path.splitOn "/").dropLast

/-- Writes what comes of a command; `output` is the directory for files. -/
def Outcome.run (outcome : Outcome) (output : String) : IO UInt32 := do
  IO.print outcome.output
  IO.eprint outcome.errors
  match outcome.file with
  | none => pure ()
  | some file =>
    let path := output ++ "/" ++ file.path
    IO.FS.createDirAll (directoryOf path)
    IO.FS.writeBinFile path ⟨file.bytes.toArray⟩
  return outcome.status

/-- Runs a command. -/
def Command.run : Command → IO UInt32
  | .dump input => do
    let bytes ← IO.FS.readBinFile input
    (Outcome.ofDump bytes.toList).run "."
  | .demo output package => (Outcome.ofDemo package).run output

end ClassForge

/-- The entry point of the command line. -/
def main (arguments : List String) : IO UInt32 :=
  match ClassForge.Command.ofArguments arguments with
  | some command => command.run
  | none => do
    IO.eprint ClassForge.Command.usage
    return 2
