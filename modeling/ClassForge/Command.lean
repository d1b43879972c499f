/-
# Commands

Specification, section 10.6: the command line.

What the command line can be asked for, and what it answers: a status, some text
for each of the two output streams, and perhaps a file to be written.

| command | what it does |
| --- | --- |
| `dump INPUT` | prints a class file |
| `demo [--output DIR] [--package PACKAGE]` | writes the class file of the sample class |
-/

import ClassForge.Dump
import ClassForge.Sample

namespace ClassForge

/-- What the command line asks for. -/
inductive Command where
  | dump (input : String)
  | demo (output package : String)
deriving DecidableEq

/-- What a command comes to. -/
structure Outcome where
  /-- Zero, or one after an error. -/
  status : UInt32
  output : String
  errors : String
  /-- A file to be written below the directory for output. -/
  file : Option Sample.OutputFile

namespace Outcome

/-- An outcome with some output and perhaps an error. -/
def ofFault (output : String) : Option CompileError → Outcome
  | none => ⟨0, output, "", none⟩
  | some e => ⟨1, output, e.report, none⟩

/-- The outcome of dumping the class file with these bytes. -/
def ofDump (bytes : Bytes) : Outcome :=
  let d := Dump.ofBytes bytes
  ofFault d.text d.fault

/-- The outcome of asking for the sample class in the given package. -/
def ofDemo (package : String) : Outcome :=
  match Sample.file package with
  | .ok file => ⟨0, "", "", some file⟩
  | .error e => ofFault "" (some e)

end Outcome

namespace Command

/-- The command `demo` with the options that follow, each of which has a value
behind it. -/
def demoOf (output package : String) : List String → Option Command
  | [] => some (.demo output package)
  | "--output" :: value :: rest => demoOf value package rest
  | "--package" :: value :: rest => demoOf output value rest
  | _ => none

/-- The command that the arguments stand for. -/
def ofArguments : List String → Option Command
  | ["dump", input] => some (.dump input)
  | "demo" :: options => demoOf "." Sample.defaultPackage options
  | _ => none

/-- How the command line is used. -/
def usage : String :=
  "Usage: classforge dump INPUT\n       classforge demo [--output DIR] [--package PACKAGE]\n"

end Command
end ClassForge
