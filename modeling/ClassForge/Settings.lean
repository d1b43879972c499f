/-
# Settings of the compiler

Specification, section 10.4.
-/

import ClassForge.ClassFile
import ClassForge.CompileError

namespace ClassForge

/-- What can be chosen when a class is compiled. -/
structure Settings where
  version : Version := .java8
  /-- The name of the source file of every class, in place of its own. -/
  sourceFile : Option String := none
  /-- Does a constructor that calls no other one call that of the superclass? -/
  implicitSuperCall : Bool := true
  /-- Are classes marked for the modern meaning of calls on the superclass? -/
  marksSuper : Bool := true
deriving DecidableEq

/-- The usual settings with the given source file, which is not empty and has no
slash. -/
def Settings.ofSourceFile (file : Option String) : Except CompileError Settings :=
  match file with
  | none => .ok {}
  | some name =>
    if name.isEmpty ∨ '/' ∈ name.toList then .error (.badName (.sourceFile name))
    else .ok { sourceFile := some name }

end ClassForge
