/-
# Errors of the compiler

Specification, section 7 (upstream-contract violations, methods that are too large)
and section 10.2.

Why a class cannot be compiled.  Methods that exceed a limit of the class file
format are collected and reported together; any other error is reported by
itself.
-/

import ClassForge.Fault
import ClassForge.Program

namespace ClassForge

/-- What the compiler does not handle; an earlier phase should have refused
it. -/
inductive Unsupported where
  /-- An expression of the wrong kind or type. -/
  | expression (e : Expr)
  /-- A method can end without the value that it should return. -/
  | missingReturn (method : UnqualifiedName)
  /-- A constructor is called in a method that is none. -/
  | misplacedConstruct (method : UnqualifiedName)
  /-- The number of arguments is not that of the parameters. -/
  | argumentCount (count : Nat) (descriptor : MethodDescriptor)
  /-- There is no `this` in a static method. -/
  | thisInStatic (method : UnqualifiedName)

/-- The wording of what is not handled. -/
def Unsupported.message : Unsupported → String
  | .expression e => shown e
  | .missingReturn method => s!"{method.text} can complete without returning a value"
  | .misplacedConstruct method => s!"constructor call in {method.text}"
  | .argumentCount count descriptor => s!"{count} arguments for " ++ shown descriptor
  | .thisInStatic method => s!"`this` in static method {method.text}"

/-- A method that exceeds a limit of the class file format. -/
structure MethodTooLarge where
  owner : BinaryName
  method : UnqualifiedName
  descriptor : MethodDescriptor
  cause : Fault

/-- A name that cannot be used in a class file. -/
inductive BadName where
  /-- The name of a source file is empty or holds a slash. -/
  | sourceFile (name : String)
  | name (error : NameError)

/-- The wording of a bad name. -/
def BadName.message : BadName → String
  | .sourceFile file => file
  | .name error => error.message

/-- Why a class cannot be compiled. -/
inductive CompileError where
  /-- Something is wrong with a method body or a class file. -/
  | fault (cause : Fault)
  | unsupported (node : Unsupported)
  /-- A local is not in scope. -/
  | unknownLocal (id : LocalId)
  /-- There is no loop to leave or to go on with. -/
  | misplacedJump (label : Option String)
  | badName (name : BadName)
  | methodsTooLarge (methods : List MethodTooLarge)

instance : ToForm MethodTooLarge where
  form m := .record "MethodTooLarge"
    [.field "class" (form m.owner), .field "method" (form m.method),
     .field "descriptor" (form m.descriptor.render), .field "error" (form m.cause)]

instance : ToForm CompileError where
  form
    | .fault cause => .apply "BytecodeGen" [form cause]
    | .unsupported node => .apply "UnsupportedNode" [form node.message]
    | .unknownLocal id => .apply "UnknownLocal" [form id]
    | .misplacedJump label => .apply "MisplacedJump" [form label]
    | .badName name => .apply "MalformedName" [form name.message]
    | .methodsTooLarge methods => .apply "MethodsTooLarge" [form methods]

end ClassForge
