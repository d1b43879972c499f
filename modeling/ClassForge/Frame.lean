/-
# Frames: what is known about locals and stack

Specification, section 3 (verification type, frame) and section 10.6 (frame merging).

At each point of a method the types of the local slots and of the values on the
operand stack are known: a *frame*.  Where two edges meet, a slot whose types
disagree is `top`, which no instruction can read, and the stacks have to be the
same.  Trailing `top` slots say nothing and are left off.

The stack of a frame is kept top first.
-/

import ClassForge.Descriptor

namespace ClassForge

/-- The type of a slot or a value.  `C` names classes and `U` names the
instruction that made an object whose constructor has not run. -/
inductive VerificationType (C U : Type) where
  /-- Nothing is known, and nothing can be read. -/
  | top
  | integer
  | float
  | null
  /-- The object under construction, before its superclass is constructed. -/
  | uninitializedThis
  | object (type : C)
  /-- A new object whose constructor has not run. -/
  | uninitialized (origin : U)
deriving DecidableEq, Repr

/-- Is the value a reference? -/
def VerificationType.isReference {C U : Type} : VerificationType C U → Bool
  | .top | .integer | .float => false
  | .null | .uninitializedThis | .object _ | .uninitialized _ => true

/-- The types of a frame: classes by their types, new objects by the number of
the instruction that made them. -/
abbrev FrameType := VerificationType RefType Nat

/-- What is known about a value of a declared type. -/
def FieldType.verification {U : Type} : FieldType → VerificationType RefType U
  | .base .int | .base .boolean => .integer
  | .base .float => .float
  | .ref t => .object t

/-- The types of the local slots, and of the stack from its top down. -/
structure Frame where
  locals : List FrameType
  stack : List FrameType
deriving DecidableEq

namespace Frame

/-- The frame of nothing. -/
def empty : Frame := ⟨[], []⟩

/-- The frame on entry to a method: `this` if there is one, then the
parameters. -/
def entry (this : RefType) (isStatic isConstructor : Bool) (parameters : List FieldType) :
    Frame where
  locals :=
    (if isConstructor then [.uninitializedThis] else if isStatic then [] else [.object this]) ++
      parameters.map FieldType.verification
  stack := []

/-- The locals without the `top`s at their end. -/
def trim (locals : List FrameType) : List FrameType :=
  (locals.reverse.dropWhile (· = .top)).reverse

/-- The frame without trailing `top`s. -/
def trimLocals (f : Frame) : Frame := { f with locals := trim f.locals }

/-- The frame without the locals from `first` on. -/
def killLocals (f : Frame) (first : Nat) : Frame := { f with locals := trim (f.locals.take first) }

/-- What two edges agree on about one slot. -/
def meet (a b : FrameType) : FrameType := if a = b then a else .top

/-- What two edges that meet agree on; none if their stacks differ. -/
def merge (f g : Frame) : Option Frame :=
  if f.stack = g.stack then some { f with locals := trim (List.zipWith meet f.locals g.locals) }
  else none

/-- Does each slot hold what is expected of it?  Nothing is expected of `top`,
nor of slots beyond those listed. -/
def acceptsLocals : List FrameType → List FrameType → Bool
  | [], _ => true
  | t :: ts, [] => t = .top && acceptsLocals ts []
  | t :: ts, u :: us => (t = .top || t = u) && acceptsLocals ts us

/-- Can control that arrives with the frame `incoming` go on with `f`? -/
def accepts (f incoming : Frame) : Bool :=
  f.stack = incoming.stack && acceptsLocals f.locals incoming.locals

end Frame

/-- Why an instruction cannot run in a frame. -/
inductive StepFault where
  | emptyStack
  /-- The slot holds nothing that the instruction could use. -/
  | invalidIndex (slot : UInt16)
  /-- The instruction names no slot. -/
  | missingLocal
  | invalidType
  /-- The types that the instruction needs beside its operands are not given. -/
  | missingOperandTypes
  /-- A constructor is called on an object that is already constructed. -/
  | notUninitialized
  /-- A branch has no label to go to. -/
  | missingDestination
deriving DecidableEq, Repr

/-- The frame with the type on top of its stack replaced by a more general
one: any reference by any reference, anything else by itself. -/
def Frame.generalizeTop (f : Frame) (general : FrameType) : Except StepFault Frame :=
  match f.stack with
  | [] => .error .emptyStack
  | specific :: rest =>
    if specific.isReference ≠ general.isReference then .error .invalidType
    else if ¬ specific.isReference ∧ specific ≠ general then .error .invalidType
    else .ok { f with stack := general :: rest }

instance : ToForm StepFault where
  form
    | .emptyStack => .word "EmptyStack"
    | .invalidIndex slot => .apply "InvalidIndex" [form slot]
    | .missingLocal => .word "MissingLocal"
    | .invalidType => .word "InvalidType"
    | .missingOperandTypes => .word "MissingOperandTypes"
    | .notUninitialized => .word "NotUninitialized"
    | .missingDestination => .word "MissingDestination"

/-- The shape of a type, given the shapes of class names and origins. -/
def VerificationType.shape {C U : Type} (object : C → Form) (origin : U → Form) :
    VerificationType C U → Form
  | .top => .word "Top"
  | .integer => .word "Integer"
  | .float => .word "Float"
  | .null => .word "Null"
  | .uninitializedThis => .word "UninitializedThis"
  | .object type => .apply "Object" [object type]
  | .uninitialized u => .apply "Uninitialized" [origin u]

instance : ToForm FrameType := ⟨VerificationType.shape form fun n => .word s!"#{n}"⟩

instance : ToForm Frame where
  form f := .record "Frame"
    [.field "locals" (form f.locals), .field "stack" (form f.stack.reverse)]

end ClassForge
