/-
# Faults of a method body

Specification, section 7 (representable limits, violated invariants) and section 10.2.

Everything that can go wrong while a method body is put together, laid out and
stored.  Some faults say that a limit of the class file format is exceeded: a
program can run into those without being wrong otherwise (`Fault.isTooLarge`).
-/

import ClassForge.ConstantPool
import ClassForge.Instruction
import ClassForge.Malformed

namespace ClassForge

/-- What was being done when a frame did not fit. -/
inductive FrameAction where
  /-- An instruction was to run. -/
  | run (instruction : Instruction)
  /-- The type on top of the stack was to become more general. -/
  | generalize
deriving DecidableEq

/-- The text of an action. -/
def FrameAction.text : FrameAction → String
  | .run instruction => instruction.text
  | .generalize => "<generalize>"

/-- What can go wrong with a method body. -/
inductive Fault where
  /-- The constant pool is full. -/
  | poolOverflow (overflow : PoolOverflow)
  /-- A stack map entry cannot be written. -/
  | unwritable (error : StackMap.WriteError)
  /-- The code is too long. -/
  | codeTooLong (length : Nat)
  /-- The stack is too deep. -/
  | stackTooDeep (depth : Nat)
  /-- There are too many local slots. -/
  | tooManyLocals (count : Nat)
  /-- A branch does not reach its destination. -/
  | branchTooFar (origin destination : Nat)
  /-- A label that is branched to is nowhere. -/
  | unplacedLabel (label : Label)
  /-- A label is placed a second time. -/
  | duplicateLabel (label : Label)
  /-- A label that is branched to stands behind the last instruction. -/
  | labelAtEnd (label : Label)
  /-- A label that is branched to stands where control cannot be. -/
  | unreachableLabel (label : Label)
  /-- Control can run off the end of the code. -/
  | notFinished
  /-- Something does not fit the frame in which it is done; `position` is the
  number of the next instruction. -/
  | badFrame (position : Nat) (action : FrameAction) (kind : StepFault) (frame : Frame)
  /-- Two edges to a label do not agree. -/
  | incompatibleFrames (label : Label) (first second : Frame)
  /-- A class file cannot be understood. -/
  | malformed (reason : Malformed)
deriving DecidableEq

namespace Fault

/-- Is a limit of the class file format exceeded? -/
def isTooLarge : Fault → Bool
  | .poolOverflow _ | .codeTooLong _ | .stackTooDeep _ | .tooManyLocals _
  | .branchTooFar _ _ => true
  | _ => false

/-- The shape of a failure with a kind and a message. -/
def customForm (kind : FailureKind) (message : String) : Form :=
  .record "Custom" [.field "kind" (.word kind.text), .field "error" (form message)]

end Fault

instance : ToForm Fault where
  form
    | .poolOverflow o => .record "ConstantPoolOverflow"
        [.field "constant" (form o.constant), .field "offset" (form o.index)]
    | .unwritable error =>
      .apply "IoError" [Fault.customForm .invalidInput error.message]
    | .codeTooLong length => .apply "MethodCodeOverflow" [form length]
    | .stackTooDeep depth => .apply "MethodCodeMaxStackOverflow" [form depth]
    | .tooManyLocals count => .apply "MethodCodeMaxLocalsOverflow" [form count]
    | .branchTooFar origin destination => .record "BranchOffsetOverflow"
        [.field "branch_offset" (form origin), .field "destination_offset" (form destination)]
    | .unplacedLabel label => .apply "UnplacedLabel" [form label]
    | .duplicateLabel label => .apply "DuplicateLabel" [form label]
    | .labelAtEnd label => .apply "LabelAtEndOfCode" [form label]
    | .unreachableLabel label => .apply "UnreachableLabel" [form label]
    | .notFinished => .word "MethodCodeNotFinished"
    | .badFrame position action kind frame => .record "VerifierError"
        [.field "instruction_id" (.word s!"#{position}"), .field "instruction" (form action.text),
         .field "kind" (form kind), .field "frame" (form frame)]
    | .incompatibleFrames label first second =>
      .apply "IncompatibleFrames" [form label, form first, form second]
    | .malformed reason => .apply "MalformedClassFile" [form reason.message]

end ClassForge
