/-
# One instruction in a frame

Specification, section 4.3: the simulator of the operand stack and the locals.

`Frame.step` is the effect of an instruction on the types of the locals and the
stack, or the reason why the instruction cannot run there.  A branch only pops
what it compares.

Some instructions do not show the types that they work with: what a constant,
a field or a call yields is given beside them, as `OperandTypes`.
-/

import ClassForge.Instruction

namespace ClassForge

/-- The types that an instruction does not show by itself. -/
inductive OperandTypes where
  | none
  /-- The type of the value that the instruction yields; for a store the
  declared type of the slot. -/
  | value (type : FrameType)
  /-- A call: how many arguments it pops and what it pushes. -/
  | call (arguments : Nat) (returns : Option FrameType)
  /-- A constructor call: how many arguments it pops, and what the object below
  them then is. -/
  | constructor (arguments : Nat) (type : RefType)
deriving DecidableEq

namespace Frame

/-- A stack of types, top first. -/
abbrev Stack := List FrameType

/-- Is the type of the given kind? -/
def hasKind (t : FrameType) : ValueKind → Bool
  | .int => t = .integer
  | .float => t = .float
  | .reference => t.isReference

/-- The type on top of the stack and what is below it. -/
def pop : Stack → Except StepFault (FrameType × Stack)
  | [] => .error .emptyStack
  | t :: rest => .ok (t, rest)

/-- The type on top of the stack, which has to be of the given kind. -/
def popKind (kind : ValueKind) : Stack → Except StepFault (FrameType × Stack)
  | [] => .error .emptyStack
  | t :: rest => if hasKind t kind then .ok (t, rest) else .error .invalidType

/-- What is below the upper `n` types. -/
def popMany : Nat → Stack → Except StepFault Stack
  | 0, stack => .ok stack
  | _ + 1, [] => .error .emptyStack
  | n + 1, _ :: rest => popMany n rest

/-- What is below the upper `n` types, which have to be integers. -/
def popInts : Nat → Stack → Except StepFault Stack
  | 0, stack => .ok stack
  | n + 1, stack => do
    let (_, stack) ← popKind .int stack
    popInts n stack

/-- The type that the instruction yields, as given beside it. -/
def produced : OperandTypes → Except StepFault FrameType
  | .value t => .ok t
  | _ => .error .missingOperandTypes

/-- The slot that the instruction names. -/
def slotOf (i : Instruction) : Except StepFault UInt16 :=
  match i.slot? with
  | some slot => .ok slot
  | none => .error .missingLocal

/-- The locals with a slot replaced; slots in between are `top`. -/
def setLocal (locals : List FrameType) (slot : Nat) (t : FrameType) : List FrameType :=
  (locals ++ List.replicate (slot + 1 - locals.length) VerificationType.top).set slot t

/-- A call pops its arguments, then the receiver if there is one, and pushes
what it returns. -/
def call (types : OperandTypes) (hasReceiver : Bool) (stack : Stack) : Except StepFault Stack :=
  match types with
  | .call arguments returns => do
    let stack ← popMany arguments stack
    if hasReceiver then
      let (_, stack) ← popKind .reference stack
      return returns.toList ++ stack
    else return returns.toList ++ stack
  | _ => .error .missingOperandTypes

/-- A type after the object that `receiver` stands for is constructed. -/
def constructed (receiver initialized t : FrameType) : FrameType :=
  if t = receiver then initialized else t

/-- A constructor pops its arguments and the object under construction, and
every copy of the object is from then on constructed. -/
def construct (f : Frame) (arguments : Nat) (type : RefType) : Except StepFault Frame := do
  let stack ← popMany arguments f.stack
  let (receiver, stack) ← pop stack
  match receiver with
  | .uninitializedThis | .uninitialized _ =>
    return { locals := f.locals.map (constructed receiver (.object type))
             stack := stack.map (constructed receiver (.object type)) }
  | _ => throw .notUninitialized

/-- What an array of the given type holds, loaded as a value of the given
kind. -/
def elementType (kind : ValueKind) (array : FrameType) : Except StepFault FrameType :=
  match kind, array with
  | .int, _ => .ok .integer
  | .float, _ => .ok .float
  | .reference, .null => .ok .null
  | .reference, .object type =>
    match type.component? with
    | some (.ref element) => .ok (.object element)
    | _ => .error .invalidType
  | .reference, _ => .error .invalidType

/-- Two compared values are two references or two integers. -/
def comparable (a b : FrameType) : Bool :=
  (a.isReference && b.isReference) || (a = .integer && b = .integer)

/-- The frame after an instruction, the `id`-th of its method. -/
def step (f : Frame) (id : Nat) (i : Instruction) (types : OperandTypes) :
    Except StepFault Frame :=
  match i.opcode.effect with
  | .nop | .goto | .exit => .ok f
  | .pushInt => .ok { f with stack := .integer :: f.stack }
  | .pushFloat => .ok { f with stack := .float :: f.stack }
  | .pushNull => .ok { f with stack := .null :: f.stack }
  | .pushConstant => do
    let t ← produced types
    return { f with stack := t :: f.stack }
  | .loadLocal kind => do
    let slot ← slotOf i
    match f.locals[slot.toNat]? with
    | none | some .top => throw (.invalidIndex slot)
    | some t =>
      if hasKind t kind then return { f with stack := t :: f.stack } else throw .invalidType
  | .storeLocal kind => do
    let slot ← slotOf i
    let (value, stack) ← popKind kind f.stack
    match types with
    | .value declared =>
      if hasKind declared kind then
        return { locals := setLocal f.locals slot.toNat declared, stack }
      else throw .invalidType
    | _ => return { locals := setLocal f.locals slot.toNat value, stack }
  | .incrementLocal => do
    let slot ← slotOf i
    if f.locals[slot.toNat]? = some .integer then return f else throw (.invalidIndex slot)
  | .pop => do
    let (_, stack) ← pop f.stack
    return { f with stack }
  | .pop2 => do
    let (_, stack) ← pop f.stack
    let (_, stack) ← pop stack
    return { f with stack }
  | .dup => do
    let (a, stack) ← pop f.stack
    return { f with stack := a :: a :: stack }
  | .dupX1 => do
    let (a, stack) ← pop f.stack
    let (b, stack) ← pop stack
    return { f with stack := a :: b :: a :: stack }
  | .dupX2 => do
    let (a, stack) ← pop f.stack
    let (b, stack) ← pop stack
    let (c, stack) ← pop stack
    return { f with stack := a :: b :: c :: a :: stack }
  | .dup2 => do
    let (a, stack) ← pop f.stack
    let (b, stack) ← pop stack
    return { f with stack := a :: b :: a :: b :: stack }
  | .swap => do
    let (a, stack) ← pop f.stack
    let (b, stack) ← pop stack
    return { f with stack := b :: a :: stack }
  | .intBinary => do
    let (_, stack) ← popKind .int f.stack
    let (_, stack) ← popKind .int stack
    return { f with stack := .integer :: stack }
  | .floatBinary => do
    let (_, stack) ← popKind .float f.stack
    let (_, stack) ← popKind .float stack
    return { f with stack := .float :: stack }
  | .intUnary => do
    let (_, stack) ← popKind .int f.stack
    return { f with stack := .integer :: stack }
  | .floatUnary => do
    let (_, stack) ← popKind .float f.stack
    return { f with stack := .float :: stack }
  | .intToFloat => do
    let (_, stack) ← popKind .int f.stack
    return { f with stack := .float :: stack }
  | .floatToInt => do
    let (_, stack) ← popKind .float f.stack
    return { f with stack := .integer :: stack }
  | .floatCompare => do
    let (_, stack) ← popKind .float f.stack
    let (_, stack) ← popKind .float stack
    return { f with stack := .integer :: stack }
  | .arrayLoad kind => do
    let (_, stack) ← popKind .int f.stack
    let (array, stack) ← popKind .reference stack
    let element ← elementType kind array
    return { f with stack := element :: stack }
  | .arrayStore kind => do
    let (_, stack) ← popKind kind f.stack
    let (_, stack) ← popKind .int stack
    let (_, stack) ← popKind .reference stack
    return { f with stack }
  | .arrayLength => do
    let (_, stack) ← popKind .reference f.stack
    return { f with stack := .integer :: stack }
  | .newObject => .ok { f with stack := .uninitialized id :: f.stack }
  | .newPrimitiveArray => do
    let (_, stack) ← popKind .int f.stack
    match i.operands.head?.bind BaseType.ofArrayCode? with
    | some element => return { f with stack := .object (.arrayOf (.base element)) :: stack }
    | none => throw .invalidType
  | .newReferenceArray => do
    let (_, stack) ← popKind .int f.stack
    let t ← produced types
    return { f with stack := t :: stack }
  | .newMultiArray =>
    match i.operands[2]? with
    | none => .error .invalidType
    | some dimensions => do
      let stack ← popInts dimensions.toNat f.stack
      let t ← produced types
      return { f with stack := t :: stack }
  | .getStatic => do
    let t ← produced types
    return { f with stack := t :: f.stack }
  | .putStatic => do
    let (_, stack) ← pop f.stack
    return { f with stack }
  | .getField | .checkCast => do
    let (_, stack) ← popKind .reference f.stack
    let t ← produced types
    return { f with stack := t :: stack }
  | .putField => do
    let (_, stack) ← pop f.stack
    let (_, stack) ← popKind .reference stack
    return { f with stack }
  | .invoke => return { f with stack := ← call types true f.stack }
  | .invokeStatic => return { f with stack := ← call types false f.stack }
  | .invokeSpecial =>
    match types with
    | .constructor arguments type => construct f arguments type
    | _ => return { f with stack := ← call types true f.stack }
  | .instanceOf => do
    let (_, stack) ← popKind .reference f.stack
    return { f with stack := .integer :: stack }
  | .ifZero => do
    let (_, stack) ← popKind .int f.stack
    return { f with stack }
  | .ifCompare => do
    let (a, stack) ← pop f.stack
    let (b, stack) ← pop stack
    if comparable a b then return { f with stack } else throw .invalidType
  | .ifNull => do
    let (_, stack) ← popKind .reference f.stack
    return { f with stack }
  | .exitWith kind => do
    let (_, stack) ← popKind kind f.stack
    return { f with stack }

end Frame
end ClassForge
