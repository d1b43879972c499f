/-
# Common instructions

Specification, section 4.6: literals, locals, fields, calls and construction.

The instructions that expressions are made of, with the constants and the types
that each needs.  A constant is added to the pool even where the code is
unreachable and the instruction itself is dropped.
-/

import ClassForge.Assembler

namespace ClassForge

/-- The kind of instruction that works on values of a type. -/
def FieldType.kind : FieldType → ValueKind
  | .base .int | .base .boolean => .int
  | .base .float => .float
  | .ref _ => .reference

namespace Assembler

/-- An instruction without operands. -/
def simple (op : Opcode) : Assembling Unit := push (.simple op) .none

/-- Pushes an integer. -/
def pushInt (value : Int32) : Assembling Unit :=
  match Instruction.pushInt? value.toInt with
  | some i => push i .none
  | none => do
    let index ← (ConstantPool.integer value).toAssembling
    push (.loadConstant index) (.value .integer)

/-- Pushes a floating point number. -/
def pushFloat (value : Binary32) : Assembling Unit :=
  match Instruction.pushFloat? value with
  | some i => push i .none
  | none => do
    let index ← (ConstantPool.float value).toAssembling
    push (.loadConstant index) (.value .float)

/-- Pushes a string. -/
def pushString (text : String) : Assembling Unit := do
  let index ← (ConstantPool.string text).toAssembling
  push (.loadConstant index) (.value FieldType.string.verification)

/-- Pushes the value of a local of the given type. -/
def loadLocal (slot : UInt16) (type : FieldType) : Assembling Unit :=
  push (.load type.kind slot) .none

/-- Pops a value into a local of the given type. -/
def storeLocal (slot : UInt16) (type : FieldType) : Assembling Unit :=
  push (.store type.kind slot) (.value type.verification)

/-- Adds an amount to an integer local. -/
def increment (slot : UInt16) (amount : Int16) : Assembling Unit :=
  push (.increment slot amount) .none

/-- The instruction that returns a value of the given type, or none. -/
def returnOpcode : Option FieldType → Opcode
  | none => .returnVoid
  | some type =>
    match type.kind with
    | .int => .ireturn
    | .float => .freturn
    | .reference => .areturn

/-- Returns from the method. -/
def exit (type : Option FieldType) : Assembling Unit := simple (returnOpcode type)

/-- Pushes the value of a field; unless it is static, its object is popped. -/
def getField (field : FieldRef) : Assembling Unit := do
  let index ← (ConstantPool.fieldRef field).toAssembling
  push (.withConstant (if field.isStatic then .getstatic else .getfield) index)
    (.value field.type.verification)

/-- Pops a value into a field; unless it is static, its object is popped. -/
def putField (field : FieldRef) : Assembling Unit := do
  let index ← (ConstantPool.fieldRef field).toAssembling
  push (.withConstant (if field.isStatic then .putstatic else .putfield) index) .none

/-- The instruction that calls a method with the given index. -/
def callInstruction (method : MethodRef) (viaSuper : Bool) (index : UInt16) : Instruction :=
  match method.invokeKind viaSuper with
  | .virtual => .withConstant .invokevirtual index
  | .special => .withConstant .invokespecial index
  | .static => .withConstant .invokestatic index
  | .interface =>
    .invokeInterface index (UInt8.ofNat (method.descriptor.parameterSlots true))

/-- Calls a method that is not a constructor. -/
def invoke (method : MethodRef) (viaSuper : Bool) : Assembling Unit := do
  let index ← (ConstantPool.methodRef method).toAssembling
  push (callInstruction method viaSuper index)
    (.call method.descriptor.parameters.length
      (method.descriptor.returns.map FieldType.verification))

/-- Calls a constructor, after which the object is of the given type. -/
def construct (method : MethodRef) (type : RefType) : Assembling Unit := do
  let index ← (ConstantPool.methodRef method).toAssembling
  push (.withConstant .invokespecial index)
    (.constructor method.descriptor.parameters.length type)

/-- Pushes a new object whose constructor has not run. -/
def newObject (type : RefType) : Assembling Unit := do
  let index ← (ConstantPool.refType type).toAssembling
  push (.withConstant .newObject index) .none

/-- Pushes a new array, of which the lengths of the first `dimensions` dimensions
are popped. -/
def newArray (type : RefType) (dimensions : Nat) : Assembling Unit :=
  match dimensions, type.component? with
  | 1, some (.base element) => push (.newPrimitiveArray element) .none
  | 1, some (.ref element) => do
    let index ← (ConstantPool.refType element).toAssembling
    push (.withConstant .anewarray index) (.value (.object type))
  | _, _ => do
    let index ← (ConstantPool.refType type).toAssembling
    push (.newMultiArray index (UInt8.ofNat dimensions)) (.value (.object type))

/-- Checks that a reference is of the given type. -/
def checkCast (type : RefType) : Assembling Unit := do
  let index ← (ConstantPool.refType type).toAssembling
  push (.withConstant .checkcast index) (.value (.object type))

/-- Asks whether a reference is of the given type. -/
def instanceOf (type : RefType) : Assembling Unit := do
  let index ← (ConstantPool.refType type).toAssembling
  push (.withConstant .instanceof index) .none

/-- The instruction that loads an array element of the given type. -/
def loadElementOpcode : FieldType → Opcode
  | .base .boolean => .baload
  | .base .int => .iaload
  | .base .float => .faload
  | .ref _ => .aaload

/-- The instruction that stores an array element of the given type. -/
def storeElementOpcode : FieldType → Opcode
  | .base .boolean => .bastore
  | .base .int => .iastore
  | .base .float => .fastore
  | .ref _ => .aastore

/-- Replaces an array and an index by the element there. -/
def loadElement (type : FieldType) : Assembling Unit := simple (loadElementOpcode type)

/-- Pops a value into an array, with the index and the array below it. -/
def storeElement (type : FieldType) : Assembling Unit := simple (storeElementOpcode type)

end Assembler
end ClassForge
