/-
# Fragments: the code of an expression

Specification, section 4.6: conditions, compound assignments and increments, and
section 10.6: joined strings.

An expression can be asked for in several ways: for its value, for its effect
alone, as a condition that branches, as something to assign to, or as pieces of
a string to be joined.  A `Fragment` holds the code for each of them.  The
fragment of an expression is put together from the fragments of its parts, of
which nothing else needs to be known.

| part | the code leaves |
| --- | --- |
| `value` | the value on the stack |
| `effect` | nothing |
| `jump` | nothing, and goes to a label if the condition has the given outcome |
| `place` | where a value can be stored |
| `pieces` | the operands of a chain of string additions, from left to right |
-/

import ClassForge.Lowering

namespace ClassForge

/-- An expression with the code for its value. -/
structure Operand where
  source : Expr
  value : Lowering Unit

/-- The code that goes to a label if a condition has the given outcome, and else
goes on. -/
abbrev Jump := Bool → Label → Lowering Unit

/-- Where a value can be stored. -/
inductive Place where
  | slot (id : LocalId)
  | staticField (field : FieldRef)
  | field (object : Lowering Unit) (field : FieldRef)
  | element (array index : Lowering Unit)

/-- The code of an expression. -/
structure Fragment extends Operand where
  effect : Lowering Unit
  jump : Jump
  place : Option Place
  pieces : List Operand

open Assembler (simple freshLabel)
open Lowering (emit unsupported typeOf arrayTypeOf)

/-! ### Values -/

/-- The value where one of the given type is expected: an `int` becomes a `float`
where that is needed. -/
def Operand.converted (o : Operand) (expected : FieldType) : Lowering Unit := do
  o.value
  let type ← typeOf o.source
  if type.kind = .int ∧ expected.kind = .float then emit (simple .i2f)

namespace Lowering

/-- The arguments of a call. -/
def arguments (operands : List Operand) (d : MethodDescriptor) : Lowering Unit :=
  if operands.length ≠ d.parameters.length then
    throw (.unsupported (.argumentCount operands.length d))
  else (operands.zip d.parameters).forM fun (operand, parameter) => operand.converted parameter

/-- The instruction for an operator on values of a kind. -/
def binaryOpcode : BinaryOp → ValueKind → Option Opcode
  | .add, .int => some .iadd
  | .sub, .int => some .isub
  | .mul, .int => some .imul
  | .div, .int => some .idiv
  | .rem, .int => some .irem
  | .bitAnd, .int => some .iand
  | .bitOr, .int => some .ior
  | .bitXor, .int => some .ixor
  | .shl, .int => some .ishl
  | .shr, .int => some .ishr
  | .ushr, .int => some .iushr
  | .add, .float => some .fadd
  | .sub, .float => some .fsub
  | .mul, .float => some .fmul
  | .div, .float => some .fdiv
  | .rem, .float => some .frem
  | _, _ => none

/-- Applies an operator to two values of a kind on the stack; `e` is blamed if
there is no such operator. -/
def operate (e : Expr) (op : BinaryOp) (kind : ValueKind) : Lowering Unit :=
  match binaryOpcode op kind with
  | some opcode => emit (simple opcode)
  | none => unsupported e

/-! ### Strings -/

/-- The type of string builders. -/
def builderType : RefType := .object .stringBuilder

/-- Pushes a new string builder. -/
def newBuilder : Lowering Unit := do
  emit (Assembler.newObject builderType)
  emit (simple .dup)
  emit (Assembler.construct (.constructor .stringBuilder []) builderType)

/-- The type under which a value is appended to a string builder. -/
def appendType : FieldType → FieldType
  | .base t => .base t
  | .ref t => if FieldType.ref t = .string then .string else .object .object

/-- The method that appends a value of the given type. -/
def appendMethod (type : FieldType) : MethodRef where
  owner := .stringBuilder
  name := .append
  descriptor := ⟨[appendType type], some (.object .stringBuilder)⟩

/-- The method that gives the string of a string builder. -/
def toStringMethod : MethodRef where
  owner := .stringBuilder
  name := .toStringName
  descriptor := ⟨[], some .string⟩

/-- Appends the value on the stack to the string builder below it. -/
def append (type : FieldType) : Lowering Unit := emit (Assembler.invoke (appendMethod type) false)

/-- Replaces a string builder by its string. -/
def builderString : Lowering Unit := emit (Assembler.invoke toStringMethod false)

/-- Appends an operand to the string builder on the stack. -/
def appendOperand (o : Operand) : Lowering Unit := do
  o.value
  append (← typeOf o.source)

/-- Joins pieces to a string, with one string builder for all. -/
def joined (pieces : List Operand) : Lowering Unit := do
  newBuilder
  pieces.forM appendOperand
  builderString

/-- The value of an operator; `pieces` are those of the whole expression. -/
def binaryValue (e : Expr) (op : BinaryOp) (left right : Operand) (pieces : List Operand) :
    Lowering Unit := do
  let type ← typeOf e
  if op = .add ∧ type = .string then joined pieces
  else
    left.converted type
    right.converted type
    operate e op type.kind

/-! ### Conditions -/

/-- Branches on a value that is zero or not. -/
def jumpOn (value : Lowering Unit) : Jump := fun outcome target => do
  value
  emit (Assembler.branch (if outcome then .ifne else .ifeq) target)

/-- Branches on a constant. -/
def jumpConstant (value : Bool) : Jump := fun outcome target =>
  if value = outcome then emit (Assembler.branch .goto target) else pure ()

/-- Branches on two conditions of which the second may not be needed. -/
def jumpLogical (op : LogicalOp) (left right : Jump) : Jump := fun outcome target =>
  match op, outcome with
  | .and, false | .or, true => do
    left outcome target
    right outcome target
  | .and, true | .or, false => do
    let skip ← emit freshLabel
    left (!outcome) skip
    right outcome target
    emit (Assembler.place skip)

/-- The branch that compares an integer with zero. -/
def zeroBranch : CompareOp → Opcode
  | .eq => .ifeq
  | .ne => .ifne
  | .lt => .iflt
  | .le => .ifle
  | .gt => .ifgt
  | .ge => .ifge

/-- The branch that compares two integers. -/
def intBranch : CompareOp → Opcode
  | .eq => .ifIcmpeq
  | .ne => .ifIcmpne
  | .lt => .ifIcmplt
  | .le => .ifIcmple
  | .gt => .ifIcmpgt
  | .ge => .ifIcmpge

/-- The comparison of floating point numbers after which every ordering with a
NaN is false. -/
def floatCompare : CompareOp → Opcode
  | .lt | .le => .fcmpg
  | _ => .fcmpl

/-- The kind in which two values are compared. -/
def compareKind : ValueKind → ValueKind → ValueKind
  | .float, _ | _, .float => .float
  | kind, _ => kind

/-- The operand that is compared with `null`, if one of them is `null`. -/
def nullChecked (left right : Operand) : Option Operand :=
  if right.source.isNull then some left
  else if left.source.isNull then some right
  else none

/-- Pushes what a comparison of references needs; the result is the branch that
is taken if the comparison holds. -/
def compareReferences (e : Expr) (op : CompareOp) (left right : Operand) : Lowering Opcode :=
  match op, nullChecked left right with
  | .eq, some operand => do
    operand.value
    return .ifnull
  | .ne, some operand => do
    operand.value
    return .ifnonnull
  | .eq, none => do
    left.value
    right.value
    return .ifAcmpeq
  | .ne, none => do
    left.value
    right.value
    return .ifAcmpne
  | _, _ => unsupported e

/-- Pushes what a comparison needs; the result is the branch that is taken if the
comparison holds. -/
def compareOperands (e : Expr) (op : CompareOp) (left right : Operand) : Lowering Opcode := do
  let leftType ← typeOf left.source
  let rightType ← typeOf right.source
  match compareKind leftType.kind rightType.kind with
  | .int =>
    left.value
    if right.source.isZero then return zeroBranch op
    else
      right.value
      return intBranch op
  | .float =>
    left.converted .float
    right.converted .float
    emit (simple (floatCompare op))
    return zeroBranch op
  | .reference => compareReferences e op left right

/-- Branches on a comparison. -/
def jumpCompare (e : Expr) (op : CompareOp) (left right : Operand) : Jump :=
    fun outcome target => do
  let taken ← compareOperands e op left right
  if outcome then emit (Assembler.branch taken target)
  else
    match taken.negate with
    | some opposite => emit (Assembler.branch opposite target)
    | none => unsupported e

/-- Pushes the outcome of a condition, as one or zero. -/
def outcomeValue (jump : Jump) : Lowering Unit := do
  let falseLabel ← emit freshLabel
  let endLabel ← emit freshLabel
  jump false falseLabel
  emit (Assembler.pushInt 1)
  emit (Assembler.branch .goto endLabel)
  emit (Assembler.place falseLabel)
  emit (Assembler.pushInt 0)
  emit (Assembler.place endLabel)

/-- Pushes one of two values of a type. -/
def conditionalValue (e : Expr) (condition : Jump) (thenValue elseValue : Operand) :
    Lowering Unit := do
  let type ← typeOf e
  let elseLabel ← emit freshLabel
  let endLabel ← emit freshLabel
  condition false elseLabel
  thenValue.converted type
  generalizeTop type
  emit (Assembler.branch .goto endLabel)
  emit (Assembler.place elseLabel)
  elseValue.converted type
  generalizeTop type
  emit (Assembler.place endLabel)

end Lowering

/-! ### Places -/

namespace Place

/-- Pushes what says where the place is. -/
def address : Place → Lowering Unit
  | .slot _ | .staticField _ => pure ()
  | .field object _ => object
  | .element array index => do
    array
    index

/-- Pushes what says where the place is once more. -/
def copyAddress : Place → Lowering Unit
  | .slot _ | .staticField _ => pure ()
  | .field _ _ => emit (simple .dup)
  | .element _ _ => emit (simple .dup2)

/-- Replaces the address by the value there. -/
def load (type : FieldType) : Place → Lowering Unit
  | .slot id => do
    let (number, declared) ← Lowering.lookup id
    emit (Assembler.loadLocal number declared)
  | .staticField f | .field _ f => emit (Assembler.getField f)
  | .element _ _ => emit (Assembler.loadElement type)

/-- Pops a value into the place, with the address below it. -/
def store (type : FieldType) : Place → Lowering Unit
  | .slot id => do
    let (number, declared) ← Lowering.lookup id
    emit (Assembler.storeLocal number declared)
  | .staticField f | .field _ f => emit (Assembler.putField f)
  | .element _ _ => emit (Assembler.storeElement type)

/-- The instruction that copies a value to below the address. -/
def keep : Place → Opcode
  | .slot _ | .staticField _ => .dup
  | .field _ _ => .dupX1
  | .element _ _ => .dupX2

/-- Keeps a copy of the value on top of the stack below the address, if asked
for. -/
def keepIf (p : Place) (wanted : Bool) : Lowering Unit :=
  if wanted then emit (simple p.keep) else pure ()

/-- Pushes the address, and the value there on top of it. -/
def loadForUpdate (p : Place) (type : FieldType) : Lowering Unit := do
  p.address
  p.copyAddress
  p.load type

end Place

namespace Lowering

/-- The place that a fragment stands for. -/
def placeOf (target : Fragment) : Lowering Place :=
  match target.place with
  | some p => pure p
  | none => unsupported target.source

/-- Assigns a value, which stays on the stack if it is wanted. -/
def assign (target : Fragment) (value : Operand) (wanted : Bool) : Lowering Unit := do
  let type ← typeOf target.source
  let p ← placeOf target
  p.address
  value.converted type
  p.keepIf wanted
  p.store type

/-- The amount by which an assignment changes an integer local, if it is small
and constant. -/
def incrementAmount (op : BinaryOp) (value : Expr) : Option Int16 :=
  match value.literal?, op with
  | some n, .add => small n.toInt
  | some n, .sub => small (-n.toInt)
  | _, _ => none
where
  /-- The number, if it fits in 16 bits. -/
  small (n : Int) : Option Int16 := if -32768 ≤ n ∧ n < 32768 then some (Int16.ofInt n) else none

/-- Is the operator a shift? -/
def isShift : BinaryOp → Bool
  | .shl | .shr | .ushr => true
  | _ => false

/-- Applies an operator to the value on the stack and an operand.  An `int` with
a `float` operand is changed as a `float` and then cut off. -/
def updateArithmetic (target : Expr) (op : BinaryOp) (type : FieldType) (value : Operand)
    (valueType : FieldType) : Lowering Unit :=
  if type = .int ∧ valueType = .float ∧ ¬ isShift op then do
    emit (simple .i2f)
    value.converted valueType
    operate target op valueType.kind
    emit (simple .f2i)
  else do
    value.converted type
    operate target op type.kind

/-- Appends an operand to the string on the stack. -/
def updateString (type : FieldType) (value : Operand) (valueType : FieldType) : Lowering Unit := do
  newBuilder
  emit (simple .swap)
  append type
  value.value
  append valueType
  builderString

/-- Changes a place by an operator. -/
def compoundThrough (target : Fragment) (op : BinaryOp) (value : Operand)
    (type valueType : FieldType) (wanted : Bool) : Lowering Unit := do
  let p ← placeOf target
  p.loadForUpdate type
  if op = .add ∧ type = .string then updateString type value valueType
  else updateArithmetic target.source op type value valueType
  p.keepIf wanted
  p.store type

/-- Changes a place by an operator; the new value stays on the stack if it is
wanted. -/
def compound (op : BinaryOp) (target : Fragment) (value : Operand) (wanted : Bool) :
    Lowering Unit := do
  let type ← typeOf target.source
  let valueType ← typeOf value.source
  match target.place, incrementAmount op value.source with
  | some (.slot id), some amount =>
    if ¬ wanted ∧ type = .int then
      let (slot, _) ← lookup id
      emit (Assembler.increment slot amount)
    else compoundThrough target op value type valueType wanted
  | _, _ => compoundThrough target op value type valueType wanted

/-- Pushes the number one, of the kind of the target. -/
def pushOne (target : Expr) : ValueKind → Lowering Unit
  | .int => emit (Assembler.pushInt 1)
  | .float => emit (Assembler.pushFloat ⟨0x3F800000⟩)
  | .reference => unsupported target

/-- Changes a place by one.  If the value is wanted, the one after the change
stays on the stack if the operator stands in front, and else the one before. -/
def incrementThrough (target : Fragment) (type : FieldType) (decrement inFront wanted : Bool) :
    Lowering Unit := do
  let p ← placeOf target
  p.loadForUpdate type
  p.keepIf (wanted && !inFront)
  pushOne target.source type.kind
  operate target.source (if decrement then .sub else .add) type.kind
  p.keepIf (wanted && inFront)
  p.store type

/-- Changes an integer local by one, in place. -/
def incrementSlot (id : LocalId) (type : FieldType) (decrement inFront wanted : Bool) :
    Lowering Unit := do
  let (slot, _) ← lookup id
  if wanted && !inFront then emit (Assembler.loadLocal slot type)
  emit (Assembler.increment slot (if decrement then -1 else 1))
  if wanted && inFront then emit (Assembler.loadLocal slot type)

/-- Changes a place by one. -/
def increment (target : Fragment) (decrement inFront wanted : Bool) : Lowering Unit := do
  let type ← typeOf target.source
  match target.place with
  | some (.slot id) =>
    if type = .int then incrementSlot id type decrement inFront wanted
    else incrementThrough target type decrement inFront wanted
  | _ => incrementThrough target type decrement inFront wanted

end Lowering

/-! ### Putting fragments together -/

namespace Fragment

/-- An expression that is only good for its value. -/
def ofValue (source : Expr) (value : Lowering Unit) : Fragment where
  source
  value
  effect := do
    value
    if source.type.isSome then emit (simple .pop)
  jump := Lowering.jumpOn value
  place := none
  pieces := [⟨source, value⟩]

/-- An expression that can be assigned to. -/
def ofPlace (source : Expr) (value : Lowering Unit) (place : Place) : Fragment :=
  { ofValue source value with place := some place }

/-- A condition. -/
def ofJump (source : Expr) (jump : Jump) : Fragment :=
  { ofValue source (Lowering.outcomeValue jump) with jump }

/-- An expression that changes something, whose value may be wanted or not. -/
def ofUpdate (source : Expr) (update : Bool → Lowering Unit) : Fragment :=
  { ofValue source (update true) with effect := update false }

end Fragment
end ClassForge
