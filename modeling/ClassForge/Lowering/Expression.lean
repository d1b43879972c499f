/-
# Expressions

Specification, section 4.6, with the further cases of section 10.6.

The fragment of each expression, put together from the fragments of its parts.
-/

import ClassForge.Lowering.Fragment

namespace ClassForge

open Assembler (simple)
open Lowering (emit unsupported typeOf arrayTypeOf)

namespace Lowering

/-- Pushes the value of a local. -/
def loadVar (id : LocalId) : Lowering Unit := do
  let (slot, declared) ← lookup id
  emit (Assembler.loadLocal slot declared)

/-- Pushes the negative of a value; `e` is the whole expression. -/
def negated (e : Expr) (operand : Operand) : Lowering Unit := do
  operand.value
  let type ← typeOf operand.source
  match type.kind with
  | .int => emit (simple .ineg)
  | .float => emit (simple .fneg)
  | .reference => unsupported e

/-- Pushes the bitwise complement of a value. -/
def complemented (operand : Operand) : Lowering Unit := do
  operand.value
  emit (Assembler.pushInt (-1))
  emit (simple .ixor)

/-- Pushes an element of an array; `e` is the whole expression. -/
def elementValue (e : Expr) (array index : Operand) : Lowering Unit := do
  array.value
  index.value
  emit (Assembler.loadElement (← typeOf e))

/-- Pushes the receiver of a call.  That of a static method is evaluated and
dropped. -/
def receiver (site : Site) (method : MethodRef) : Option Operand → Lowering Unit
  | some operand => do
    operand.value
    if method.isStatic then emit (simple .pop)
  | none => if method.isStatic then pure () else loadThis site

/-- Pushes the result of a call. -/
def called (site : Site) (object : Option Operand) (method : MethodRef) (operands : List Operand)
    (viaSuper : Bool) : Lowering Unit := do
  receiver site method object
  arguments operands method.descriptor
  emit (Assembler.invoke method viaSuper)

/-- Pushes a new object. -/
def created (constructor : MethodRef) (operands : List Operand) : Lowering Unit := do
  emit (Assembler.newObject (.object constructor.owner))
  emit (simple .dup)
  arguments operands constructor.descriptor
  emit (Assembler.construct constructor (.object constructor.owner))

/-- Pushes a new array with the given lengths. -/
def createdArray (e : Expr) (dimensions : List Operand) : Lowering Unit := do
  let type ← arrayTypeOf e
  if dimensions.isEmpty ∨ type.dimensions < dimensions.length then unsupported e
  else
    dimensions.forM Operand.value
    emit (Assembler.newArray type dimensions.length)

/-- Stores elements into the array on the stack, from `index` on. -/
def storeElements (type : FieldType) (index : Nat) : List Operand → Lowering Unit
  | [] => pure ()
  | operand :: operands => do
    emit (simple .dup)
    emit (Assembler.pushInt (Int32.ofNat index))
    operand.converted type
    emit (Assembler.storeElement type)
    storeElements type (index + 1) operands

/-- Pushes a new array with the given elements. -/
def filledArray (e : Expr) (elements : List Operand) : Lowering Unit := do
  let type ← arrayTypeOf e
  match type.component? with
  | none => unsupported e
  | some element =>
    if 2147483648 ≤ elements.length then unsupported e
    else
      emit (Assembler.pushInt (Int32.ofNat elements.length))
      emit (Assembler.newArray type 1)
      storeElements element 0 elements

/-- Pushes a value converted to the type of the whole expression. -/
def castValue (e : Expr) (operand : Operand) : Lowering Unit := do
  let source ← typeOf operand.source
  let type ← typeOf e
  operand.value
  match source.kind, type with
  | .int, .base .float => emit (simple .i2f)
  | .float, .base .int => emit (simple .f2i)
  | .reference, .ref t => if source = type then pure () else emit (Assembler.checkCast t)
  | _, _ => if source = type then pure () else unsupported e

/-- The operands of a chain of string additions, of which the whole expression is
the last. -/
def chain (e : Expr) (op : BinaryOp) (left : List Operand) (right : Operand)
    (value : Lowering Unit) : List Operand :=
  if op = .add ∧ e.type = some .string then left ++ [right] else [⟨e, value⟩]

/-- The fragment of an operator. -/
def binaryFragment (e : Expr) (op : BinaryOp) (left right : Fragment) : Fragment :=
  let value := binaryValue e op left.toOperand right.toOperand (left.pieces ++ [right.toOperand])
  { Fragment.ofValue e value with pieces := chain e op left.pieces right.toOperand value }

/-- The fragment of an operator with one operand. -/
def unaryFragment (e : Expr) (op : UnaryOp) (operand : Fragment) : Fragment :=
  match op with
  | .negate => .ofValue e (negated e operand.toOperand)
  | .bitNot => .ofValue e (complemented operand.toOperand)
  | .not => .ofJump e fun outcome target => operand.jump (!outcome) target

/-- The fragment of an array element. -/
def elementFragment (e : Expr) (array index : Fragment) : Fragment :=
  .ofPlace e (elementValue e array.toOperand index.toOperand) (.element array.value index.value)

/-- The fragment of a field. -/
def fieldFragment (e : Expr) (object : Fragment) (field : FieldRef) : Fragment :=
  .ofPlace e
    (do
      object.value
      emit (Assembler.getField field))
    (.field object.value field)

end Lowering

mutual

/-- The code of an expression. -/
def Expr.fragment (site : Site) (e : Expr) : Fragment :=
  match e with
  | .int value _ => .ofValue e (emit (Assembler.pushInt value))
  | .float value _ => .ofValue e (emit (Assembler.pushFloat value))
  | .boolean value _ =>
    { Fragment.ofValue e (emit (Assembler.pushInt (if value then 1 else 0))) with
      jump := Lowering.jumpConstant value }
  | .string value _ => .ofValue e (emit (Assembler.pushString value))
  | .null _ => .ofValue e (emit (simple .aconstNull))
  | .this _ => .ofValue e (Lowering.loadThis site)
  | .var id _ => .ofPlace e (Lowering.loadVar id) (.slot id)
  | .staticField f _ => .ofPlace e (emit (Assembler.getField f)) (.staticField f)
  | .field object f _ => Lowering.fieldFragment e (object.fragment site) f
  | .element array index _ =>
    Lowering.elementFragment e (array.fragment site) (index.fragment site)
  | .length array _ =>
    .ofValue e
      (do
        (array.fragment site).value
        emit (simple .arraylength))
  | .assign target value _ =>
    .ofUpdate e (Lowering.assign (target.fragment site) (value.fragment site).toOperand)
  | .compound op target value _ =>
    .ofUpdate e (Lowering.compound op (target.fragment site) (value.fragment site).toOperand)
  | .increment target decrement inFront _ =>
    .ofUpdate e (Lowering.increment (target.fragment site) decrement inFront)
  | .unary op operand _ => Lowering.unaryFragment e op (operand.fragment site)
  | .binary op left right _ =>
    Lowering.binaryFragment e op (left.fragment site) (right.fragment site)
  | .compare op left right _ =>
    .ofJump e
      (Lowering.jumpCompare e op (left.fragment site).toOperand (right.fragment site).toOperand)
  | .logical op left right _ =>
    .ofJump e (Lowering.jumpLogical op (left.fragment site).jump (right.fragment site).jump)
  | .conditional condition thenValue elseValue _ =>
    .ofValue e
      (Lowering.conditionalValue e (condition.fragment site).jump
        (thenValue.fragment site).toOperand (elseValue.fragment site).toOperand)
  | .call object method operands viaSuper _ =>
    .ofValue e
      (Lowering.called site (Expr.operand? site object) method (Expr.operands site operands)
        viaSuper)
  | .new constructor operands _ =>
    .ofValue e (Lowering.created constructor (Expr.operands site operands))
  | .newArray dimensions _ => .ofValue e (Lowering.createdArray e (Expr.operands site dimensions))
  | .arrayOf elements _ => .ofValue e (Lowering.filledArray e (Expr.operands site elements))
  | .cast operand _ => .ofValue e (Lowering.castValue e (operand.fragment site).toOperand)
  | .instanceOf operand tested _ =>
    .ofValue e
      (do
        (operand.fragment site).value
        emit (Assembler.instanceOf tested))

/-- Several expressions with the code for their values. -/
def Expr.operands (site : Site) (es : List Expr) : List Operand :=
  match es with
  | [] => []
  | e :: es => (e.fragment site).toOperand :: Expr.operands site es

/-- An expression that may be missing, with the code for its value. -/
def Expr.operand? (site : Site) (e : Option Expr) : Option Operand :=
  match e with
  | none => none
  | some e => some (e.fragment site).toOperand

end

end ClassForge
