/-
# Instructions

Specification, section 3 (instruction, branch instruction) and section 4.1.

One instruction of a method body: an opcode, its operand bytes, whether the
`wide` byte stands before it, and what it refers to.  Its size is fixed when it
is made: a branch has two operand bytes from the start, which are filled in
once all offsets are known.

The constructors choose the shortest form that an operand allows:

| operand | forms, shortest first |
| --- | --- |
| slot of a load or store | part of the opcode up to 3, one byte, `wide` with two |
| slot and amount of an increment | one byte each, `wide` with two each |
| integer | `iconst`, `bipush`, `sipush`, none beyond 16 bits |
| index of a constant | `ldc`, `ldc_w` |
-/

import ClassForge.Bytes
import ClassForge.Frame
import ClassForge.Opcode

namespace ClassForge

/-- A place in a method body that branches can go to, by its number. -/
structure Label where
  index : Nat
deriving DecidableEq, Hashable, Repr

instance : ToForm Label := ⟨fun l => .word s!"l{l.index}"⟩

/-- What an instruction refers to. -/
inductive Referent where
  | none
  /-- A local slot. -/
  | slot (slot : UInt16)
  /-- A constant, by its index. -/
  | constant (index : UInt16)
  /-- A label, with the frame in which control arrives there. -/
  | jump (target : Label) (arriving : Frame)
deriving DecidableEq

/-- One instruction of a method body. -/
structure Instruction where
  opcode : Opcode
  operands : Bytes
  wide : Bool := false
  referent : Referent := .none
deriving DecidableEq

namespace BaseType

/-- The byte by which a new array names its element type. -/
def arrayCode : BaseType → UInt8
  | .boolean => 4
  | .float => 6
  | .int => 10

/-- The element type that a byte names. -/
def ofArrayCode? : UInt8 → Option BaseType
  | 4 => some .boolean
  | 6 => some .float
  | 10 => some .int
  | _ => none

end BaseType

namespace Instruction

/-- An instruction without operands. -/
def simple (op : Opcode) : Instruction := { opcode := op, operands := [] }

/-- An instruction with the given operand bytes. -/
def make (op : Opcode) (operands : Bytes) : Instruction := { opcode := op, operands }

/-- An instruction whose operand is the index of a constant. -/
def withConstant (op : Opcode) (index : UInt16) : Instruction where
  opcode := op
  operands := Bytes.u16 index
  referent := .constant index

/-- A call through an interface, with the number of argument slots. -/
def invokeInterface (index : UInt16) (slots : UInt8) : Instruction where
  opcode := .invokeinterface
  operands := Bytes.u16 index ++ [slots, 0]
  referent := .constant index

/-- A new array of several dimensions, with their number. -/
def newMultiArray (index : UInt16) (dimensions : UInt8) : Instruction where
  opcode := .multianewarray
  operands := Bytes.u16 index ++ [dimensions]
  referent := .constant index

/-- A new array of a base type. -/
def newPrimitiveArray (element : BaseType) : Instruction := make .newarray [element.arrayCode]

/-- Push a constant of the pool. -/
def loadConstant (index : UInt16) : Instruction :=
  if index.toNat < 256 then
    { opcode := .ldc, operands := [UInt8.ofNat index.toNat], referent := .constant index }
  else withConstant .ldcW index

/-- Push an integer that needs no constant. -/
def pushInt? (n : Int) : Option Instruction :=
  if n = -1 then some (simple .iconstM1)
  else if n = 0 then some (simple .iconst0)
  else if n = 1 then some (simple .iconst1)
  else if n = 2 then some (simple .iconst2)
  else if n = 3 then some (simple .iconst3)
  else if n = 4 then some (simple .iconst4)
  else if n = 5 then some (simple .iconst5)
  else if -128 ≤ n ∧ n < 128 then some (make .bipush [Bytes.ofInt8 n])
  else if -32768 ≤ n ∧ n < 32768 then some (make .sipush (Bytes.i16 n))
  else none

/-- Push a floating point number that needs no constant: `0.0`, `1.0` or
`2.0`. -/
def pushFloat? (x : Binary32) : Option Instruction :=
  if x.bits = 0x00000000 then some (simple .fconst0)
  else if x.bits = 0x3F800000 then some (simple .fconst1)
  else if x.bits = 0x40000000 then some (simple .fconst2)
  else none

/-- Access to a slot: by one of the four short forms, one byte or two bytes. -/
def slotAccess (short : List Opcode) (general : Opcode) (slot : UInt16) : Instruction :=
  match short[slot.toNat]? with
  | some op => { opcode := op, operands := [], referent := .slot slot }
  | none =>
    if slot.toNat < 256 then
      { opcode := general, operands := [UInt8.ofNat slot.toNat], referent := .slot slot }
    else
      { opcode := general, operands := Bytes.u16 slot, wide := true, referent := .slot slot }

/-- Push the value of a slot. -/
def load (kind : ValueKind) (slot : UInt16) : Instruction :=
  match kind with
  | .int => slotAccess [.iload0, .iload1, .iload2, .iload3] .iload slot
  | .float => slotAccess [.fload0, .fload1, .fload2, .fload3] .fload slot
  | .reference => slotAccess [.aload0, .aload1, .aload2, .aload3] .aload slot

/-- Pop a value into a slot. -/
def store (kind : ValueKind) (slot : UInt16) : Instruction :=
  match kind with
  | .int => slotAccess [.istore0, .istore1, .istore2, .istore3] .istore slot
  | .float => slotAccess [.fstore0, .fstore1, .fstore2, .fstore3] .fstore slot
  | .reference => slotAccess [.astore0, .astore1, .astore2, .astore3] .astore slot

/-- Add an amount to the integer in a slot. -/
def increment (slot : UInt16) (amount : Int16) : Instruction :=
  if slot.toNat < 256 ∧ -128 ≤ amount.toInt ∧ amount.toInt < 128 then
    { opcode := .iinc, operands := [UInt8.ofNat slot.toNat, Bytes.ofInt8 amount.toInt],
      referent := .slot slot }
  else
    { opcode := .iinc, operands := Bytes.u16 slot ++ Bytes.i16 amount.toInt, wide := true,
      referent := .slot slot }

/-- A branch to a label, with the frame in which control arrives there. -/
def branch (op : Opcode) (target : Label) (arriving : Frame) : Instruction where
  opcode := op
  operands := [0, 0]
  referent := .jump target arriving

/-- The size in bytes. -/
def size (i : Instruction) : Nat := 1 + i.wide.toNat + i.operands.length

/-- The bytes of the instruction. -/
def encode (i : Instruction) : Bytes :=
  (if i.wide then [Opcode.wide] else []) ++ i.opcode.code :: i.operands

@[simp] theorem length_encode (i : Instruction) : i.encode.length = i.size := by
  unfold encode size
  cases i.wide <;> simp <;> omega

/-- The slot that the instruction reads or writes. -/
def slot? (i : Instruction) : Option UInt16 :=
  match i.referent with
  | .slot s => some s
  | _ => i.opcode.implicitSlot

/-- The slot that the instruction was made for. -/
def namedSlot? (i : Instruction) : Option UInt16 :=
  match i.referent with
  | .slot s => some s
  | _ => none

/-- The constant that the instruction refers to. -/
def constant? (i : Instruction) : Option UInt16 :=
  match i.referent with
  | .constant index => some index
  | _ => none

/-- The label that the instruction branches to. -/
def target? (i : Instruction) : Option Label :=
  match i.referent with
  | .jump target _ => some target
  | _ => none

/-- The text of an instruction: its name, then what it refers to or its operand
bytes. -/
def text (i : Instruction) : String :=
  let operand := match i.referent with
    | .jump target _ => " " ++ shown target
    | .slot s => if i.opcode.implicitSlot.isSome then "" else s!" {s.toNat}"
    | .constant index => s!" #{index.toNat}"
    | .none => String.join (i.operands.map fun b => s!" {b.toNat}")
  (if i.wide then "wide " else "") ++ i.opcode.mnemonic ++ operand

end Instruction
end ClassForge
