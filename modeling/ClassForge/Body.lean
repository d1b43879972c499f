/-
# Method bodies

Specification, section 3 (method body), section 4.4 (offsets and branches) and section
6 (the record that is written).

A finished method body: its instructions, the frame on entry, the frames at the
instructions that are branched to, and where each label stands.  Branches still
name labels.

`Body.resolve` lays the instructions out one behind the other and fills in the
branches; `Body.store` makes the code attribute, with a stack map if anything is
branched to.  Sizes are fixed before, so one pass suffices.

| limit | largest value |
| --- | ---: |
| length of the code | 65535 |
| depth of the stack, number of locals | 65535 |
| distance of a branch | -32768 … 32767 |
-/

import ClassForge.Attribute
import ClassForge.Fault
import Std.Data.TreeMap

namespace ClassForge

/-- A method body. -/
structure Body where
  maxStack : Nat
  maxLocals : Nat
  instructions : Array Instruction
  /-- The frame on entry. -/
  entry : Frame
  /-- The frames at the instructions that are branched to, by their numbers. -/
  frames : Std.TreeMap Nat Frame
  /-- The number of the instruction at each label, by the label's number. -/
  labels : Std.TreeMap Nat Nat
  /-- The offset of each instruction, once the body is laid out. -/
  offsets : Array Nat := #[]

/-- A computation that may add constants, or fail for any reason that concerns a
method body. -/
abbrev Storing := EStateM Fault ConstantPool

/-- Constants are added in the course of storing a method body. -/
def Interning.toStoring {α : Type} (x : Interning α) : Storing α := x.adaptExcept Fault.poolOverflow

namespace Body

/-- The greatest length of code. -/
def maxLength : Nat := 65535

/-- The offsets of instructions laid out from `offset` on, behind those already
laid out, and the offset behind the last one. -/
def layOut (done : Array Nat) (offset : Nat) : List Instruction → Array Nat × Nat
  | [] => (done, offset)
  | i :: is => layOut (done.push offset) (offset + i.size) is

/-- An instruction at the offset `origin` with its destination filled in, if it
is a branch. -/
def patched (labels : Std.TreeMap Nat Nat) (offsets : Array Nat) (origin : Nat)
    (i : Instruction) : Except Fault Instruction :=
  match i.target? with
  | none => .ok i
  | some target =>
    match labels[target.index]? with
    | none => .error (.unplacedLabel target)
    | some index =>
      match offsets[index]? with
      | none => .error (.labelAtEnd target)
      | some destination =>
        let delta : Int := (destination : Int) - origin
        if -32768 ≤ delta ∧ delta < 32768 then .ok { i with operands := Bytes.i16 delta }
        else .error (.branchTooFar origin destination)

/-- Instructions with their destinations filled in, behind those already done,
up to the first that cannot be. -/
def patchFrom (labels : Std.TreeMap Nat Nat) (offsets : Array Nat) (done : Array Instruction)
    (offset : Nat) : List Instruction → Array Instruction × Option Fault
  | [] => (done, none)
  | i :: is =>
    match patched labels offsets offset i with
    | .ok j => patchFrom labels offsets (done.push j) (offset + i.size) is
    | .error e => (done ++ (i :: is).toArray, some e)

/-- Lays a body out and fills in its branches; the result is the length of the
code.  If it fails, the offsets and the branches before the failure stay. -/
def resolve : EStateM Fault Body Nat := fun b =>
  let (offsets, length) := layOut #[] 0 b.instructions.toList
  if maxLength < length then .error (.codeTooLong length) { b with offsets }
  else
    match patchFrom b.labels offsets #[] 0 b.instructions.toList with
    | (instructions, none) => .ok length { b with offsets, instructions }
    | (instructions, some e) => .error e { b with offsets, instructions }

/-- The offset of an instruction, once the body is laid out. -/
def offset? (b : Body) (number : Nat) : Option Nat := b.offsets[number]?

/-- The offset by which a frame refers to the instruction that made an
object. -/
def originOffset (b : Body) (number : Nat) : UInt16 := UInt16.ofNat ((b.offset? number).getD 0)

/-- The branches: the number of each, its label, and the frame that it carries
there. -/
def jumps (b : Body) : List (Nat × Label × Frame) :=
  b.instructions.toList.zipIdx.filterMap fun (i, number) =>
    match i.referent with
    | .jump target arriving => some (number, target, arriving)
    | _ => none

/-- The bytes of the instructions. -/
def code (b : Body) : Bytes := b.instructions.toList.flatMap Instruction.encode

/-- A frame with the offset of its instruction. -/
def storeFrame (b : Body) (length : Nat) (frame : Nat × Frame) :
    Interning (UInt16 × StoredFrame) := do
  let stored ← frame.2.store b.originOffset
  return (UInt16.ofNat ((b.offset? frame.1).getD length), stored)

/-- The stack map attribute for the given frames, if there are any. -/
def stackMapAttributes (entry : StoredFrame) (frames : List (UInt16 × StoredFrame)) :
    Storing (List Attribute) := do
  if frames.isEmpty then return []
  else
    let name ← (ConstantPool.utf8 StackMap.label).toStoring
    match (StackMap.compress entry frames).write with
    | .ok info => return [⟨name, info⟩]
    | .error e => throw (.unwritable e)

/-- The code attribute of a body that is laid out with the given length. -/
def storeResolved (b : Body) (length : Nat) : Storing CodeAttribute :=
  if 65536 ≤ b.maxStack then throw (.stackTooDeep b.maxStack)
  else if 65536 ≤ b.maxLocals then throw (.tooManyLocals b.maxLocals)
  else do
    let entry ← (b.entry.store b.originOffset).toStoring
    let frames ← (b.frames.toList.mapM (b.storeFrame length)).toStoring
    let attributes ← stackMapAttributes entry frames
    return { maxStack := UInt16.ofNat b.maxStack, maxLocals := UInt16.ofNat b.maxLocals,
             code := b.code, handlers := [], attributes }

/-- The code attribute of a body. -/
def store (b : Body) : Storing CodeAttribute := fun pool =>
  match resolve b with
  | .ok length b => storeResolved b length pool
  | .error e _ => .error e pool

end Body
end ClassForge
