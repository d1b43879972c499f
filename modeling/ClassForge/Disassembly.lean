/-
# Disassembly: code split back into instructions

Specification, section 10.6: the decoding of instructions, with `wide`.

Code is read from left to right: an optional `wide` byte, an opcode, then as
many operand bytes as the opcode has, twice as many after `wide`.  Nothing is
said about what the operands mean, except that a branch gives its destination
relative to its own offset.
-/

import ClassForge.Instruction
import ClassForge.Malformed

namespace ClassForge

/-- An instruction read out of code. -/
structure CodeItem where
  /-- The offset of the first byte, which is `wide` if there is one. -/
  offset : Nat
  opcode : Opcode
  operands : Bytes
  wide : Bool
deriving DecidableEq

namespace CodeItem

/-- The size in bytes. -/
def size (i : CodeItem) : Nat := 1 + i.wide.toNat + i.operands.length

/-- The bytes of the instruction. -/
def encode (i : CodeItem) : Bytes :=
  (if i.wide then [Opcode.wide] else []) ++ i.opcode.code :: i.operands

/-- The first two operand bytes as a number. -/
def operand16? (i : CodeItem) : Option UInt16 :=
  match i.operands with
  | high :: low :: _ => some (UInt16.ofNat (high.toNat * 256 + low.toNat))
  | _ => none

/-- The offset that a branch goes to, unless it lies before the code. -/
def destination? (i : CodeItem) : Option Nat :=
  if i.opcode.effect.isBranch then
    i.operand16?.bind fun delta =>
      let destination := (i.offset : Int) + delta.toInt16.toInt
      if destination < 0 then none else some destination.toNat
  else none

/-- A text behind blanks that fill it up to five columns. -/
def column (text : String) : String := "".pushn ' ' (5 - text.length) ++ text

/-- The text of an instruction: its offset and name, then its destination or its
operand bytes. -/
def text (i : CodeItem) : String :=
  let operand := match i.destination? with
    | some destination => s!" {destination}"
    | none => String.join (i.operands.map fun b => s!" {b.toNat}")
  column (toString i.offset) ++ ": " ++ (if i.wide then "wide " else "") ++
    i.opcode.mnemonic ++ operand

end CodeItem

namespace Disassembly

/-- The number of operand bytes, which `wide` doubles. -/
def operandCount (wide : Bool) (opcode : Opcode) : Nat :=
  if wide then 2 * opcode.operandBytes else opcode.operandBytes

/-- The instruction whose opcode stands at the start of some code, and the code
behind it; `offset` is where the instruction starts. -/
def next (offset : Nat) (wide : Bool) (code : Bytes) : Except Malformed (CodeItem × Bytes) :=
  match code with
  | [] => .error (.unknownOpcode (offset + wide.toNat))
  | byte :: rest =>
    match Opcode.ofCode? byte with
    | none => .error (.unknownOpcode (offset + wide.toNat))
    | some opcode =>
      if wide ∧ ¬ opcode.hasSlotOperand then .error (.notWidenable opcode offset)
      else
        let operands := rest.take (operandCount wide opcode)
        if operands.length < operandCount wide opcode then .error (.truncated opcode offset)
        else .ok ({ offset, opcode, operands, wide }, rest.drop (operandCount wide opcode))

theorem next_length {offset : Nat} {wide : Bool} {code rest : Bytes} {i : CodeItem}
    (h : next offset wide code = .ok (i, rest)) : rest.length < code.length := by
  unfold next at h
  split at h
  · simp at h
  · split at h
    · simp at h
    · split at h
      · simp at h
      · simp only at h
        split at h
        · simp at h
        · simp only [Except.ok.injEq, Prod.mk.injEq] at h
          rw [← h.2, List.length_drop, List.length_cons]
          omega

/-- The instructions of code that starts at `offset`, behind those already read
(last first). -/
def itemsFrom (done : List CodeItem) (offset : Nat) (code : Bytes) :
    Except Malformed (List CodeItem) :=
  match code with
  | [] => .ok done.reverse
  | byte :: rest =>
    if byte = Opcode.wide then
      match h : next offset true rest with
      | .error e => .error e
      | .ok (i, behind) =>
        have := next_length h
        itemsFrom (i :: done) (offset + i.size) behind
    else
      match h : next offset false (byte :: rest) with
      | .error e => .error e
      | .ok (i, behind) =>
        have := next_length h
        itemsFrom (i :: done) (offset + i.size) behind
termination_by code.length
decreasing_by
  · simp only [List.length_cons]; omega
  · simpa using this

/-- The instructions of code. -/
def items (code : Bytes) : Except Malformed (List CodeItem) := itemsFrom [] 0 code

end Disassembly
end ClassForge
