/-
# What makes a class file malformed

Specification, section 10.2: malformed class files.

The reasons for which bytes are refused as a class file, or a part of one, and
their wording.
-/

import ClassForge.Descriptor.Parser
import ClassForge.Opcode
import ClassForge.StackMap.Table

namespace ClassForge

/-- Why a class file, or a part of it, cannot be understood. -/
inductive Malformed where
  /-- A structure cannot be read. -/
  | read (error : ReadError)
  /-- Bytes are left over after the class. -/
  | trailing (count : Nat)
  /-- The byte at the offset is no opcode. -/
  | unknownOpcode (offset : Nat)
  /-- The instruction at the offset is widened but has no slot operand. -/
  | notWidenable (opcode : Opcode) (offset : Nat)
  /-- The code ends inside the instruction at the offset. -/
  | truncated (opcode : Opcode) (offset : Nat)
  /-- A method names no descriptor. -/
  | missingDescriptor
  /-- The descriptor of a method cannot be read. -/
  | descriptor (error : DescriptorError)
  /-- A stack map table cannot be played back. -/
  | stackMap (error : StackMap.ExpandError)
  /-- A constant takes an index that does not fit in 16 bits. -/
  | indexOverflow
deriving DecidableEq

/-- The wording of a reason. -/
def Malformed.message : Malformed → String
  | .read error => error.message
  | .trailing count => s!"{count} trailing bytes after class"
  | .unknownOpcode offset => s!"Unknown opcode at offset {offset}"
  | .notWidenable opcode offset => s!"{opcode.mnemonic} cannot be widened (offset {offset})"
  | .truncated opcode offset => s!"Truncated {opcode.mnemonic} at offset {offset}"
  | .missingDescriptor => "Missing method descriptor"
  | .descriptor error => error.message
  | .stackMap error => error.message
  | .indexOverflow => "attempt to add with overflow"

end ClassForge
