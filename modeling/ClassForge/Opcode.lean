/-
# Opcodes

Specification, section 3 (opcode descriptor) and section 4.1.

The instructions that generated code consists of, each with its byte, its name,
its operand bytes and its effect on the operand stack and the locals.  The
effect is all that the simulation of an instruction looks at.

| family | bytes |
| --- | --- |
| constants | `0x00` … `0x13` |
| loads and stores | `0x15` … `0x54` |
| stack | `0x57` … `0x5F` |
| arithmetic | `0x60` … `0x96` |
| branches and returns | `0x99` … `0xB1`, `0xC6`, `0xC7` |
| members, objects, arrays | `0xB2` … `0xC5` |

The byte `0xC4` is no instruction: it widens the operands of the one after it.
-/

import ClassForge.Text.Form

namespace ClassForge

/-- The kinds of values that instructions tell apart. -/
inductive ValueKind where
  /-- Integers and truth values. -/
  | int
  | float
  | reference
deriving DecidableEq, Hashable, Repr

/-- What an instruction does to the operand stack and the locals. -/
inductive Effect where
  | nop
  | pushInt
  | pushFloat
  | pushNull
  /-- Pushes a constant whose type the instruction does not show. -/
  | pushConstant
  | loadLocal (kind : ValueKind)
  | storeLocal (kind : ValueKind)
  | pop
  | pop2
  | dup
  | dupX1
  | dupX2
  | dup2
  | swap
  | intBinary
  | floatBinary
  | intUnary
  | floatUnary
  | intToFloat
  | floatToInt
  | floatCompare
  /-- Adds to a local that holds an integer. -/
  | incrementLocal
  | arrayLoad (kind : ValueKind)
  | arrayStore (kind : ValueKind)
  | arrayLength
  | newObject
  | newPrimitiveArray
  | newReferenceArray
  | newMultiArray
  | getStatic
  | putStatic
  | getField
  | putField
  /-- Calls a method of the receiver's class. -/
  | invoke
  /-- Calls a constructor or exactly the named method. -/
  | invokeSpecial
  | invokeStatic
  | checkCast
  | instanceOf
  /-- Branches on one integer. -/
  | ifZero
  /-- Branches on two values of one kind. -/
  | ifCompare
  /-- Branches on one reference. -/
  | ifNull
  | goto
  /-- Leaves the method without a value. -/
  | exit
  /-- Leaves the method with a value. -/
  | exitWith (kind : ValueKind)
deriving DecidableEq, Repr

namespace Effect

/-- Does the instruction carry the distance to another one? -/
def isBranch : Effect → Bool
  | .ifZero | .ifCompare | .ifNull | .goto => true
  | _ => false

/-- Does control never go on to the next instruction? -/
def isUnconditional : Effect → Bool
  | .goto | .exit | .exitWith _ => true
  | _ => false

end Effect

/-- The instructions that code is made of. -/
inductive Opcode where
  | nop | aconstNull | iconstM1 | iconst0 | iconst1 | iconst2 | iconst3 | iconst4 | iconst5
  | fconst0 | fconst1 | fconst2 | bipush | sipush | ldc | ldcW | iload | fload | aload | iload0
  | iload1 | iload2 | iload3 | fload0 | fload1 | fload2 | fload3 | aload0 | aload1 | aload2
  | aload3 | iaload | faload | aaload | baload | istore | fstore | astore | istore0 | istore1
  | istore2 | istore3 | fstore0 | fstore1 | fstore2 | fstore3 | astore0 | astore1 | astore2
  | astore3 | iastore | fastore | aastore | bastore | pop | pop2 | dup | dupX1 | dupX2 | dup2
  | swap | iadd | fadd | isub | fsub | imul | fmul | idiv | fdiv | irem | frem | ineg | fneg
  | ishl | ishr | iushr | iand | ior | ixor | iinc | i2f | f2i | fcmpl | fcmpg | ifeq | ifne
  | iflt | ifge | ifgt | ifle | ifIcmpeq | ifIcmpne | ifIcmplt | ifIcmpge | ifIcmpgt | ifIcmple
  | ifAcmpeq | ifAcmpne | goto | ireturn | freturn | areturn | returnVoid | getstatic | putstatic
  | getfield | putfield | invokevirtual | invokespecial | invokestatic | invokeinterface
  | newObject | newarray | anewarray | arraylength | checkcast | instanceof | multianewarray
  | ifnull | ifnonnull
deriving DecidableEq

namespace Opcode

/-- What is fixed for an opcode: its byte, its name, the number of operand bytes
that follow it (without the `wide` byte) and its effect. -/
structure Info where
  code : UInt8
  mnemonic : String
  operandBytes : Nat
  effect : Effect

/-- The table of opcodes. -/
def info : Opcode → Info
  | .nop => ⟨0x00, "nop", 0, .nop⟩
  | .aconstNull => ⟨0x01, "aconst_null", 0, .pushNull⟩
  | .iconstM1 => ⟨0x02, "iconst_m1", 0, .pushInt⟩
  | .iconst0 => ⟨0x03, "iconst_0", 0, .pushInt⟩
  | .iconst1 => ⟨0x04, "iconst_1", 0, .pushInt⟩
  | .iconst2 => ⟨0x05, "iconst_2", 0, .pushInt⟩
  | .iconst3 => ⟨0x06, "iconst_3", 0, .pushInt⟩
  | .iconst4 => ⟨0x07, "iconst_4", 0, .pushInt⟩
  | .iconst5 => ⟨0x08, "iconst_5", 0, .pushInt⟩
  | .fconst0 => ⟨0x0B, "fconst_0", 0, .pushFloat⟩
  | .fconst1 => ⟨0x0C, "fconst_1", 0, .pushFloat⟩
  | .fconst2 => ⟨0x0D, "fconst_2", 0, .pushFloat⟩
  | .bipush => ⟨0x10, "bipush", 1, .pushInt⟩
  | .sipush => ⟨0x11, "sipush", 2, .pushInt⟩
  | .ldc => ⟨0x12, "ldc", 1, .pushConstant⟩
  | .ldcW => ⟨0x13, "ldc_w", 2, .pushConstant⟩
  | .iload => ⟨0x15, "iload", 1, .loadLocal .int⟩
  | .fload => ⟨0x17, "fload", 1, .loadLocal .float⟩
  | .aload => ⟨0x19, "aload", 1, .loadLocal .reference⟩
  | .iload0 => ⟨0x1A, "iload_0", 0, .loadLocal .int⟩
  | .iload1 => ⟨0x1B, "iload_1", 0, .loadLocal .int⟩
  | .iload2 => ⟨0x1C, "iload_2", 0, .loadLocal .int⟩
  | .iload3 => ⟨0x1D, "iload_3", 0, .loadLocal .int⟩
  | .fload0 => ⟨0x22, "fload_0", 0, .loadLocal .float⟩
  | .fload1 => ⟨0x23, "fload_1", 0, .loadLocal .float⟩
  | .fload2 => ⟨0x24, "fload_2", 0, .loadLocal .float⟩
  | .fload3 => ⟨0x25, "fload_3", 0, .loadLocal .float⟩
  | .aload0 => ⟨0x2A, "aload_0", 0, .loadLocal .reference⟩
  | .aload1 => ⟨0x2B, "aload_1", 0, .loadLocal .reference⟩
  | .aload2 => ⟨0x2C, "aload_2", 0, .loadLocal .reference⟩
  | .aload3 => ⟨0x2D, "aload_3", 0, .loadLocal .reference⟩
  | .iaload => ⟨0x2E, "iaload", 0, .arrayLoad .int⟩
  | .faload => ⟨0x30, "faload", 0, .arrayLoad .float⟩
  | .aaload => ⟨0x32, "aaload", 0, .arrayLoad .reference⟩
  | .baload => ⟨0x33, "baload", 0, .arrayLoad .int⟩
  | .istore => ⟨0x36, "istore", 1, .storeLocal .int⟩
  | .fstore => ⟨0x38, "fstore", 1, .storeLocal .float⟩
  | .astore => ⟨0x3A, "astore", 1, .storeLocal .reference⟩
  | .istore0 => ⟨0x3B, "istore_0", 0, .storeLocal .int⟩
  | .istore1 => ⟨0x3C, "istore_1", 0, .storeLocal .int⟩
  | .istore2 => ⟨0x3D, "istore_2", 0, .storeLocal .int⟩
  | .istore3 => ⟨0x3E, "istore_3", 0, .storeLocal .int⟩
  | .fstore0 => ⟨0x43, "fstore_0", 0, .storeLocal .float⟩
  | .fstore1 => ⟨0x44, "fstore_1", 0, .storeLocal .float⟩
  | .fstore2 => ⟨0x45, "fstore_2", 0, .storeLocal .float⟩
  | .fstore3 => ⟨0x46, "fstore_3", 0, .storeLocal .float⟩
  | .astore0 => ⟨0x4B, "astore_0", 0, .storeLocal .reference⟩
  | .astore1 => ⟨0x4C, "astore_1", 0, .storeLocal .reference⟩
  | .astore2 => ⟨0x4D, "astore_2", 0, .storeLocal .reference⟩
  | .astore3 => ⟨0x4E, "astore_3", 0, .storeLocal .reference⟩
  | .iastore => ⟨0x4F, "iastore", 0, .arrayStore .int⟩
  | .fastore => ⟨0x51, "fastore", 0, .arrayStore .float⟩
  | .aastore => ⟨0x53, "aastore", 0, .arrayStore .reference⟩
  | .bastore => ⟨0x54, "bastore", 0, .arrayStore .int⟩
  | .pop => ⟨0x57, "pop", 0, .pop⟩
  | .pop2 => ⟨0x58, "pop2", 0, .pop2⟩
  | .dup => ⟨0x59, "dup", 0, .dup⟩
  | .dupX1 => ⟨0x5A, "dup_x1", 0, .dupX1⟩
  | .dupX2 => ⟨0x5B, "dup_x2", 0, .dupX2⟩
  | .dup2 => ⟨0x5C, "dup2", 0, .dup2⟩
  | .swap => ⟨0x5F, "swap", 0, .swap⟩
  | .iadd => ⟨0x60, "iadd", 0, .intBinary⟩
  | .fadd => ⟨0x62, "fadd", 0, .floatBinary⟩
  | .isub => ⟨0x64, "isub", 0, .intBinary⟩
  | .fsub => ⟨0x66, "fsub", 0, .floatBinary⟩
  | .imul => ⟨0x68, "imul", 0, .intBinary⟩
  | .fmul => ⟨0x6A, "fmul", 0, .floatBinary⟩
  | .idiv => ⟨0x6C, "idiv", 0, .intBinary⟩
  | .fdiv => ⟨0x6E, "fdiv", 0, .floatBinary⟩
  | .irem => ⟨0x70, "irem", 0, .intBinary⟩
  | .frem => ⟨0x72, "frem", 0, .floatBinary⟩
  | .ineg => ⟨0x74, "ineg", 0, .intUnary⟩
  | .fneg => ⟨0x76, "fneg", 0, .floatUnary⟩
  | .ishl => ⟨0x78, "ishl", 0, .intBinary⟩
  | .ishr => ⟨0x7A, "ishr", 0, .intBinary⟩
  | .iushr => ⟨0x7C, "iushr", 0, .intBinary⟩
  | .iand => ⟨0x7E, "iand", 0, .intBinary⟩
  | .ior => ⟨0x80, "ior", 0, .intBinary⟩
  | .ixor => ⟨0x82, "ixor", 0, .intBinary⟩
  | .iinc => ⟨0x84, "iinc", 2, .incrementLocal⟩
  | .i2f => ⟨0x86, "i2f", 0, .intToFloat⟩
  | .f2i => ⟨0x8B, "f2i", 0, .floatToInt⟩
  | .fcmpl => ⟨0x95, "fcmpl", 0, .floatCompare⟩
  | .fcmpg => ⟨0x96, "fcmpg", 0, .floatCompare⟩
  | .ifeq => ⟨0x99, "ifeq", 2, .ifZero⟩
  | .ifne => ⟨0x9A, "ifne", 2, .ifZero⟩
  | .iflt => ⟨0x9B, "iflt", 2, .ifZero⟩
  | .ifge => ⟨0x9C, "ifge", 2, .ifZero⟩
  | .ifgt => ⟨0x9D, "ifgt", 2, .ifZero⟩
  | .ifle => ⟨0x9E, "ifle", 2, .ifZero⟩
  | .ifIcmpeq => ⟨0x9F, "if_icmpeq", 2, .ifCompare⟩
  | .ifIcmpne => ⟨0xA0, "if_icmpne", 2, .ifCompare⟩
  | .ifIcmplt => ⟨0xA1, "if_icmplt", 2, .ifCompare⟩
  | .ifIcmpge => ⟨0xA2, "if_icmpge", 2, .ifCompare⟩
  | .ifIcmpgt => ⟨0xA3, "if_icmpgt", 2, .ifCompare⟩
  | .ifIcmple => ⟨0xA4, "if_icmple", 2, .ifCompare⟩
  | .ifAcmpeq => ⟨0xA5, "if_acmpeq", 2, .ifCompare⟩
  | .ifAcmpne => ⟨0xA6, "if_acmpne", 2, .ifCompare⟩
  | .goto => ⟨0xA7, "goto", 2, .goto⟩
  | .ireturn => ⟨0xAC, "ireturn", 0, .exitWith .int⟩
  | .freturn => ⟨0xAE, "freturn", 0, .exitWith .float⟩
  | .areturn => ⟨0xB0, "areturn", 0, .exitWith .reference⟩
  | .returnVoid => ⟨0xB1, "return", 0, .exit⟩
  | .getstatic => ⟨0xB2, "getstatic", 2, .getStatic⟩
  | .putstatic => ⟨0xB3, "putstatic", 2, .putStatic⟩
  | .getfield => ⟨0xB4, "getfield", 2, .getField⟩
  | .putfield => ⟨0xB5, "putfield", 2, .putField⟩
  | .invokevirtual => ⟨0xB6, "invokevirtual", 2, .invoke⟩
  | .invokespecial => ⟨0xB7, "invokespecial", 2, .invokeSpecial⟩
  | .invokestatic => ⟨0xB8, "invokestatic", 2, .invokeStatic⟩
  | .invokeinterface => ⟨0xB9, "invokeinterface", 4, .invoke⟩
  | .newObject => ⟨0xBB, "new", 2, .newObject⟩
  | .newarray => ⟨0xBC, "newarray", 1, .newPrimitiveArray⟩
  | .anewarray => ⟨0xBD, "anewarray", 2, .newReferenceArray⟩
  | .arraylength => ⟨0xBE, "arraylength", 0, .arrayLength⟩
  | .checkcast => ⟨0xC0, "checkcast", 2, .checkCast⟩
  | .instanceof => ⟨0xC1, "instanceof", 2, .instanceOf⟩
  | .multianewarray => ⟨0xC5, "multianewarray", 3, .newMultiArray⟩
  | .ifnull => ⟨0xC6, "ifnull", 2, .ifNull⟩
  | .ifnonnull => ⟨0xC7, "ifnonnull", 2, .ifNull⟩

/-- All opcodes, in the order of their bytes. -/
def all : List Opcode :=
  [.nop, .aconstNull, .iconstM1, .iconst0, .iconst1, .iconst2, .iconst3, .iconst4, .iconst5,
    .fconst0, .fconst1, .fconst2, .bipush, .sipush, .ldc, .ldcW, .iload, .fload, .aload, .iload0,
    .iload1, .iload2, .iload3, .fload0, .fload1, .fload2, .fload3, .aload0, .aload1, .aload2,
    .aload3, .iaload, .faload, .aaload, .baload, .istore, .fstore, .astore, .istore0, .istore1,
    .istore2, .istore3, .fstore0, .fstore1, .fstore2, .fstore3, .astore0, .astore1, .astore2,
    .astore3, .iastore, .fastore, .aastore, .bastore, .pop, .pop2, .dup, .dupX1, .dupX2, .dup2,
    .swap, .iadd, .fadd, .isub, .fsub, .imul, .fmul, .idiv, .fdiv, .irem, .frem, .ineg, .fneg,
    .ishl, .ishr, .iushr, .iand, .ior, .ixor, .iinc, .i2f, .f2i, .fcmpl, .fcmpg, .ifeq, .ifne,
    .iflt, .ifge, .ifgt, .ifle, .ifIcmpeq, .ifIcmpne, .ifIcmplt, .ifIcmpge, .ifIcmpgt, .ifIcmple,
    .ifAcmpeq, .ifAcmpne, .goto, .ireturn, .freturn, .areturn, .returnVoid, .getstatic,
    .putstatic, .getfield, .putfield, .invokevirtual, .invokespecial, .invokestatic,
    .invokeinterface, .newObject, .newarray, .anewarray, .arraylength, .checkcast, .instanceof,
    .multianewarray, .ifnull, .ifnonnull]

/-- The byte of an opcode. -/
def code (op : Opcode) : UInt8 := op.info.code

/-- The name of an opcode. -/
def mnemonic (op : Opcode) : String := op.info.mnemonic

/-- The number of operand bytes, without the `wide` byte before the opcode. -/
def operandBytes (op : Opcode) : Nat := op.info.operandBytes

/-- The effect of an opcode. -/
def effect (op : Opcode) : Effect := op.info.effect

/-- The size of the instruction in bytes, without the `wide` byte. -/
def size (op : Opcode) : Nat := 1 + op.operandBytes

/-- The opcode with the given byte. -/
def ofCode? (code : UInt8) : Option Opcode := all.find? fun op => op.code = code

/-- The opcode with the given name. -/
def ofMnemonic? (name : String) : Option Opcode := all.find? fun op => op.mnemonic = name

/-- The byte that widens the operands of the instruction after it. -/
def wide : UInt8 := 0xC4

/-- The slot that is part of the opcode itself. -/
def implicitSlot : Opcode → Option UInt16
  | .iload0 | .fload0 | .aload0 | .istore0 | .fstore0 | .astore0 => some 0
  | .iload1 | .fload1 | .aload1 | .istore1 | .fstore1 | .astore1 => some 1
  | .iload2 | .fload2 | .aload2 | .istore2 | .fstore2 | .astore2 => some 2
  | .iload3 | .fload3 | .aload3 | .istore3 | .fstore3 | .astore3 => some 3
  | _ => none

/-- Is a slot written as an operand, so that it can be widened? -/
def hasSlotOperand : Opcode → Bool
  | .iload | .fload | .aload | .istore | .fstore | .astore | .iinc => true
  | _ => false

/-- The branch that is taken exactly when this one is not. -/
def negate : Opcode → Option Opcode
  | .ifeq => some .ifne
  | .ifne => some .ifeq
  | .iflt => some .ifge
  | .ifge => some .iflt
  | .ifgt => some .ifle
  | .ifle => some .ifgt
  | .ifIcmpeq => some .ifIcmpne
  | .ifIcmpne => some .ifIcmpeq
  | .ifIcmplt => some .ifIcmpge
  | .ifIcmpge => some .ifIcmplt
  | .ifIcmpgt => some .ifIcmple
  | .ifIcmple => some .ifIcmpgt
  | .ifAcmpeq => some .ifAcmpne
  | .ifAcmpne => some .ifAcmpeq
  | .ifnull => some .ifnonnull
  | .ifnonnull => some .ifnull
  | _ => none

end Opcode

instance : ToForm ValueKind where
  form
    | .int => .word "Int"
    | .float => .word "Float"
    | .reference => .word "Reference"

instance : ToForm Effect where
  form
    | .nop => .word "Nop"
    | .pushInt => .word "PushInt"
    | .pushFloat => .word "PushFloat"
    | .pushNull => .word "PushNull"
    | .pushConstant => .word "PushConstant"
    | .loadLocal kind => .apply "LoadLocal" [form kind]
    | .storeLocal kind => .apply "StoreLocal" [form kind]
    | .pop => .word "Pop"
    | .pop2 => .word "Pop2"
    | .dup => .word "Dup"
    | .dupX1 => .word "DupX1"
    | .dupX2 => .word "DupX2"
    | .dup2 => .word "Dup2"
    | .swap => .word "Swap"
    | .intBinary => .word "IntBinary"
    | .floatBinary => .word "FloatBinary"
    | .intUnary => .word "IntUnary"
    | .floatUnary => .word "FloatUnary"
    | .intToFloat => .word "IntToFloat"
    | .floatToInt => .word "FloatToInt"
    | .floatCompare => .word "FloatCompare"
    | .incrementLocal => .word "IncrementLocal"
    | .arrayLoad kind => .apply "ArrayLoad" [form kind]
    | .arrayStore kind => .apply "ArrayStore" [form kind]
    | .arrayLength => .word "ArrayLength"
    | .newObject => .word "NewObject"
    | .newPrimitiveArray => .word "NewPrimitiveArray"
    | .newReferenceArray => .word "NewReferenceArray"
    | .newMultiArray => .word "NewMultiArray"
    | .getStatic => .word "GetStatic"
    | .putStatic => .word "PutStatic"
    | .getField => .word "GetField"
    | .putField => .word "PutField"
    | .invoke => .word "Invoke"
    | .invokeSpecial => .word "InvokeSpecial"
    | .invokeStatic => .word "InvokeStatic"
    | .checkCast => .word "CheckCast"
    | .instanceOf => .word "InstanceOf"
    | .ifZero => .word "IfZero"
    | .ifCompare => .word "IfCompare"
    | .ifNull => .word "IfNull"
    | .goto => .word "Goto"
    | .exit => .word "Return"
    | .exitWith kind => .apply "ReturnValue" [form kind]

end ClassForge
