/-
# Bytes: big-endian words and length-prefixed lists

Specification, section 6: the binary container, whose numbers and lists these are.

A class file is a sequence of bytes.  Every number in it is written with its
high byte first, and every list is preceded by its length as a 16-bit word:

| item | bytes |
| --- | --- |
| 16-bit word | high byte, low byte |
| 32-bit word | high 16-bit word, low 16-bit word |
| 64-bit word | high 32-bit word, low 32-bit word |
| list of items | 16-bit length, then the items |

A length that does not fit in 16 bits is written modulo `2 ^ 16`.
-/

namespace ClassForge

/-- A sequence of bytes, first byte first. -/
abbrev Bytes := List UInt8

namespace Bytes

/-- A 16-bit word, high byte first. -/
def u16 (n : UInt16) : Bytes := [UInt8.ofNat (n.toNat / 256), UInt8.ofNat n.toNat]

/-- A 32-bit word, high byte first. -/
def u32 (n : UInt32) : Bytes :=
  u16 (UInt16.ofNat (n.toNat / 65536)) ++ u16 (UInt16.ofNat n.toNat)

/-- A 64-bit word, high byte first. -/
def u64 (n : UInt64) : Bytes :=
  u32 (UInt32.ofNat (n.toNat / 4294967296)) ++ u32 (UInt32.ofNat n.toNat)

/-- The byte of a number in two's complement, its bits above the eighth
dropped. -/
def ofInt8 (n : Int) : UInt8 := UInt8.ofNat (n % 256).toNat

/-- A number in two's complement as a 16-bit word, its higher bits dropped. -/
def i16 (n : Int) : Bytes := u16 (UInt16.ofNat (n % 65536).toNat)

/-- A 32-bit number in two's complement. -/
def i32 (n : Int32) : Bytes := u32 n.toUInt32

/-- A 64-bit number in two's complement. -/
def i64 (n : Int64) : Bytes := u64 n.toUInt64

/-- A list: its length as a 16-bit word, then its items in order. -/
def list {α : Type} (item : α → Bytes) (xs : List α) : Bytes :=
  u16 (UInt16.ofNat xs.length) ++ xs.flatMap item

@[simp] theorem length_u16 (n : UInt16) : (u16 n).length = 2 := rfl

@[simp] theorem length_u32 (n : UInt32) : (u32 n).length = 4 := rfl

/-- Two upper-case hexadecimal digits of a byte. -/
def hex (b : UInt8) : String :=
  let digit (n : Nat) : Char := (Nat.digitChar n).toUpper
  String.ofList [digit (b.toNat / 16), digit (b.toNat % 16)]

end Bytes
end ClassForge
