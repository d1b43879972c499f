/-
# Reading bytes

Specification, section 10.6: the reader of class files.

A `Reader` takes what it needs from the front of a byte sequence and hands on
the rest, or stops with a `ReadError`.  Readers compose in sequence, so the
reader of a structure lists the readers of its parts in the order in which they
are written.
-/

import ClassForge.Bytes

namespace ClassForge

/-- The kind under which a failure of input or output is reported. -/
inductive FailureKind where
  /-- The input ends too early. -/
  | unexpectedEof
  /-- The input breaks the rules of its format. -/
  | invalidData
  /-- What was asked for cannot be done. -/
  | invalidInput
deriving DecidableEq, Repr

/-- The name of a kind of failures. -/
def FailureKind.text : FailureKind → String
  | .unexpectedEof => "UnexpectedEof"
  | .invalidData => "InvalidData"
  | .invalidInput => "InvalidInput"

/-- Why a byte sequence is not the written form of a structure. -/
inductive ReadError where
  /-- The bytes end inside an item. -/
  | endOfInput
  /-- A class file starts with these bytes instead of its magic number. -/
  | badMagic (found : Bytes)
  /-- No kind of constant has this tag. -/
  | constantTag (tag : UInt8)
  /-- The bytes of a text are not modified UTF-8. -/
  | modifiedUtf8
  /-- The tag of a verification type that takes two slots. -/
  | wideType (tag : UInt8)
  /-- No verification type has this tag. -/
  | typeTag (tag : UInt8)
  /-- No stack map entry has this tag. -/
  | entryTag (tag : UInt8)
  /-- Bytes are left over after an attribute. -/
  | trailingBytes (count : Nat) (owner : String)
deriving DecidableEq, Repr

/-- The wording of a read error. -/
def ReadError.message : ReadError → String
  | .endOfInput => "failed to fill whole buffer"
  | .badMagic found => "Bad magic number [" ++ ", ".intercalate (found.map Bytes.hex) ++ "]"
  | .constantTag tag => s!"Unknown constant pool tag {tag.toNat}"
  | .modifiedUtf8 => "Invalid modified UTF-8"
  | .wideType tag => s!"64-bit verification type (tag {tag.toNat}) is not supported"
  | .typeTag tag => s!"Unknown verification type tag {tag.toNat}"
  | .entryTag tag => s!"Reserved stack map frame tag {tag.toNat}"
  | .trailingBytes count owner => s!"{count} trailing bytes in {owner} attribute"

/-- The kind of a read error. -/
def ReadError.kind : ReadError → FailureKind
  | .endOfInput => .unexpectedEof
  | .badMagic _ | .constantTag _ | .modifiedUtf8 | .wideType _ | .typeTag _ | .entryTag _
  | .trailingBytes _ _ => .invalidData

theorem ReadError.kind_eq (e : ReadError) : e.kind = .unexpectedEof ∨ e.kind = .invalidData := by
  cases e with
  | endOfInput => exact .inl rfl
  | _ => exact .inr rfl

/-- A step that reads a value from the front of the bytes. -/
abbrev Reader := StateT Bytes (Except ReadError)

namespace Reader

/-- One byte. -/
def u8 : Reader UInt8
  | [] => .error .endOfInput
  | b :: rest => .ok (b, rest)

/-- A 16-bit word, high byte first. -/
def u16 : Reader UInt16
  | hi :: lo :: rest => .ok (UInt16.ofNat (hi.toNat * 256 + lo.toNat), rest)
  | _ => .error .endOfInput

/-- A 32-bit word, high byte first. -/
def u32 : Reader UInt32 := do
  let hi ← u16
  let lo ← u16
  return UInt32.ofNat (hi.toNat * 65536 + lo.toNat)

/-- A 64-bit word, high byte first. -/
def u64 : Reader UInt64 := do
  let hi ← u32
  let lo ← u32
  return UInt64.ofNat (hi.toNat * 4294967296 + lo.toNat)

/-- A 16-bit number in two's complement. -/
def i16 : Reader Int16 := return (← u16).toInt16

/-- A 32-bit number in two's complement. -/
def i32 : Reader Int32 := return (← u32).toInt32

/-- A 64-bit number in two's complement. -/
def i64 : Reader Int64 := return (← u64).toInt64

/-- Exactly `n` bytes. -/
def take (n : Nat) : Reader Bytes := fun bytes =>
  let taken := bytes.take n
  if taken.length = n then .ok (taken, bytes.drop n) else .error .endOfInput

/-- `n` items in sequence, put behind those already read (last first). -/
def countFrom {α : Type} (item : Reader α) : Nat → List α → Reader (List α)
  | 0, done, bytes => .ok (done.reverse, bytes)
  | n + 1, done, bytes =>
    match item bytes with
    | .ok (a, rest) => countFrom item n (a :: done) rest
    | .error e => .error e

/-- `n` items in sequence. -/
def count {α : Type} (n : Nat) (item : Reader α) : Reader (List α) := countFrom item n []

/-- A list: its length as a 16-bit word, then its items. -/
def list {α : Type} (item : Reader α) : Reader (List α) := do
  count (← u16).toNat item

end Reader
end ClassForge
