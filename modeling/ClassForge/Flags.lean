/-
# Access flags

Specification, section 6: the access modifiers of classes, methods and fields.

Classes, methods and fields each carry a 16-bit set of flags.  What a bit means
depends on the owner, and a bit that means nothing for its owner is dropped
when flags are read.

| bit | class | method | field |
| ---: | --- | --- | --- |
| `0x0001` | public | public | public |
| `0x0002` | | private | private |
| `0x0004` | | protected | protected |
| `0x0008` | | static | static |
| `0x0010` | final | final | final |
| `0x0020` | super | synchronized | |
| `0x0040` | | | volatile |
| `0x0080` | | | transient |
| `0x0100` | | native | |
| `0x0200` | interface | | |
| `0x0400` | abstract | abstract | |
| `0x1000` | synthetic | synthetic | synthetic |
-/

import ClassForge.Bytes.Reader
import ClassForge.Text.Form

namespace ClassForge

/-- What carries a set of flags. -/
inductive FlagOwner where
  | ofClass
  | ofMethod
  | ofField
deriving DecidableEq, Repr

/-- The flags that an owner knows, with their names, lowest bit first. -/
def FlagOwner.table : FlagOwner → List (String × UInt16)
  | .ofClass => [("PUBLIC", 0x0001), ("FINAL", 0x0010), ("SUPER", 0x0020), ("INTERFACE", 0x0200),
      ("ABSTRACT", 0x0400), ("SYNTHETIC", 0x1000)]
  | .ofMethod => [("PUBLIC", 0x0001), ("PRIVATE", 0x0002), ("PROTECTED", 0x0004),
      ("STATIC", 0x0008), ("FINAL", 0x0010), ("SYNCHRONIZED", 0x0020), ("NATIVE", 0x0100),
      ("ABSTRACT", 0x0400), ("SYNTHETIC", 0x1000)]
  | .ofField => [("PUBLIC", 0x0001), ("PRIVATE", 0x0002), ("PROTECTED", 0x0004),
      ("STATIC", 0x0008), ("FINAL", 0x0010), ("VOLATILE", 0x0040), ("TRANSIENT", 0x0080),
      ("SYNTHETIC", 0x1000)]

/-- All bits that an owner knows. -/
def FlagOwner.mask : FlagOwner → UInt16
  | .ofClass => 0x1631
  | .ofMethod => 0x153F
  | .ofField => 0x10DF

/-- A set of flags, all of them known to the owner. -/
structure Flags (o : FlagOwner) where
  bits : UInt16
  known : bits &&& o.mask = bits
deriving DecidableEq

namespace Flags

variable {o : FlagOwner}

/-- The known flags among the bits. -/
def ofBits (o : FlagOwner) (bits : UInt16) : Flags o :=
  ⟨bits &&& o.mask, by rw [UInt16.and_assoc, UInt16.and_self]⟩

theorem or_and_of_and {a b mask : UInt16} (ha : a &&& mask = a) (hb : b &&& mask = b) :
    (a ||| b) &&& mask = a ||| b := by
  have ha := congrArg UInt16.toBitVec ha
  have hb := congrArg UInt16.toBitVec hb
  rw [UInt16.toBitVec_and] at ha hb
  apply UInt16.toBitVec_inj.1
  rw [UInt16.toBitVec_and, UInt16.toBitVec_or, BitVec.and_or_distrib_right, ha, hb]

/-- The flags of either set. -/
def union (a b : Flags o) : Flags o := ⟨a.bits ||| b.bits, or_and_of_and a.known b.known⟩

/-- Are all flags of `b` among those of `a`? -/
def contains (a b : Flags o) : Bool := a.bits &&& b.bits = b.bits

/-- The names of the flags in the set, lowest bit first. -/
def names (a : Flags o) : List String :=
  (o.table.filter fun flag => a.bits &&& flag.2 ≠ 0).map Prod.fst

/-- A set of flags as a 16-bit word. -/
def write (a : Flags o) : Bytes := Bytes.u16 a.bits

/-- A set of flags from a 16-bit word. -/
def read (o : FlagOwner) : Reader (Flags o) := return ofBits o (← Reader.u16)

@[simp] theorem ofBits_bits (a : Flags o) : ofBits o a.bits = a := by
  cases a with
  | mk bits known => simp [ofBits, known]

end Flags

instance {o : FlagOwner} : ToForm (Flags o) where
  form a := .word (if a.names.isEmpty then "(empty)" else " | ".intercalate a.names)

/-- The flags of a class. -/
abbrev ClassFlags := Flags .ofClass

/-- The flags of a method. -/
abbrev MethodFlags := Flags .ofMethod

/-- The flags of a field. -/
abbrev FieldFlags := Flags .ofField

namespace ClassFlags

/-- The class is visible everywhere. -/
def isPublic : ClassFlags := .ofBits _ 0x0001

/-- Calls through `super` take the nearest superclass. -/
def isSuper : ClassFlags := .ofBits _ 0x0020

end ClassFlags

namespace MethodFlags

/-- The method is visible everywhere. -/
def isPublic : MethodFlags := .ofBits _ 0x0001

/-- The method has no `this`. -/
def isStatic : MethodFlags := .ofBits _ 0x0008

/-- The method has no body. -/
def isAbstract : MethodFlags := .ofBits _ 0x0400

end MethodFlags

namespace FieldFlags

/-- The field is visible in its class only. -/
def isPrivate : FieldFlags := .ofBits _ 0x0002

end FieldFlags

end ClassForge
