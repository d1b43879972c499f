/-
# IEEE 754 numbers by their bits

A floating point constant is kept as its bit pattern: a sign bit, an exponent
field and a fraction field.

| format | sign | exponent | fraction |
| --- | ---: | ---: | ---: |
| `binary32` | 1 | 8 | 23 |
| `binary64` | 1 | 11 | 52 |

Two patterns with the same value can differ (`0.0` and `-0.0`, the many NaNs),
so equality of patterns and equality of numbers are told apart.
-/

namespace ClassForge

/-- A 32-bit floating point number, given by its bits. -/
structure Binary32 where
  bits : UInt32
deriving DecidableEq, Hashable, Repr

/-- A 64-bit floating point number, given by its bits. -/
structure Binary64 where
  bits : UInt64
deriving DecidableEq, Hashable, Repr

namespace Ieee

/-- The widths of the fields of an interchange format. -/
structure Format where
  exponentBits : Nat
  fractionBits : Nat
deriving DecidableEq, Repr

/-- The 32-bit format. -/
def binary32 : Format := ⟨8, 23⟩

/-- The 64-bit format. -/
def binary64 : Format := ⟨11, 52⟩

/-- The exponent of the last place of the smallest numbers of a format. -/
def Format.leastExponent (f : Format) : Int :=
  2 - Nat.pow 2 (f.exponentBits - 1) - f.fractionBits

/-- What a bit pattern stands for: a finite number is
`± mantissa · 2 ^ exponent`. -/
inductive Number where
  | nan
  | infinite (negative : Bool)
  | finite (negative : Bool) (mantissa : Nat) (exponent : Int)
deriving DecidableEq, Repr

/-- The number that a bit pattern stands for. -/
def Format.number (f : Format) (bits : Nat) : Number :=
  let fraction := bits % Nat.pow 2 f.fractionBits
  let exponent := bits / Nat.pow 2 f.fractionBits % Nat.pow 2 f.exponentBits
  let negative := bits / Nat.pow 2 (f.fractionBits + f.exponentBits) % 2 = 1
  if exponent = Nat.pow 2 f.exponentBits - 1 then
    if fraction = 0 then .infinite negative else .nan
  else if exponent = 0 then .finite negative fraction f.leastExponent
  else
    .finite negative (Nat.pow 2 f.fractionBits + fraction) (f.leastExponent + (exponent - 1 : Nat))

/-- Equality of numbers: a NaN equals nothing, and the two zeros are equal. -/
def Number.eq : Number → Number → Bool
  | .infinite s, .infinite t => s == t
  | .finite s m e, .finite t n d => (m == 0 && n == 0) || (s == t && m == n && e == d)
  | _, _ => false

end Ieee

/-- The number of a 32-bit pattern. -/
def Binary32.number (x : Binary32) : Ieee.Number := Ieee.binary32.number x.bits.toNat

/-- The number of a 64-bit pattern. -/
def Binary64.number (x : Binary64) : Ieee.Number := Ieee.binary64.number x.bits.toNat

end ClassForge
