/-
# Modified UTF-8

Specification, section 6: the texts of the constant pool.

The bytes of a text in a class file.  The text is cut into 16-bit units, a
character beyond `U+FFFF` into two surrogates, and each unit is written by its
size:

| unit | bytes |
| --- | --- |
| `1` … `0x7F` | `0xxxxxxx` |
| `0`, `0x80` … `0x7FF` | `110xxxxx 10xxxxxx` |
| `0x800` … `0xFFFF` | `1110xxxx 10xxxxxx 10xxxxxx` |

So no byte of a text is zero, and none has the form `1111xxxx`.  Decoding takes
any of the three forms for a unit and refuses surrogates without a partner.
-/

import ClassForge.Bytes

namespace ClassForge
namespace ModifiedUtf8

/-- The 16-bit units of a character: itself, or a high and a low surrogate. -/
def charUnits (c : Char) : List Nat :=
  if c.toNat < 0x10000 then [c.toNat]
  else [0xD800 + (c.toNat - 0x10000) / 0x400, 0xDC00 + (c.toNat - 0x10000) % 0x400]

/-- The bytes of a 16-bit unit. -/
def unitBytes (u : Nat) : Bytes :=
  if u ≠ 0 ∧ u < 0x80 then [UInt8.ofNat u]
  else if u < 0x800 then [UInt8.ofNat (0xC0 + u / 0x40), UInt8.ofNat (0x80 + u % 0x40)]
  else
    [UInt8.ofNat (0xE0 + u / 0x1000), UInt8.ofNat (0x80 + u / 0x40 % 0x40),
      UInt8.ofNat (0x80 + u % 0x40)]

/-- The bytes of a text. -/
def encode (s : String) : Bytes :=
  (s.toList.flatMap charUnits).flatMap unitBytes

/-- The six bits that a continuation byte `10xxxxxx` carries. -/
def continuation (b : UInt8) : Option Nat :=
  if 0x80 ≤ b.toNat ∧ b.toNat < 0xC0 then some (b.toNat - 0x80) else none

/-- The units written by the bytes, behind those already read (last first). -/
def unitsFrom : List Nat → Bytes → Option (List Nat)
  | done, [] => some done.reverse
  | done, b₁ :: rest =>
    if b₁.toNat < 0x80 then unitsFrom (b₁.toNat :: done) rest
    else if 0xC0 ≤ b₁.toNat ∧ b₁.toNat < 0xE0 then
      match rest with
      | b₂ :: rest =>
        match continuation b₂ with
        | some x₂ => unitsFrom (((b₁.toNat - 0xC0) * 0x40 + x₂) :: done) rest
        | none => none
      | [] => none
    else if 0xE0 ≤ b₁.toNat ∧ b₁.toNat < 0xF0 then
      match rest with
      | b₂ :: b₃ :: rest =>
        match continuation b₂, continuation b₃ with
        | some x₂, some x₃ =>
          unitsFrom (((b₁.toNat - 0xE0) * 0x1000 + x₂ * 0x40 + x₃) :: done) rest
        | _, _ => none
      | _ => none
    else none

/-- The units written by the bytes. -/
def units (bytes : Bytes) : Option (List Nat) := unitsFrom [] bytes

/-- Is the unit the first half of a surrogate pair? -/
def isHigh (u : Nat) : Bool := 0xD800 ≤ u ∧ u < 0xDC00

/-- Is the unit the second half of a surrogate pair? -/
def isLow (u : Nat) : Bool := 0xDC00 ≤ u ∧ u < 0xE000

/-- The characters that the units spell, behind those already read (last
first). -/
def charsFrom : List Char → List Nat → Option (List Char)
  | done, [] => some done.reverse
  | done, u :: rest =>
    if isHigh u then
      match rest with
      | v :: rest =>
        if isLow v then
          charsFrom (Char.ofNat (0x10000 + (u - 0xD800) * 0x400 + (v - 0xDC00)) :: done) rest
        else none
      | [] => none
    else if isLow u then none
    else charsFrom (Char.ofNat u :: done) rest

/-- The text whose bytes these are, if there is one. -/
def decode (bytes : Bytes) : Option String := do
  let us ← units bytes
  let cs ← charsFrom [] us
  return String.ofList cs

end ModifiedUtf8
end ClassForge
