/-
# Stack map entries

Specification, section 4.5: the five encodings of a frame.

A method with branches carries, for every branch target, the frame that holds
there.  A frame is stored with constant indices for classes and byte offsets for
new objects, and as what it changes of the frame before it:

| tag | entry | bytes after the tag |
| ---: | --- | --- |
| 0 … 63 | same locals, empty stack | |
| 64 … 127 | same locals, one value | its type |
| 247 | same locals, one value | distance, its type |
| 248 … 250 | 3, 2 or 1 locals fewer, empty stack | distance |
| 251 | same locals, empty stack | distance |
| 252 … 254 | 1, 2 or 3 locals more, empty stack | distance, their types |
| 255 | all locals and the whole stack | distance, both lists |

The short forms hold a distance below 64 in their tag.
-/

import ClassForge.Bytes.Reader
import ClassForge.Constant
import ClassForge.Frame

namespace ClassForge

/-- A stored type: classes by the index of their constant, new objects by the
offset of the instruction that made them. -/
abbrev StoredType := VerificationType UInt16 UInt16

namespace StoredType

/-- The bytes of a stored type: its tag, then what it names. -/
def write : StoredType → Bytes
  | .top => [0]
  | .integer => [1]
  | .float => [2]
  | .null => [5]
  | .uninitializedThis => [6]
  | .object index => 7 :: Bytes.u16 index
  | .uninitialized offset => 8 :: Bytes.u16 offset

/-- A stored type. -/
def read : Reader StoredType := do
  match ← Reader.u8 with
  | 0 => return .top
  | 1 => return .integer
  | 2 => return .float
  | 5 => return .null
  | 6 => return .uninitializedThis
  | 7 => return .object (← Reader.u16)
  | 8 => return .uninitialized (← Reader.u16)
  | tag => if tag = 3 ∨ tag = 4 then throw (.wideType tag) else throw (.typeTag tag)

end StoredType

instance : ToForm StoredType := ⟨VerificationType.shape Constant.classIndex form⟩

/-- A stored frame.  As in the file, the stack is listed from its bottom up. -/
structure StoredFrame where
  locals : List StoredType
  stack : List StoredType
deriving DecidableEq

namespace StackMap

/-- A frame, as what it changes of the one before it.  `delta` is the distance
in bytes between the two, less one. -/
inductive Entry where
  /-- The same locals and an empty stack. -/
  | same (delta : UInt16)
  /-- The same locals and one value on the stack. -/
  | sameOne (delta : UInt16) (stack : StoredType)
  /-- So many locals fewer and an empty stack. -/
  | chop (delta : UInt16) (count : UInt8)
  /-- Some locals more and an empty stack. -/
  | append (delta : UInt16) (locals : List StoredType)
  /-- Exactly these locals and this stack. -/
  | full (delta : UInt16) (locals stack : List StoredType)
deriving DecidableEq

/-- The entries of a method, in the order of their offsets. -/
abbrev Table := List Entry

/-- Why an entry has no written form. -/
inductive WriteError where
  | chop (count : UInt8)
  | append (count : Nat)
deriving DecidableEq, Repr

/-- The wording of a write error. -/
def WriteError.message : WriteError → String
  | .chop count => s!"Chop frame cannot drop {count.toNat} locals"
  | .append count => s!"Append frame cannot add {count} locals"

namespace Entry

/-- The distance of an entry. -/
def delta : Entry → UInt16
  | .same delta | .sameOne delta _ | .chop delta _ | .append delta _ | .full delta _ _ => delta

/-- The bytes of an entry. -/
def write : Entry → Except WriteError Bytes
  | .same delta =>
    .ok (if delta.toNat < 64 then [UInt8.ofNat delta.toNat] else 251 :: Bytes.u16 delta)
  | .sameOne delta stack =>
    .ok ((if delta.toNat < 64 then [UInt8.ofNat (64 + delta.toNat)]
      else 247 :: Bytes.u16 delta) ++ stack.write)
  | .chop delta count =>
    if 1 ≤ count.toNat ∧ count.toNat ≤ 3 then
      .ok (UInt8.ofNat (251 - count.toNat) :: Bytes.u16 delta)
    else .error (.chop count)
  | .append delta locals =>
    if 1 ≤ locals.length ∧ locals.length ≤ 3 then
      .ok (UInt8.ofNat (251 + locals.length) :: Bytes.u16 delta ++ locals.flatMap StoredType.write)
    else .error (.append locals.length)
  | .full delta locals stack =>
    .ok (255 :: Bytes.u16 delta ++ Bytes.list StoredType.write locals ++
      Bytes.list StoredType.write stack)

/-- The parts of an entry, after its tag. -/
def readTagged (tag : UInt8) : Reader Entry := do
  let n := tag.toNat
  if n < 64 then return .same (UInt16.ofNat n)
  else if n < 128 then return .sameOne (UInt16.ofNat (n - 64)) (← StoredType.read)
  else if n < 247 then throw (.entryTag tag)
  else if n = 247 then
    let delta ← Reader.u16
    return .sameOne delta (← StoredType.read)
  else if n < 251 then return .chop (← Reader.u16) (UInt8.ofNat (251 - n))
  else if n = 251 then return .same (← Reader.u16)
  else if n < 255 then
    let delta ← Reader.u16
    return .append delta (← Reader.count (n - 251) StoredType.read)
  else
    let delta ← Reader.u16
    let locals ← Reader.list StoredType.read
    return .full delta locals (← Reader.list StoredType.read)

/-- An entry. -/
def read : Reader Entry := do readTagged (← Reader.u8)

end Entry

namespace Table

/-- The bytes of a table: the number of entries, then the entries. -/
def write (t : Table) : Except WriteError Bytes := do
  let entries ← t.mapM Entry.write
  return Bytes.u16 (UInt16.ofNat t.length) ++ entries.flatten

/-- A table. -/
def read : Reader Table := Reader.list Entry.read

end Table
end StackMap

instance : ToForm StackMap.Entry where
  form
    | .same delta => .record "SameLocalsNoStack" [.field "offset_delta" (form delta)]
    | .sameOne delta stack => .record "SameLocalsOneStack"
        [.field "offset_delta" (form delta), .field "stack" (form stack)]
    | .chop delta count => .record "ChopLocalsNoStack"
        [.field "offset_delta" (form delta), .field "chopped_k" (form count)]
    | .append delta locals => .record "AppendLocalsNoStack"
        [.field "offset_delta" (form delta), .field "locals" (form locals)]
    | .full delta locals stack => .record "Full"
        [.field "offset_delta" (form delta), .field "locals" (form locals),
          .field "stack" (form stack)]

end ClassForge
