/-
# Constants

Specification, section 6: the constant pool of the container.

The entries of a constant pool, each written as a tag byte and its parts.
Entries refer to each other by index.

| tag | constant | parts |
| ---: | --- | --- |
| 1 | text | length in bytes, modified UTF-8 |
| 3, 4 | integer, float | 32 bits |
| 5, 6 | long, double | 64 bits |
| 7 | class | name |
| 8 | string | text |
| 9 | field | class, name and type |
| 10, 11 | method of a class, of an interface | class, name and type |
| 12 | name and type | name, descriptor |
| 15 | method handle | kind, member |
| 16 | method type | descriptor |
| 18 | dynamic call | bootstrap method, name and type |

A long or a double takes two indices, every other constant one.
-/

import ClassForge.Bytes.Reader
import ClassForge.Text.Form
import ClassForge.Text.ModifiedUtf8

namespace ClassForge

/-- An entry of a constant pool. -/
inductive Constant where
  | classRef (name : UInt16)
  | fieldRef (owner nameAndType : UInt16)
  | methodRef (owner nameAndType : UInt16) (isInterface : Bool)
  | string (text : UInt16)
  | integer (value : Int32)
  | float (value : Binary32)
  | long (value : Int64)
  | double (value : Binary64)
  | nameAndType (name descriptor : UInt16)
  | utf8 (text : String)
  | methodHandle (kind : UInt8) (target : UInt16)
  | methodType (descriptor : UInt16)
  | invokeDynamic (bootstrap nameAndType : UInt16)
deriving DecidableEq, Hashable

namespace Constant

/-- The number of indices that a constant takes. -/
def width : Constant → Nat
  | .long _ | .double _ => 2
  | _ => 1

theorem width_pos (c : Constant) : 0 < c.width := by cases c <;> simp [width]

/-- The bytes of a constant. -/
def write : Constant → Bytes
  | .utf8 text =>
    let bytes := ModifiedUtf8.encode text
    1 :: Bytes.u16 (UInt16.ofNat bytes.length) ++ bytes
  | .integer value => 3 :: Bytes.i32 value
  | .float value => 4 :: Bytes.u32 value.bits
  | .long value => 5 :: Bytes.i64 value
  | .double value => 6 :: Bytes.u64 value.bits
  | .classRef name => 7 :: Bytes.u16 name
  | .string text => 8 :: Bytes.u16 text
  | .fieldRef owner nt => 9 :: Bytes.u16 owner ++ Bytes.u16 nt
  | .methodRef owner nt isInterface =>
    (if isInterface then 11 else 10) :: Bytes.u16 owner ++ Bytes.u16 nt
  | .nameAndType name descriptor => 12 :: Bytes.u16 name ++ Bytes.u16 descriptor
  | .methodHandle kind target => 15 :: kind :: Bytes.u16 target
  | .methodType descriptor => 16 :: Bytes.u16 descriptor
  | .invokeDynamic bootstrap nt => 18 :: Bytes.u16 bootstrap ++ Bytes.u16 nt

/-- The parts of a constant, after its tag. -/
def readTagged (tag : UInt8) : Reader Constant :=
  match tag with
  | 1 => do
    let bytes ← Reader.take (← Reader.u16).toNat
    match ModifiedUtf8.decode bytes with
    | some text => return .utf8 text
    | none => throw .modifiedUtf8
  | 3 => return .integer (← Reader.i32)
  | 4 => return .float ⟨← Reader.u32⟩
  | 5 => return .long (← Reader.i64)
  | 6 => return .double ⟨← Reader.u64⟩
  | 7 => return .classRef (← Reader.u16)
  | 8 => return .string (← Reader.u16)
  | 9 => do
    let owner ← Reader.u16
    return .fieldRef owner (← Reader.u16)
  | 10 => do
    let owner ← Reader.u16
    return .methodRef owner (← Reader.u16) false
  | 11 => do
    let owner ← Reader.u16
    return .methodRef owner (← Reader.u16) true
  | 12 => do
    let name ← Reader.u16
    return .nameAndType name (← Reader.u16)
  | 15 => do
    let kind ← Reader.u8
    return .methodHandle kind (← Reader.u16)
  | 16 => return .methodType (← Reader.u16)
  | 18 => do
    let bootstrap ← Reader.u16
    return .invokeDynamic bootstrap (← Reader.u16)
  | tag => throw (.constantTag tag)

/-- A constant. -/
def read : Reader Constant := do readTagged (← Reader.u8)

/-- Do two constants stand for the same thing?  Numbers are compared as
numbers, so a NaN is not the same as itself. -/
def same : Constant → Constant → Bool
  | .float a, .float b => a.number.eq b.number
  | .double a, .double b => a.number.eq b.number
  | a, b => a = b

/-- The shape of an index that refers to a constant of some kind. -/
def reference (kind : String) (index : UInt16) : Form :=
  .apply kind [.apply "ConstantIndex" [form index]]

/-- The shape of an index that refers to a class. -/
def classIndex (index : UInt16) : Form := reference "ClassConstantIndex" index

/-- The shape of an index that refers to a text. -/
def utf8Index (index : UInt16) : Form := reference "Utf8ConstantIndex" index

/-- The shape of an index that refers to a name and type. -/
def nameAndTypeIndex (index : UInt16) : Form := reference "NameAndTypeConstantIndex" index

end Constant

instance : ToForm Constant where
  form
    | .classRef name => .apply "Class" [Constant.utf8Index name]
    | .fieldRef owner nt =>
      .apply "FieldRef" [Constant.classIndex owner, Constant.nameAndTypeIndex nt]
    | .methodRef owner nt isInterface => .record "MethodRef"
        [.field "class" (Constant.classIndex owner),
          .field "name_and_type" (Constant.nameAndTypeIndex nt),
          .field "is_interface" (form isInterface)]
    | .string text => .apply "String" [Constant.utf8Index text]
    | .integer value => .apply "Integer" [form value]
    | .float value => .apply "Float" [form value]
    | .long value => .apply "Long" [form value]
    | .double value => .apply "Double" [form value]
    | .nameAndType name descriptor => .record "NameAndType"
        [.field "name" (Constant.utf8Index name),
          .field "descriptor" (Constant.utf8Index descriptor)]
    | .utf8 text => .apply "Utf8" [form text]
    | .methodHandle kind target => .record "MethodHandle"
        [.field "kind" (form kind), .field "member" (.apply "ConstantIndex" [form target])]
    | .methodType descriptor =>
      .record "MethodType" [.field "descriptor" (Constant.utf8Index descriptor)]
    | .invokeDynamic bootstrap nt => .record "InvokeDynamic"
        [.field "bootstrap_method" (form bootstrap),
          .field "name_and_type" (Constant.nameAndTypeIndex nt)]

end ClassForge
