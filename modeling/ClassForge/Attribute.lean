/-
# Attributes

Specification, section 6: the method-body record and its attributes.

Classes, fields, methods and code carry attributes: a name and some bytes.
What the bytes mean depends on the name.

| attribute | bytes |
| --- | --- |
| any | name, 32-bit length, that many bytes |
| `Code` | stack depth, locals, code with a 32-bit length, handlers, attributes |
| handler | start, end, handler, caught class |
| `SourceFile` | index of a text |
| `StackMapTable` | the entries of a stack map |
-/

import ClassForge.Bytes.Reader
import ClassForge.ConstantPool
import ClassForge.StackMap

namespace ClassForge

/-- A name, as the index of a text, and what is stored under it. -/
structure Attribute where
  name : UInt16
  info : Bytes
deriving DecidableEq

/-- The value of a reader on a whole attribute of the given name. -/
def Reader.whole {α : Type} (owner : String) (reader : Reader α) (info : Bytes) :
    Except ReadError α :=
  match reader info with
  | .ok (a, []) => .ok a
  | .ok (_, rest) => .error (.trailingBytes rest.length owner)
  | .error e => .error e

namespace Attribute

/-- The bytes of an attribute. -/
def write (a : Attribute) : Bytes :=
  Bytes.u16 a.name ++ Bytes.u32 (UInt32.ofNat a.info.length) ++ a.info

/-- An attribute. -/
def read : Reader Attribute := do
  let name ← Reader.u16
  let length ← Reader.u32
  return ⟨name, ← Reader.take length.toNat⟩

/-- An attribute with the given name, for which a text is added. -/
def make (name : String) (info : Bytes) : Interning Attribute := do
  return ⟨← ConstantPool.utf8 name, info⟩

end Attribute

/-- A range of code whose exceptions are caught. -/
structure Handler where
  start : UInt16
  stop : UInt16
  target : UInt16
  /-- The class that is caught, by index; zero catches everything. -/
  caught : UInt16
deriving DecidableEq

namespace Handler

/-- The bytes of a handler. -/
def write (h : Handler) : Bytes :=
  Bytes.u16 h.start ++ Bytes.u16 h.stop ++ Bytes.u16 h.target ++ Bytes.u16 h.caught

/-- A handler. -/
def read : Reader Handler := do
  let start ← Reader.u16
  let stop ← Reader.u16
  let target ← Reader.u16
  return ⟨start, stop, target, ← Reader.u16⟩

end Handler

/-- The code of a method as it is stored. -/
structure CodeAttribute where
  maxStack : UInt16
  maxLocals : UInt16
  code : Bytes
  handlers : List Handler
  attributes : List Attribute
deriving DecidableEq

namespace CodeAttribute

/-- The name of code attributes. -/
def label : String := "Code"

/-- The bytes of a code attribute. -/
def write (c : CodeAttribute) : Bytes :=
  Bytes.u16 c.maxStack ++ Bytes.u16 c.maxLocals ++ Bytes.u32 (UInt32.ofNat c.code.length) ++
    c.code ++ Bytes.list Handler.write c.handlers ++ Bytes.list Attribute.write c.attributes

/-- A code attribute. -/
def read : Reader CodeAttribute := do
  let maxStack ← Reader.u16
  let maxLocals ← Reader.u16
  let length ← Reader.u32
  let code ← Reader.take length.toNat
  let handlers ← Reader.list Handler.read
  return ⟨maxStack, maxLocals, code, handlers, ← Reader.list Attribute.read⟩

/-- The code attribute with the given bytes. -/
def ofInfo (info : Bytes) : Except ReadError CodeAttribute := Reader.whole label read info

end CodeAttribute

namespace SourceFile

/-- The name of source file attributes. -/
def label : String := "SourceFile"

/-- The bytes of a source file attribute, given the index of the file's name. -/
def write (index : UInt16) : Bytes := Bytes.u16 index

/-- The index that a source file attribute holds. -/
def ofInfo (info : Bytes) : Except ReadError UInt16 := Reader.whole label Reader.u16 info

end SourceFile

namespace StackMap

/-- The name of stack map attributes. -/
def label : String := "StackMapTable"

/-- The table that a stack map attribute holds. -/
def Table.ofInfo (info : Bytes) : Except ReadError Table := Reader.whole label Table.read info

end StackMap
end ClassForge
