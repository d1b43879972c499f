/-
# Class files

Specification, section 6: the binary container, and section 10.6: its serialization
and its reader.

| part | bytes |
| --- | --- |
| magic number | `CA FE BA BE` |
| version | minor, major |
| constants | one more than the last index, then the constants |
| class | flags, this class, superclass, interfaces |
| members | fields, methods |
| attributes | attributes |

A field or method is written as its flags, the indices of its name and its
descriptor, and its attributes.
-/

import ClassForge.Attribute
import ClassForge.Flags
import ClassForge.Malformed

namespace ClassForge

/-- The version of a class file. -/
structure Version where
  minor : UInt16
  major : UInt16
deriving DecidableEq, Repr

namespace Version

/-- The last version that does not ask for stack maps. -/
def java6 : Version := ⟨0, 50⟩

/-- The version that is generated unless another one is asked for. -/
def java8 : Version := ⟨0, 52⟩

/-- Does a method with branches need a stack map? -/
def needsStackMaps (v : Version) : Bool := java6.major < v.major

/-- The bytes of a version. -/
def write (v : Version) : Bytes := Bytes.u16 v.minor ++ Bytes.u16 v.major

/-- A version. -/
def read : Reader Version := do
  let minor ← Reader.u16
  return ⟨minor, ← Reader.u16⟩

end Version

/-- A field or a method of a class file; its name and its descriptor are given
by index. -/
structure MemberInfo (o : FlagOwner) where
  flags : Flags o
  name : UInt16
  descriptor : UInt16
  attributes : List Attribute
deriving DecidableEq

/-- A field of a class file. -/
abbrev FieldInfo := MemberInfo .ofField

/-- A method of a class file. -/
abbrev MethodInfo := MemberInfo .ofMethod

namespace MemberInfo

variable {o : FlagOwner}

/-- The bytes of a member. -/
def write (m : MemberInfo o) : Bytes :=
  m.flags.write ++ Bytes.u16 m.name ++ Bytes.u16 m.descriptor ++
    Bytes.list Attribute.write m.attributes

/-- A member. -/
def read (o : FlagOwner) : Reader (MemberInfo o) := do
  let flags ← Flags.read o
  let name ← Reader.u16
  let descriptor ← Reader.u16
  return ⟨flags, name, descriptor, ← Reader.list Attribute.read⟩

end MemberInfo

/-- A class file. -/
structure ClassFile where
  version : Version
  /-- The constants in order; the first has the index one. -/
  constants : List Constant
  flags : ClassFlags
  thisClass : UInt16
  superClass : UInt16
  interfaces : List UInt16
  fields : List FieldInfo
  methods : List MethodInfo
  attributes : List Attribute
deriving DecidableEq

namespace ClassFile

/-- The bytes with which a class file starts. -/
def magic : Bytes := [0xCA, 0xFE, 0xBA, 0xBE]

/-- The number of indices that constants take. -/
def totalWidth : List Constant → Nat
  | [] => 0
  | c :: cs => c.width + totalWidth cs

/-- The bytes of a class file. -/
def write (c : ClassFile) : Bytes :=
  magic ++ c.version.write ++ Bytes.u16 (UInt16.ofNat (1 + totalWidth c.constants)) ++
    c.constants.flatMap Constant.write ++ c.flags.write ++ Bytes.u16 c.thisClass ++
    Bytes.u16 c.superClass ++ Bytes.list Bytes.u16 c.interfaces ++
    Bytes.list MemberInfo.write c.fields ++ Bytes.list MemberInfo.write c.methods ++
    Bytes.list Attribute.write c.attributes

/-- Constants until they take `remaining` indices, behind those already read
(last first). -/
def readConstants (remaining : Nat) (done : List Constant) : Reader (List Constant) := fun bytes =>
  if remaining = 0 then .ok (done.reverse, bytes)
  else
    match Constant.read bytes with
    | .ok (c, rest) => readConstants (remaining - c.width) (c :: done) rest
    | .error e => .error e
termination_by remaining
decreasing_by
  have := c.width_pos
  omega

/-- A class file. -/
def read : Reader ClassFile := do
  let found ← Reader.take 4
  if found ≠ magic then throw (.badMagic found)
  let version ← Version.read
  let constants ← readConstants ((← Reader.u16).toNat - 1) []
  let flags ← Flags.read .ofClass
  let thisClass ← Reader.u16
  let superClass ← Reader.u16
  let interfaces ← Reader.list Reader.u16
  let fields ← Reader.list (MemberInfo.read .ofField)
  let methods ← Reader.list (MemberInfo.read .ofMethod)
  let attributes ← Reader.list Attribute.read
  return { version, constants, flags, thisClass, superClass, interfaces, fields, methods,
           attributes }

/-- The class file with exactly these bytes.  Whatever kind of error stops the reading, the
bytes are malformed (`ReadError.kind_eq`). -/
def parse (bytes : Bytes) : Except Malformed ClassFile :=
  match read bytes with
  | .ok (c, []) => .ok c
  | .ok (_, rest) => .error (.trailing rest.length)
  | .error e => .error (.read e)

/-- Are two lists of constants the same, number by number? -/
def sameConstants : List Constant → List Constant → Bool
  | [], [] => true
  | a :: as, b :: bs => a.same b && sameConstants as bs
  | _, _ => false

/-- Do two class files say the same?  Constants are compared as `Constant.same`
does. -/
def same (c d : ClassFile) : Bool :=
  sameConstants c.constants d.constants && { c with constants := [] } = { d with constants := [] }

end ClassFile
end ClassForge
