/-
# Looking things up in a class file

Specification, section 10.6: the reader of class files.

Constants are looked up by index, counting two for each long and double.  Names
are texts of the pool, and the frame on entry to a method follows from its
descriptor.

The search for a class by its name counts in 16 bits.  The last constant may take
an index that has no room there, and a search that gets past it fails.
-/

import ClassForge.ClassFile

namespace ClassForge
namespace ClassFile

/-- The constant at the given index among constants that start at `position`. -/
def constantFrom (position : Nat) (index : Nat) : List Constant → Option Constant
  | [] => none
  | c :: cs =>
    if position = index then some c
    else if index < position then none
    else constantFrom (position + c.width) index cs

/-- The constant with the given index. -/
def constant? (c : ClassFile) (index : UInt16) : Option Constant :=
  constantFrom 1 index.toNat c.constants

/-- The text with the given index. -/
def utf8? (c : ClassFile) (index : UInt16) : Option String :=
  match c.constant? index with
  | some (.utf8 text) => some text
  | _ => none

/-- The name of the class with the given index. -/
def className? (c : ClassFile) (index : UInt16) : Option String :=
  match c.constant? index with
  | some (.classRef name) => c.utf8? name
  | _ => none

/-- Is the constant the class with the given name? -/
def isClassNamed (c : ClassFile) (name : String) : Constant → Bool
  | .classRef index => c.utf8? index = some name
  | _ => false

/-- The index of the first class with the given name among constants that start
at `position`. -/
def findClassFrom (c : ClassFile) (name : String) (position : UInt16) :
    List Constant → Except Malformed (Option UInt16)
  | [] => .ok none
  | k :: ks =>
    if c.isClassNamed name k then .ok (some position)
    else if position.toNat + k.width < 65536 then
      findClassFrom c name (position + UInt16.ofNat k.width) ks
    else .error .indexOverflow

/-- The index of the first class with the given name. -/
def findClass? (c : ClassFile) (name : String) : Except Malformed (Option UInt16) :=
  findClassFrom c name 1 c.constants

/-- The position of the first method with the given name and descriptor. -/
def findMethod? (c : ClassFile) (name descriptor : String) : Option Nat :=
  c.methods.findIdx? fun m =>
    c.utf8? m.name = some name && c.utf8? m.descriptor = some descriptor

/-- The first attribute with the given name, decoded. -/
def findAttribute? {α : Type} (c : ClassFile) (name : String)
    (decode : Bytes → Except ReadError α) (attributes : List Attribute) :
    Except Malformed (Option α) :=
  match attributes.find? fun a => c.utf8? a.name = some name with
  | none => .ok none
  | some a =>
    match decode a.info with
    | .ok value => .ok (some value)
    | .error e => .error (.read e)

/-- The code of a method. -/
def methodCode? (c : ClassFile) (m : MethodInfo) : Except Malformed (Option CodeAttribute) :=
  c.findAttribute? CodeAttribute.label CodeAttribute.ofInfo m.attributes

/-- The stack map of a method's code. -/
def stackMap? (c : ClassFile) (code : CodeAttribute) : Except Malformed (Option StackMap.Table) :=
  c.findAttribute? StackMap.label StackMap.Table.ofInfo code.attributes

/-- The index of the name of the source file. -/
def sourceFile? (c : ClassFile) : Except Malformed (Option UInt16) :=
  c.findAttribute? SourceFile.label SourceFile.ofInfo c.attributes

/-- The stored type of a parameter; `top` if its class has no constant. -/
def parameterType (c : ClassFile) : FieldType → Except Malformed StoredType
  | .base .float => .ok .float
  | .base _ => .ok .integer
  | .ref t =>
    match c.findClass? t.className with
    | .ok (some index) => .ok (.object index)
    | .ok none => .ok .top
    | .error e => .error e

/-- The frame on entry to a method: `this` if there is one, then the
parameters. -/
def entryFrame (c : ClassFile) (m : MethodInfo) : Except Malformed StoredFrame :=
  match c.utf8? m.descriptor with
  | none => .error .missingDescriptor
  | some descriptor =>
    match MethodDescriptor.parse descriptor with
    | .error e => .error (.descriptor e)
    | .ok d =>
      let this :=
        if c.utf8? m.name = some UnqualifiedName.init.text then [.uninitializedThis]
        else if m.flags.contains MethodFlags.isStatic then []
        else [.object c.thisClass]
      match d.parameters.mapM c.parameterType with
      | .ok parameters => .ok ⟨this ++ parameters, []⟩
      | .error e => .error e

end ClassFile
end ClassForge
