/-
# References to fields and methods

Specification, section 6: resolved declarations of fields and methods.

What code needs to know of a field or a method that it uses: the class that
declares it, its name, its type, and the flags that decide with which
instruction it is reached.
-/

import ClassForge.Descriptor

namespace ClassForge

/-- A field of a class. -/
structure FieldRef where
  owner : BinaryName
  name : UnqualifiedName
  type : FieldType
  isStatic : Bool
deriving DecidableEq

/-- A method of a class or an interface. -/
structure MethodRef where
  owner : BinaryName
  name : UnqualifiedName
  descriptor : MethodDescriptor
  isStatic : Bool := false
  isPrivate : Bool := false
  isInterface : Bool := false
deriving DecidableEq

/-- The ways to call a method. -/
inductive InvokeKind where
  /-- The method of the receiver's class. -/
  | virtual
  /-- Exactly the named method. -/
  | special
  /-- Without a receiver. -/
  | static
  /-- The method of the receiver's class, named through an interface. -/
  | interface
deriving DecidableEq, Repr

namespace MethodRef

/-- Is this a constructor? -/
def isConstructor (m : MethodRef) : Bool := m.name = .init

/-- The way to call the method; `viaSuper` asks for the superclass's own. -/
def invokeKind (m : MethodRef) (viaSuper : Bool) : InvokeKind :=
  if m.isStatic then .static
  else if viaSuper || m.isPrivate || m.isConstructor then .special
  else if m.isInterface then .interface
  else .virtual

/-- The type of the objects that have the method. -/
def ownerType (m : MethodRef) : RefType := .object m.owner

/-- The constructor of a class with the given parameters. -/
def constructor (owner : BinaryName) (parameters : List FieldType) : MethodRef where
  owner
  name := .init
  descriptor := ⟨parameters, none⟩

end MethodRef

instance : ToForm FieldRef where
  form f := .record "FieldRef"
    [.field "class" (form f.owner), .field "name" (form f.name),
      .field "descriptor" (form f.type), .field "is_static" (form f.isStatic)]

instance : ToForm MethodRef where
  form m := .record "MethodRef"
    [.field "class" (form m.owner), .field "name" (form m.name),
      .field "descriptor" (form m.descriptor), .field "is_static" (form m.isStatic),
      .field "is_private" (form m.isPrivate), .field "is_interface" (form m.isInterface)]

instance : ToForm InvokeKind where
  form
    | .virtual => .word "Virtual"
    | .special => .word "Special"
    | .static => .word "Static"
    | .interface => .word "Interface"

end ClassForge
