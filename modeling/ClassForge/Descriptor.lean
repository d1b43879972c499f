/-
# Types and their descriptors

Specification, section 3: the descriptors of verification types, and section 6: the
signatures of methods.

The types of fields, locals and parameters: three base types, classes, and
arrays of either.  The descriptor of a type is its spelling in a class file:

| type | descriptor |
| --- | --- |
| boolean, float, int | `Z`, `F`, `I` |
| class `a/B` | `La/B;` |
| array with `n` dimensions | `n` times `[`, then the element type |
| method | `(`, the parameter types, `)`, then the return type or `V` |

Every value takes one slot, whatever its type.
-/

import ClassForge.Name

namespace ClassForge

/-- The types that are not references. -/
inductive BaseType where
  | boolean
  | float
  | int
deriving DecidableEq, Hashable, Repr

/-- What an array holds once all its dimensions are taken off. -/
inductive ElementType where
  | base (type : BaseType)
  | object (name : BinaryName)
deriving DecidableEq, Hashable

/-- The types of references.  An array has one dimension and `extra` more. -/
inductive RefType where
  | object (name : BinaryName)
  | array (extra : Nat) (element : ElementType)
deriving DecidableEq, Hashable

/-- The type of a field, a local or a parameter. -/
inductive FieldType where
  | base (type : BaseType)
  | ref (type : RefType)
deriving DecidableEq, Hashable

/-- The types of a method's parameters and of its result (none for a method
that returns nothing). -/
structure MethodDescriptor where
  parameters : List FieldType
  returns : Option FieldType
deriving DecidableEq, Hashable

namespace BaseType

/-- The letter of a base type. -/
def letter : BaseType → Char
  | .boolean => 'Z'
  | .float => 'F'
  | .int => 'I'

/-- The descriptor of a base type, as characters. -/
def chars (t : BaseType) : List Char := [t.letter]

end BaseType

namespace BinaryName

/-- The descriptor of a class, as characters. -/
def chars (n : BinaryName) : List Char := 'L' :: n.text.toList ++ [';']

end BinaryName

namespace ElementType

/-- The descriptor of an element type, as characters. -/
def chars : ElementType → List Char
  | .base t => t.chars
  | .object n => n.chars

end ElementType

namespace RefType

/-- The descriptor of a reference type, as characters. -/
def chars : RefType → List Char
  | .object n => n.chars
  | .array extra element => List.replicate (extra + 1) '[' ++ element.chars

/-- The descriptor of a reference type. -/
def render (t : RefType) : String := String.ofList t.chars

/-- The number of dimensions: none for a class. -/
def dimensions : RefType → Nat
  | .object _ => 0
  | .array extra _ => extra + 1

/-- The name under which a class constant refers to the type: the bare name of
a class, the descriptor of an array. -/
def className : RefType → String
  | .object n => n.text
  | t => t.render

/-- The type of arrays of the given type. -/
def arrayOf : FieldType → RefType
  | .base t => .array 0 (.base t)
  | .ref (.object n) => .array 0 (.object n)
  | .ref (.array extra element) => .array (extra + 1) element

/-- The type of what an array of this type holds; none for a class. -/
def component? : RefType → Option FieldType
  | .object _ => none
  | .array 0 (.base t) => some (.base t)
  | .array 0 (.object n) => some (.ref (.object n))
  | .array (extra + 1) element => some (.ref (.array extra element))

end RefType

namespace FieldType

/-- The descriptor of a field type, as characters. -/
def chars : FieldType → List Char
  | .base t => t.chars
  | .ref t => t.chars

/-- The descriptor of a field type. -/
def render (t : FieldType) : String := String.ofList t.chars

/-- The type of integers. -/
def int : FieldType := .base .int

/-- The type of floating point numbers. -/
def float : FieldType := .base .float

/-- The type of truth values. -/
def boolean : FieldType := .base .boolean

/-- The type of the objects of a class. -/
def object (n : BinaryName) : FieldType := .ref (.object n)

/-- The type of texts. -/
def string : FieldType := object .string

/-- The type of arrays of the given type. -/
def arrayOf (t : FieldType) : FieldType := .ref (RefType.arrayOf t)

/-- Is this the type of a class or an array? -/
def isReference : FieldType → Bool
  | .base _ => false
  | .ref _ => true

end FieldType

namespace MethodDescriptor

/-- The descriptor of a method, as characters. -/
def chars (d : MethodDescriptor) : List Char :=
  '(' :: d.parameters.flatMap FieldType.chars ++
    ')' :: (match d.returns with | none => ['V'] | some t => t.chars)

/-- The descriptor of a method. -/
def render (d : MethodDescriptor) : String := String.ofList d.chars

/-- The number of slots that the arguments take, `this` included if the method
has one. -/
def parameterSlots (d : MethodDescriptor) (hasThis : Bool) : Nat :=
  d.parameters.length + if hasThis then 1 else 0

end MethodDescriptor

theorem RefType.component?_arrayOf (t : FieldType) : (arrayOf t).component? = some t := by
  match t with
  | .base _ => rfl
  | .ref (.object _) => rfl
  | .ref (.array _ _) => rfl

instance : ToForm BaseType where
  form
    | .boolean => .word "Boolean"
    | .float => .word "Float"
    | .int => .word "Int"

instance : ToForm RefType where
  form
    | .object n => .apply "Object" [form n]
    | .array extra (.base t) =>
      .apply "PrimitiveArray" [.record "ArrayType"
        [.field "additional_dimensions" (form extra), .field "element_type" (form t)]]
    | .array extra (.object n) =>
      .apply "ObjectArray" [.record "ArrayType"
        [.field "additional_dimensions" (form extra), .field "element_type" (form n)]]

instance : ToForm FieldType where
  form
    | .base t => .apply "Base" [form t]
    | .ref t => .apply "Ref" [form t]

instance : ToForm MethodDescriptor where
  form d := .record "MethodDescriptor"
    [.field "parameters" (form d.parameters), .field "return_type" (form d.returns)]

end ClassForge
