/-
# Programs

Specification, section 6: the input, a tree with resolved types and declarations.

The syntax tree of a class whose names and types are resolved: an expression
carries its static type, and a reference to a field, a method or a local says
which one is meant.  The type of an expression is missing if it has no value.

An `int` may stand wherever a `float` is expected.
-/

import ClassForge.Flags
import ClassForge.Member

namespace ClassForge

/-- A parameter or a local, by its number.  Each declaration in a method has a
number of its own. -/
structure LocalId where
  index : Nat
deriving DecidableEq, Hashable, Repr

/-- The operators of arithmetic. -/
inductive BinaryOp where
  | add | sub | mul | div | rem | bitAnd | bitOr | bitXor | shl | shr | ushr
deriving DecidableEq, Repr

/-- The comparisons. -/
inductive CompareOp where
  | eq | ne | lt | le | gt | ge
deriving DecidableEq, Repr

/-- The operators that may leave their right operand alone. -/
inductive LogicalOp where
  | and | or
deriving DecidableEq, Repr

/-- The operators with one operand. -/
inductive UnaryOp where
  | negate | bitNot | not
deriving DecidableEq, Repr

/-- Expressions.  The last argument of each is its static type. -/
inductive Expr where
  | int (value : Int32) (type : Option FieldType)
  | float (value : Binary32) (type : Option FieldType)
  | boolean (value : Bool) (type : Option FieldType)
  | string (value : String) (type : Option FieldType)
  | null (type : Option FieldType)
  | this (type : Option FieldType)
  | var (id : LocalId) (type : Option FieldType)
  | staticField (field : FieldRef) (type : Option FieldType)
  | field (object : Expr) (field : FieldRef) (type : Option FieldType)
  | element (array index : Expr) (type : Option FieldType)
  | length (array : Expr) (type : Option FieldType)
  | assign (target value : Expr) (type : Option FieldType)
  | compound (op : BinaryOp) (target value : Expr) (type : Option FieldType)
  /-- One more or one less; the value is the new one if the operator stands in
  front. -/
  | increment (target : Expr) (decrement inFront : Bool) (type : Option FieldType)
  | unary (op : UnaryOp) (operand : Expr) (type : Option FieldType)
  /-- Arithmetic, or joining strings if the type is that of strings. -/
  | binary (op : BinaryOp) (left right : Expr) (type : Option FieldType)
  | compare (op : CompareOp) (left right : Expr) (type : Option FieldType)
  | logical (op : LogicalOp) (left right : Expr) (type : Option FieldType)
  | conditional (condition thenValue elseValue : Expr) (type : Option FieldType)
  /-- A call; without a receiver it is on `this`, unless the method is static. -/
  | call (receiver : Option Expr) (method : MethodRef) (arguments : List Expr) (viaSuper : Bool)
      (type : Option FieldType)
  | new (constructor : MethodRef) (arguments : List Expr) (type : Option FieldType)
  /-- A new array with the lengths of its first dimensions. -/
  | newArray (dimensions : List Expr) (type : Option FieldType)
  /-- A new array with the given elements. -/
  | arrayOf (elements : List Expr) (type : Option FieldType)
  /-- A conversion to the type of the expression. -/
  | cast (operand : Expr) (type : Option FieldType)
  | instanceOf (operand : Expr) (tested : RefType) (type : Option FieldType)

/-- Statements. -/
inductive Stmt where
  /-- An expression whose value is not used. -/
  | expr (e : Expr)
  | declare (id : LocalId) (type : FieldType) (initial : Option Expr)
  | block (body : List Stmt)
  | branch (condition : Expr) (thenBranch : Stmt) (elseBranch : Option Stmt)
  | whileLoop (label : Option String) (condition : Expr) (body : Stmt)
  | doWhileLoop (label : Option String) (body : Stmt) (condition : Expr)
  /-- A loop with its own locals; without a condition it goes on forever. -/
  | forLoop (label : Option String) (init : List Stmt) (condition : Option Expr)
      (update : List Expr) (body : Stmt)
  /-- Leaves the innermost loop, or the one with the label. -/
  | breakLoop (label : Option String)
  /-- Goes on with the innermost loop, or the one with the label. -/
  | continueLoop (label : Option String)
  | returnValue (value : Option Expr)
  /-- A call of another constructor, at the start of a constructor. -/
  | construct (constructor : MethodRef) (arguments : List Expr)

/-- A parameter of a method. -/
structure Parameter where
  id : LocalId
  type : FieldType

/-- A field of a class. -/
structure FieldDecl where
  name : UnqualifiedName
  type : FieldType
  flags : FieldFlags

/-- A method of a class. -/
structure MethodDecl where
  name : UnqualifiedName
  flags : MethodFlags
  parameters : List Parameter
  returns : Option FieldType
  body : List Stmt

/-- A class. -/
structure ClassDecl where
  name : BinaryName
  superClass : BinaryName
  interfaces : List BinaryName
  flags : ClassFlags
  sourceFile : Option String
  fields : List FieldDecl
  methods : List MethodDecl

namespace MethodDecl

/-- Is the method called without an object? -/
def isStatic (m : MethodDecl) : Bool := m.flags.contains MethodFlags.isStatic

/-- Is the method without code? -/
def isAbstract (m : MethodDecl) : Bool := m.flags.contains MethodFlags.isAbstract

/-- Is the method a constructor? -/
def isConstructor (m : MethodDecl) : Bool := m.name = UnqualifiedName.init

/-- The parameters and the result of the method. -/
def descriptor (m : MethodDecl) : MethodDescriptor := ⟨m.parameters.map (·.type), m.returns⟩

end MethodDecl

/-- The type of the objects of a class. -/
def ClassDecl.type (c : ClassDecl) : RefType := .object c.name

/-- Does the statement call another constructor? -/
def Stmt.isConstruct : Stmt → Bool
  | .construct .. => true
  | _ => false

namespace Expr

/-- The static type. -/
def type : Expr → Option FieldType
  | .int _ t | .float _ t | .boolean _ t | .string _ t | .null t | .this t | .var _ t
  | .staticField _ t | .field _ _ t | .element _ _ t | .length _ t | .assign _ _ t
  | .compound _ _ _ t | .increment _ _ _ t | .unary _ _ t | .binary _ _ _ t | .compare _ _ _ t
  | .logical _ _ _ t | .conditional _ _ _ t | .call _ _ _ _ t | .new _ _ t | .newArray _ t
  | .arrayOf _ t | .cast _ t | .instanceOf _ _ t => t

/-- Is the expression a literal zero or `false`? -/
def isZero : Expr → Bool
  | .int value _ => value = 0
  | .boolean value _ => !value
  | _ => false

/-- Is the expression `null`? -/
def isNull : Expr → Bool
  | .null _ => true
  | _ => false

/-- The value of an integer literal. -/
def literal? : Expr → Option Int32
  | .int value _ => some value
  | _ => none

end Expr

instance : ToForm LocalId := ⟨fun id => .apply "LocalId" [form id.index]⟩

instance : ToForm BinaryOp where
  form
    | .add => .word "Add"
    | .sub => .word "Sub"
    | .mul => .word "Mul"
    | .div => .word "Div"
    | .rem => .word "Rem"
    | .bitAnd => .word "BitAnd"
    | .bitOr => .word "BitOr"
    | .bitXor => .word "BitXor"
    | .shl => .word "Shl"
    | .shr => .word "Shr"
    | .ushr => .word "UShr"

instance : ToForm CompareOp where
  form
    | .eq => .word "Eq"
    | .ne => .word "Ne"
    | .lt => .word "Lt"
    | .le => .word "Le"
    | .gt => .word "Gt"
    | .ge => .word "Ge"

instance : ToForm LogicalOp where
  form
    | .and => .word "And"
    | .or => .word "Or"

instance : ToForm UnaryOp where
  form
    | .negate => .word "Negate"
    | .bitNot => .word "BitNot"
    | .not => .word "Not"

namespace Expr

/-- The shape of an expression, given the shape of its kind. -/
def withType (kind : Form) (type : Option FieldType) : Form :=
  .record "Expr" [.field "kind" kind, .field "expr_type" (form type)]

mutual

/-- The shape of an expression. -/
def shape : Expr → Form
  | .int value t => withType (.apply "Int" [form value]) t
  | .float value t => withType (.apply "Float" [form value]) t
  | .boolean value t => withType (.apply "Boolean" [form value]) t
  | .string value t => withType (.apply "String" [form value]) t
  | .null t => withType (.word "Null") t
  | .this t => withType (.word "This") t
  | .var id t => withType (.apply "Local" [form id]) t
  | .staticField member t => withType (.apply "StaticField" [form member]) t
  | .field object member t =>
    withType (.record "Field" [.field "object" object.shape, .field "field" (form member)]) t
  | .element array index t =>
    withType (.record "ArrayElement" [.field "array" array.shape, .field "index" index.shape]) t
  | .length array t => withType (.apply "ArrayLength" [array.shape]) t
  | .assign target value t =>
    withType (.record "Assign" [.field "target" target.shape, .field "value" value.shape]) t
  | .compound op target value t =>
    withType (.record "CompoundAssign"
      [.field "op" (form op), .field "target" target.shape, .field "value" value.shape]) t
  | .increment target decrement inFront t =>
    withType (.record "Increment"
      [.field "target" target.shape, .field "decrement" (form decrement),
       .field "prefix" (form inFront)]) t
  | .unary op operand t =>
    withType (.record "Unary" [.field "op" (form op), .field "operand" operand.shape]) t
  | .binary op left right t =>
    withType (.record "Binary"
      [.field "op" (form op), .field "left" left.shape, .field "right" right.shape]) t
  | .compare op left right t =>
    withType (.record "Compare"
      [.field "op" (form op), .field "left" left.shape, .field "right" right.shape]) t
  | .logical op left right t =>
    withType (.record "Logical"
      [.field "op" (form op), .field "left" left.shape, .field "right" right.shape]) t
  | .conditional condition thenValue elseValue t =>
    withType (.record "Conditional"
      [.field "condition" condition.shape, .field "then_value" thenValue.shape,
       .field "else_value" elseValue.shape]) t
  | .call receiver method arguments viaSuper t =>
    withType (.record "Call"
      [.field "receiver" (optionShape receiver), .field "method" (form method),
       .field "arguments" (.list (shapes arguments)), .field "via_super" (form viaSuper)]) t
  | .new constructor arguments t =>
    withType (.record "New"
      [.field "constructor" (form constructor), .field "arguments" (.list (shapes arguments))]) t
  | .newArray dimensions t =>
    withType (.record "NewArray" [.field "dimensions" (.list (shapes dimensions))]) t
  | .arrayOf elements t => withType (.apply "ArrayInit" [.list (shapes elements)]) t
  | .cast operand t => withType (.apply "Cast" [operand.shape]) t
  | .instanceOf operand tested t =>
    withType (.record "InstanceOf"
      [.field "operand" operand.shape, .field "class" (form tested)]) t

/-- The shapes of several expressions. -/
def shapes : List Expr → List Form
  | [] => []
  | e :: es => e.shape :: shapes es

/-- The shape of an expression that may be missing. -/
def optionShape : Option Expr → Form
  | none => .word "None"
  | some e => .apply "Some" [e.shape]

end

end Expr

instance : ToForm Expr := ⟨Expr.shape⟩

end ClassForge
