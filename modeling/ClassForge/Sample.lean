/-
# A sample class

Specification, section 10.6: the command `demo`.

A counter with a field, a constructor, and methods with loops, branches and
joined strings:

| member | what it does |
| --- | --- |
| `count` | the private count |
| `next()` | counts one more and returns the count |
| `sum(values)` | the sum of an array |
| `describe(n)` | `negative`, `zero`, or `positive: ` and the number |
| `average(values)` | the mean of an array, zero if it is empty |
-/

import ClassForge.Compiler

namespace ClassForge
namespace Sample

/-- The package in which the class is unless another one is asked for. -/
def defaultPackage : String := "demo"

/-- The type of arrays of integers. -/
def ints : FieldType := .ref (.arrayOf .int)

/-- A use of a local. -/
def var (index : Nat) (type : FieldType) : Expr := .var ⟨index⟩ (some type)

/-- An integer literal. -/
def int (value : Int32) : Expr := .int value (some .int)

/-- A string literal. -/
def string (text : String) : Expr := .string text (some .string)

/-- A comparison. -/
def compare (op : CompareOp) (left right : Expr) : Expr := .compare op left right (some .boolean)

/-- A declaration of an integer local that is zero at first. -/
def zeroed (index : Nat) : Stmt := .declare ⟨index⟩ .int (some (int 0))

/-- One more, by an operator behind the target. -/
def increase (target : Expr) : Stmt := .expr (.increment target false false (some .int))

/-- The flags of the methods that need no object. -/
def publicStatic : MethodFlags := MethodFlags.isPublic.union MethodFlags.isStatic

/-- The field that holds the count. -/
def countField : FieldDecl where
  name := ⟨"count", by decide⟩
  type := .int
  flags := FieldFlags.isPrivate

/-- The count of `this`. -/
def count (owner : BinaryName) : Expr :=
  .field (.this (some (.object owner)))
    { owner, name := countField.name, type := .int, isStatic := false } (some .int)

/-- The constructor. -/
def init : MethodDecl where
  name := .init
  flags := MethodFlags.isPublic
  parameters := []
  returns := none
  body := []

/-- Counts one more. -/
def next (owner : BinaryName) : MethodDecl where
  name := ⟨"next", by decide⟩
  flags := MethodFlags.isPublic
  parameters := []
  returns := some .int
  body := [increase (count owner), .returnValue (some (count owner))]

/-- The array of which a method is asked for the sum or the mean. -/
def values : Expr := var 0 ints

/-- The length of that array. -/
def valuesLength : Expr := .length values (some .int)

/-- The method that sums an array, as it is called. -/
def sumRef (owner : BinaryName) : MethodRef where
  owner
  name := ⟨"sum", by decide⟩
  descriptor := ⟨[ints], some .int⟩
  isStatic := true

/-- Sums an array in a loop. -/
def sum (owner : BinaryName) : MethodDecl where
  name := (sumRef owner).name
  flags := publicStatic
  parameters := [⟨⟨0⟩, ints⟩]
  returns := some .int
  body :=
    [zeroed 1,
     .forLoop none [zeroed 2] (some (compare .lt (var 2 .int) valuesLength))
       [.increment (var 2 .int) false false (some .int)]
       (.block
         [.expr (.compound .add (var 1 .int) (.element values (var 2 .int) (some .int))
           (some .int))]),
     .returnValue (some (var 1 .int))]

/-- Tells the sign of a number. -/
def describe : MethodDecl where
  name := ⟨"describe", by decide⟩
  flags := publicStatic
  parameters := [⟨⟨0⟩, .int⟩]
  returns := some .string
  body :=
    [.branch (compare .lt (var 0 .int) (int 0)) (.returnValue (some (string "negative")))
       (some (.branch (compare .eq (var 0 .int) (int 0)) (.returnValue (some (string "zero")))
         none)),
     .returnValue (some (.binary .add (string "positive: ") (var 0 .int) (some .string)))]

/-- A value as a floating point number. -/
def toFloat (e : Expr) : Expr := .cast e (some .float)

/-- The mean of an array. -/
def average (owner : BinaryName) : MethodDecl where
  name := ⟨"average", by decide⟩
  flags := publicStatic
  parameters := [⟨⟨0⟩, ints⟩]
  returns := some .float
  body :=
    [.returnValue (some (.conditional (compare .eq valuesLength (int 0))
      (.float ⟨0⟩ (some .float))
      (.binary .div (toFloat (.call none (sumRef owner) [values] false (some .int)))
        (toFloat valuesLength) (some .float))
      (some .float)))]

/-- The name of the class in the default package. -/
def counterName : BinaryName := ⟨"demo/Counter", by decide⟩

/-- The sample class with the given name. -/
def counter (name : BinaryName) : ClassDecl where
  name
  superClass := .object
  interfaces := []
  flags := ClassFlags.isPublic
  sourceFile := some "Counter.java"
  fields := [countField]
  methods := [init, next name, sum name, describe, average name]

/-- The sample class in the given package. -/
def inPackage (package : String) : Except CompileError ClassDecl :=
  match BinaryName.ofString (package ++ "/Counter") with
  | .ok name => .ok (counter name)
  | .error e => .error (.badName (.name e))

/-- A file to be written. -/
structure OutputFile where
  /-- Where the file goes, below the directory for output. -/
  path : String
  bytes : Bytes

/-- The class file of the sample class in the given package. -/
def file (package : String) : Except CompileError OutputFile := do
  let c ← inPackage package
  let compiled ← c.compile {}
  return ⟨c.name.text ++ ".class", compiled.write⟩

end Sample
end ClassForge
