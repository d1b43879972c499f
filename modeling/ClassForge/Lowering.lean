/-
# Lowering: from programs to code

Specification, section 4.6: the walk over the tree of a method.

The computation in which code is made for a method: the assembler holds the code
so far, and `LocalSlots` says where the locals in scope are.  Code is made in one
pass over the program, from top to bottom.

The names of the steps:

| step | what it does |
| --- | --- |
| `emit` | adds to the code |
| `lookup`, `declare` | find and take slots |
| `inBlock` | runs in a scope of its own |
| `loadThis` | pushes `this` |
-/

import ClassForge.Assembler.Emit
import ClassForge.LocalSlots
import ClassForge.Settings

namespace ClassForge

/-- A computation that makes code for a method. -/
abbrev Lowering := StateT LocalSlots (EStateM CompileError Assembler)

/-- The method for which code is made, with its class. -/
structure Site where
  settings : Settings
  owner : ClassDecl
  method : MethodDecl

namespace Lowering

/-- Adds to the code. -/
def emit {α : Type} (x : Assembling α) : Lowering α := fun slots a =>
  match x a with
  | .ok v a => .ok (v, slots) a
  | .error e a => .error (.fault e) a

/-- Can control be at the current point? -/
def isReachable : Lowering Bool := fun slots a => .ok (a.isReachable, slots) a

/-- The expression is not handled. -/
def unsupported {α : Type} (e : Expr) : Lowering α := throw (.unsupported (.expression e))

/-- The type of an expression that has a value. -/
def typeOf (e : Expr) : Lowering FieldType :=
  match e.type with
  | some t => pure t
  | none => unsupported e

/-- The type of an expression whose value is an array. -/
def arrayTypeOf (e : Expr) : Lowering RefType :=
  match e.type with
  | some (.ref t) => if 0 < t.dimensions then pure t else unsupported e
  | _ => unsupported e

/-- The slot and the declared type of a local. -/
def lookup (id : LocalId) : Lowering (UInt16 × FieldType) := fun slots a =>
  match slots.lookup? id with
  | some found => .ok (found, slots) a
  | none => .error (.unknownLocal id) a

/-- The slot of a new local. -/
def declare (id : LocalId) (type : FieldType) : Lowering UInt16 := fun slots a =>
  match LocalSlots.declare id type slots with
  | .ok slot slots => .ok (slot, slots) a
  | .error e _ => .error (.fault e) a

/-- The next free slot. -/
def nextSlot : Lowering Nat := fun slots a => .ok (slots.next, slots) a

/-- Runs in a block of its own, whose locals are gone at its end. -/
def inBlock (x : Lowering Unit) : Lowering Unit := do
  modify LocalSlots.enter
  x
  modify LocalSlots.exit
  let first ← nextSlot
  emit (Assembler.killLocals first)

/-- Pushes `this`. -/
def loadThis (site : Site) : Lowering Unit :=
  if site.method.isStatic then throw (.unsupported (.thisInStatic site.method.name))
  else emit (Assembler.loadLocal 0 (.ref site.owner.type))

/-- Makes the type on top of the stack that of an expression, where references of
different types meet. -/
def generalizeTop (type : FieldType) : Lowering Unit :=
  if type.isReference then emit (Assembler.generalize type.verification) else pure ()

end Lowering
end ClassForge
