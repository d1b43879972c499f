/-
# Statements

Specification, section 4.6: control statements.

Conditions become branches and loops test their condition at the top, except
for those that test it at the end.  The branches of a loop go to labels at which
only the locals from outside of it are in scope.
-/

import ClassForge.Lowering.Expression

namespace ClassForge

open Assembler (freshLabel freshScopedLabel)
open Lowering (emit inBlock)

/-- A loop around the current statement. -/
structure Loop where
  label : Option String
  /-- Where control goes when the loop is left. -/
  exit : Label
  /-- Where control goes for the next round. -/
  next : Label

namespace Lowering

/-- The loop that a jump means: the innermost, or the innermost with its label. -/
def findLoop (loops : List Loop) : Option String → Option Loop
  | none => loops.head?
  | some name => loops.find? fun l => l.label = some name

/-- Jumps to a label of a loop. -/
def jumpTo (loops : List Loop) (label : Option String) (side : Loop → Label) : Lowering Unit :=
  match findLoop loops label with
  | some l => emit (Assembler.branch .goto (side l))
  | none => throw (.misplacedJump label)

/-- Returns from the method. -/
def returned (site : Site) (value : Option Expr) : Lowering Unit := do
  match value, site.method.returns with
  | some e, some type => (e.fragment site).converted type
  | some e, none => unsupported e
  | none, _ => pure ()
  emit (Assembler.exit site.method.returns)

/-- Calls another constructor on `this`. -/
def constructed (site : Site) (constructor : MethodRef) (operands : List Expr) :
    Lowering Unit :=
  if site.method.isConstructor then do
    loadThis site
    arguments (Expr.operands site operands) constructor.descriptor
    emit (Assembler.construct constructor site.owner.type)
  else throw (.unsupported (.misplacedConstruct site.method.name))

/-- Declares a local and gives it its initial value. -/
def declared (site : Site) (id : LocalId) (type : FieldType) (initial : Option Expr) :
    Lowering Unit := do
  let slot ← declare id type
  match initial with
  | some e =>
    (e.fragment site).converted type
    emit (Assembler.storeLocal slot type)
  | none => pure ()

/-- Runs one of two branches; `elseBranch` may be missing. -/
def branched (condition : Jump) (thenBranch : Lowering Unit)
    (elseBranch : Option (Lowering Unit)) : Lowering Unit := do
  let elseLabel ← emit freshLabel
  condition false elseLabel
  inBlock thenBranch
  match elseBranch with
  | none => emit (Assembler.place elseLabel)
  | some other =>
    let endLabel ← emit freshLabel
    emit (Assembler.branch .goto endLabel)
    emit (Assembler.place elseLabel)
    inBlock other
    emit (Assembler.place endLabel)

/-- A loop that tests its condition at the top. -/
def whileLoop (condition : Jump) (body : Label → Label → Lowering Unit) : Lowering Unit := do
  let limit ← nextSlot
  let head ← emit (freshScopedLabel limit)
  let exit ← emit (freshScopedLabel limit)
  emit (Assembler.place head)
  condition false exit
  inBlock (body exit head)
  emit (Assembler.branch .goto head)
  emit (Assembler.place exit)

/-- A loop that tests its condition at the end. -/
def doWhileLoop (condition : Jump) (body : Label → Label → Lowering Unit) : Lowering Unit := do
  let limit ← nextSlot
  let head ← emit (freshScopedLabel limit)
  let next ← emit (freshScopedLabel limit)
  let exit ← emit (freshScopedLabel limit)
  emit (Assembler.place head)
  inBlock (body exit next)
  emit (Assembler.place next)
  condition true head
  emit (Assembler.place exit)

/-- The rounds of a loop with something to do after each of them. -/
def rounds (condition : Option Jump) (update : Lowering Unit)
    (body : Label → Label → Lowering Unit) : Lowering Unit := do
  let limit ← nextSlot
  let head ← emit (freshScopedLabel limit)
  let next ← emit (freshScopedLabel limit)
  let exit ← emit (freshScopedLabel limit)
  emit (Assembler.place head)
  match condition with
  | some jump => jump false exit
  | none => pure ()
  inBlock (body exit next)
  emit (Assembler.place next)
  update
  emit (Assembler.branch .goto head)
  emit (Assembler.place exit)

/-- A loop with its own locals and something to do after each round. -/
def forLoop (init : Lowering Unit) (condition : Option Jump) (update : Lowering Unit)
    (body : Label → Label → Lowering Unit) : Lowering Unit :=
  inBlock do
    init
    rounds condition update body

end Lowering

mutual

/-- Makes the code of a statement inside the given loops, innermost first. -/
def Stmt.lower (site : Site) (loops : List Loop) (s : Stmt) : Lowering Unit :=
  match s with
  | .expr e => (e.fragment site).effect
  | .declare id type initial => Lowering.declared site id type initial
  | .block body => inBlock (Stmt.lowerAll site loops body)
  | .branch condition thenBranch elseBranch =>
    Lowering.branched (condition.fragment site).jump (thenBranch.lower site loops)
      (Stmt.lower? site loops elseBranch)
  | .whileLoop label condition body =>
    Lowering.whileLoop (condition.fragment site).jump
      fun exit next => body.lower site (⟨label, exit, next⟩ :: loops)
  | .doWhileLoop label body condition =>
    Lowering.doWhileLoop (condition.fragment site).jump
      fun exit next => body.lower site (⟨label, exit, next⟩ :: loops)
  | .forLoop label init condition update body =>
    Lowering.forLoop (Stmt.lowerAll site loops init)
      (condition.map fun e => (e.fragment site).jump)
      (update.forM fun e => (e.fragment site).effect)
      fun exit next => body.lower site (⟨label, exit, next⟩ :: loops)
  | .breakLoop label => Lowering.jumpTo loops label Loop.exit
  | .continueLoop label => Lowering.jumpTo loops label Loop.next
  | .returnValue value => Lowering.returned site value
  | .construct constructor operands => Lowering.constructed site constructor operands

/-- Makes the code of statements one after the other. -/
def Stmt.lowerAll (site : Site) (loops : List Loop) (ss : List Stmt) : Lowering Unit :=
  match ss with
  | [] => pure ()
  | s :: ss => do
    s.lower site loops
    Stmt.lowerAll site loops ss

/-- The code of a statement that may be missing. -/
def Stmt.lower? (site : Site) (loops : List Loop) (s : Option Stmt) : Option (Lowering Unit) :=
  match s with
  | none => none
  | some s => some (s.lower site loops)

end

end ClassForge
