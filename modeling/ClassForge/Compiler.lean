/-
# The compiler

Specification, section 4.6 (one method at a time) and section 7 (methods that are too
large do not stop the others).

A class declaration becomes a class file.  The constants of all its methods
share one pool, to which they are added in the order of the declarations.

A method that exceeds a limit of the class file format does not keep the others
from being compiled: all of them are reported together.  Any other error ends
the compilation.
-/

import ClassForge.Lowering.Statement

namespace ClassForge

/-- A computation that adds the constants of a class. -/
abbrev Compiling := EStateM CompileError ConstantPool

/-- Constants are added in the course of compiling. -/
def Interning.toCompiling {α : Type} (x : Interning α) : Compiling α :=
  x.adaptExcept fun e => .fault (.poolOverflow e)

namespace Site

/-- Does the constructor start with an implicit call of that of the
superclass? -/
def callsSuper (site : Site) : Bool :=
  site.method.isConstructor && site.settings.implicitSuperCall &&
    !(site.method.body.head?.any Stmt.isConstruct)

/-- Makes the implicit call of the superclass's constructor, if there is one. -/
def lowerSuper (site : Site) : Lowering Unit :=
  if site.callsSuper then do
    Lowering.loadThis site
    Lowering.emit
      (Assembler.construct (.constructor site.owner.superClass []) site.owner.type)
  else pure ()

/-- Makes the code for the end of the method, which is only reached if it returns
nothing. -/
def lowerEnd (site : Site) : Lowering Unit := do
  let reachable ← Lowering.isReachable
  match reachable, site.method.returns with
  | false, _ => pure ()
  | true, none => Lowering.emit (Assembler.exit none)
  | true, some _ => throw (.unsupported (.missingReturn site.method.name))

/-- Makes room for the slots that were taken. -/
def lowerSlots : Lowering Unit := do
  let slots ← get
  Lowering.emit (Assembler.noteLocals slots.max)

/-- Makes the code of the method. -/
def lower (site : Site) : Lowering Unit := do
  site.lowerSuper
  Stmt.lowerAll site [] site.method.body
  site.lowerEnd
  lowerSlots

/-- The frame on entry to the method. -/
def entry (site : Site) : Frame :=
  .entry site.owner.type site.method.isStatic site.method.isConstructor
    site.method.descriptor.parameters

/-- Takes slots for parameters. -/
def declareParameters : List Parameter → EStateM Fault LocalSlots Unit
  | [] => pure ()
  | p :: ps => do
    let _ ← LocalSlots.declare p.id p.type
    declareParameters ps

/-- The slots on entry to the method: `this` if there is one, then the
parameters. -/
def slots (site : Site) : Except Fault LocalSlots :=
  match declareParameters site.method.parameters
      (LocalSlots.start (if site.method.isStatic then 0 else 1)) with
  | .ok _ slots => .ok slots
  | .error e _ => .error e

/-- The body of the method. -/
def body (site : Site) : Compiling Body := fun pool =>
  match site.slots with
  | .error e => .error (.fault e) pool
  | .ok slots =>
    match site.lower slots (Assembler.start pool site.entry) with
    | .error e a => .error e a.pool
    | .ok _ a =>
      match a.finish with
      | .error e => .error (.fault e) a.pool
      | .ok body => .ok body a.pool

/-- The attributes of the method: its code, unless it is abstract. -/
def attributes (site : Site) : Compiling (List Attribute) := do
  if site.method.isAbstract then return []
  else
    let body ← site.body
    let code ← body.store.adaptExcept CompileError.fault
    let stored ← (Attribute.make CodeAttribute.label code.write).toCompiling
    return [stored]

/-- The method as it is stored. -/
def compile (site : Site) : Compiling MethodInfo := do
  let attributes ← site.attributes
  let name ← (ConstantPool.utf8 site.method.name.text).toCompiling
  let descriptor ← (ConstantPool.utf8 site.method.descriptor.render).toCompiling
  return { flags := site.method.flags, name, descriptor, attributes }

end Site

namespace FieldDecl

/-- The field as it is stored. -/
def compile (f : FieldDecl) : Compiling FieldInfo := do
  let name ← (ConstantPool.utf8 f.name.text).toCompiling
  let descriptor ← (ConstantPool.utf8 f.type.render).toCompiling
  return { flags := f.flags, name, descriptor, attributes := [] }

end FieldDecl

namespace ClassDecl

/-- The report of a method that is too large. -/
def tooLarge (c : ClassDecl) (m : MethodDecl) (cause : Fault) : MethodTooLarge where
  owner := c.name
  method := m.name
  descriptor := m.descriptor
  cause

/-- Methods as they are stored, behind those already done and those that were too
large (both last first). -/
def compileMethods (settings : Settings) (c : ClassDecl) (done : List MethodInfo)
    (large : List MethodTooLarge) : List MethodDecl → Compiling (List MethodInfo)
  | [] => if large.isEmpty then pure done.reverse else throw (.methodsTooLarge large.reverse)
  | m :: ms => fun pool =>
    match Site.compile ⟨settings, c, m⟩ pool with
    | .ok info pool => compileMethods settings c (info :: done) large ms pool
    | .error (.fault cause) pool =>
      if cause.isTooLarge then
        compileMethods settings c done (c.tooLarge m cause :: large) ms pool
      else .error (.fault cause) pool
    | .error e pool => .error e pool

/-- The attribute that names the source file. -/
def sourceFileAttributes : Option String → Compiling (List Attribute)
  | none => return []
  | some file => do
    let index ← (ConstantPool.utf8 file).toCompiling
    let stored ← (Attribute.make SourceFile.label (SourceFile.write index)).toCompiling
    return [stored]

/-- The flags of the class as they are stored. -/
def storedFlags (settings : Settings) (c : ClassDecl) : ClassFlags :=
  if settings.marksSuper then c.flags.union ClassFlags.isSuper else c.flags

/-- The class file, except for its constants. -/
def compileParts (settings : Settings) (c : ClassDecl) : Compiling ClassFile := do
  let thisClass ← (ConstantPool.binaryName c.name).toCompiling
  let superClass ← (ConstantPool.binaryName c.superClass).toCompiling
  let interfaces ← (c.interfaces.mapM ConstantPool.binaryName).toCompiling
  let fields ← c.fields.mapM FieldDecl.compile
  let methods ← compileMethods settings c [] [] c.methods
  let attributes ← sourceFileAttributes (settings.sourceFile <|> c.sourceFile)
  return { version := settings.version, constants := [], flags := c.storedFlags settings,
           thisClass, superClass, interfaces, fields, methods, attributes }

/-- The class file of a class. -/
def compile (settings : Settings) (c : ClassDecl) : Except CompileError ClassFile :=
  match compileParts settings c .empty with
  | .ok file pool => .ok { file with constants := pool.toList }
  | .error e _ => .error e

end ClassDecl
end ClassForge
