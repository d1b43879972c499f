/-
# The dump of a class file

Specification, section 10.6: the command `dump`.

Everything a class file says, in lines of text: its header, its constants, its
fields, and the code and stack map of each method.  A part that cannot be
understood ends the dump, and what comes before it is still shown.
-/

import ClassForge.ClassFile.Query
import ClassForge.Disassembly
import ClassForge.CompileError

namespace ClassForge

/-- The lines of a dump, and why it ends early if it does. -/
structure Dump where
  lines : List String
  fault : Option CompileError

namespace Dump

/-- A dump that goes on to its end. -/
def all (lines : List String) : Dump := ⟨lines, none⟩

/-- A dump that ends early. -/
def ended (reason : Malformed) : Dump := ⟨[], some (.fault (.malformed reason))⟩

/-- One dump behind another, unless that ends early. -/
def andThen (d e : Dump) : Dump :=
  match d.fault with
  | none => ⟨d.lines ++ e.lines, e.fault⟩
  | some _ => d

/-- A dump of what could be read. -/
def ofExcept {α : Type} (x : Except Malformed α) (f : α → Dump) : Dump :=
  match x with
  | .ok a => f a
  | .error reason => ended reason

/-- A text, or `?` if it is missing. -/
def textOr (text : Option String) : String := text.getD "?"

/-- The lines of constants from `index` on. -/
def constants (index : Nat) : List Constant → List String
  | [] => []
  | c :: cs => (s!"  #{index} = " ++ shown c) :: constants (index + c.width) cs

/-- The line of a field. -/
def field (c : ClassFile) (f : FieldInfo) : String :=
  textOr (c.utf8? f.descriptor) ++ " " ++ textOr (c.utf8? f.name) ++ " (" ++ shown f.flags ++ ")"

/-- The lines of an entry of a stack map and the frame that it stands for. -/
def entry (frame : (UInt16 × StoredFrame) × StackMap.Entry) : List String :=
  [s!"    {frame.1.1.toNat}: " ++ shown frame.2,
   "      locals = " ++ shown frame.1.2.locals ++ ", stack = " ++ shown frame.1.2.stack]

/-- The lines of a stack map. -/
def stackMap (c : ClassFile) (m : MethodInfo) (table : StackMap.Table) : Dump :=
  (all ["  StackMapTable:"]).andThen <|
    ofExcept (c.entryFrame m) fun start =>
      ofExcept ((StackMap.expand start table).mapError Malformed.stackMap) fun frames =>
        all ((frames.zip table).flatMap entry)

/-- The lines of a method's code. -/
def code (c : ClassFile) (m : MethodInfo) (code : CodeAttribute) : Dump :=
  (all [s!"  max_stack = {code.maxStack.toNat}, max_locals = {code.maxLocals.toNat}"]).andThen <|
    (ofExcept (Disassembly.items code.code) fun items => all (items.map CodeItem.text)).andThen <|
      ofExcept (c.stackMap? code) fun
        | some table => stackMap c m table
        | none => all []

/-- The lines of a method. -/
def method (c : ClassFile) (m : MethodInfo) : Dump :=
  (all ["", textOr (c.utf8? m.name) ++ textOr (c.utf8? m.descriptor) ++ " (" ++ shown m.flags ++
    ")"]).andThen <|
    ofExcept (c.methodCode? m) fun
      | some found => code c m found
      | none => all []

/-- The lines of methods. -/
def methods (c : ClassFile) : List MethodInfo → Dump
  | [] => all []
  | m :: ms => (method c m).andThen (methods c ms)

/-- The lines of a class file. -/
def ofClassFile (c : ClassFile) : Dump :=
  (all (["class " ++ textOr (c.className? c.thisClass) ++ " extends " ++
        textOr (c.className? c.superClass),
      s!"  version: {c.version.major.toNat}.{c.version.minor.toNat}",
      "  flags: " ++ shown c.flags,
      "Constant pool:"] ++ constants 1 c.constants ++ c.fields.map (field c))).andThen
    (methods c c.methods)

/-- The dump of the class file with these bytes. -/
def ofBytes (bytes : Bytes) : Dump := ofExcept (ClassFile.parse bytes) ofClassFile

/-- The text of a dump. -/
def text (d : Dump) : String := String.join (d.lines.map (· ++ "\n"))

end Dump

/-- The line that reports an error. -/
def CompileError.report (e : CompileError) : String := "Error: " ++ shown e ++ "\n"

end ClassForge
