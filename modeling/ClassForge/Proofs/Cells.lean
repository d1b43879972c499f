/-
# Cells

The values of a program are kept in cells: the slots of a method, static fields,
the fields of objects and the elements of arrays.  A platform is a processor that
has cells beside its stack, and the texts of strings and string builders.  How
floating point numbers are calculated with, where the fields are, what the text of
an object is, and what all other instructions do is left open.

| instructions | |
| --- | --- |
| loads and stores, `iinc` | read and write the slot in their operands |
| `getstatic` to `putfield` | find the name of the field among the constants |
| `iaload` to `aastore` | stay within the elements that the array has |
| `dup` and its relatives, `swap` | rearrange the stack |
| calls of a string builder | change its text |

What each of them does to a run is one lemma below (`follows_loadLocal` and the
others), and the code that asks for them never has to be opened again.
-/

import ClassForge.Proofs.InstructionSafety
import ClassForge.Proofs.Processor
import ClassForge.Proofs.Storage

namespace ClassForge

/-! ### Names among the constants -/

/-- A field or a method by the names that a class has for it. -/
structure MemberName where
  owner : String
  name : String
  descriptor : String
deriving DecidableEq

def FieldRef.member (f : FieldRef) : MemberName := ⟨f.owner.text, f.name.text, f.type.render⟩

def MethodRef.member (m : MethodRef) : MemberName :=
  ⟨m.owner.text, m.name.text, m.descriptor.render⟩

namespace ConstantPool

/-- The text with the given index. -/
def text? (q : ConstantPool) (index : UInt16) : Option String :=
  match q.get? index with
  | some (.utf8 text) => some text
  | _ => none

/-- The name of the class with the given index. -/
def className? (q : ConstantPool) (index : UInt16) : Option String :=
  match q.get? index with
  | some (.classRef name) => q.text? name
  | _ => none

/-- The name and the descriptor with the given index. -/
def signature? (q : ConstantPool) (index : UInt16) : Option (String × String) :=
  match q.get? index with
  | some (.nameAndType name descriptor) => do some (← q.text? name, ← q.text? descriptor)
  | _ => none

/-- The field or the method with the given index. -/
def member? (q : ConstantPool) (index : UInt16) : Option MemberName :=
  match q.get? index with
  | some (.fieldRef owner signature) | some (.methodRef owner signature _) => do
    let owner ← q.className? owner
    let (name, descriptor) ← q.signature? signature
    some ⟨owner, name, descriptor⟩
  | _ => none

theorem yields_text (text : String) : Yields (utf8 text) fun index q => q.text? index = some text :=
  (yields_intern (.utf8 text)).imp fun _ _ h => by rw [text?, h]

theorem yields_class (name : String) :
    Yields (className name) fun index q => q.className? index = some name :=
  (yields_text name).bind fun text => (yields_intern (.classRef text)).imp
    fun _ _ hindex htext => by rw [className?, hindex]; exact htext

theorem yields_signature (name descriptor : String) :
    Yields (nameAndType name descriptor) fun index q =>
      q.signature? index = some (name, descriptor) :=
  (yields_text name).bind fun n => (yields_text descriptor).bind fun d =>
    (yields_intern (.nameAndType n d)).imp fun _ _ hindex hd hn => by
      rw [signature?, hindex]
      dsimp only
      rw [hn, hd]
      rfl

/-- **The index of a field leads to its name.** -/
theorem yields_fieldName (f : FieldRef) :
    Yields (fieldRef f) fun index q => q.member? index = some f.member :=
  (yields_class f.owner.text).bind fun owner => (yields_signature _ _).bind fun signature =>
    (yields_intern (.fieldRef owner signature)).imp fun _ _ hindex hsignature howner => by
      rw [member?, hindex]
      dsimp only
      rw [howner, hsignature]
      rfl

/-- **The index of a method leads to its name.** -/
theorem yields_methodName (m : MethodRef) :
    Yields (methodRef m) fun index q => q.member? index = some m.member :=
  (yields_class m.owner.text).bind fun owner => (yields_signature _ _).bind fun signature =>
    (yields_intern (.methodRef owner signature m.isInterface)).imp
      fun _ _ hindex hsignature howner => by
        rw [member?, hindex]
        dsimp only
        rw [howner, hsignature]
        rfl

end ConstantPool

/-! ### What cells hold -/

/-- Where a value can be kept. -/
inductive Cell where
  /-- A slot of the method. -/
  | slot (n : Nat)
  /-- A static field. -/
  | shared (field : Nat)
  /-- A field of an object. -/
  | field (object field : Nat)
  /-- An element of an array. -/
  | element (array : Nat) (index : Int32)
deriving DecidableEq

/-- What says where the cell is, top first. -/
def Cell.address : Cell → List Datum
  | .slot _ | .shared _ => []
  | .field object _ => [.ref (some object)]
  | .element array index => [.int index, .ref (some array)]

/-- What the cells hold, and what else there is beside the stack. -/
structure Contents (X : Type) where
  /-- What a cell holds, if it exists. -/
  cells : Cell → Option Datum
  /-- The texts of strings and string builders. -/
  texts : Nat → Option String
  /-- The address of the next new object. -/
  free : Nat
  beside : X

namespace Contents

variable {X : Type}

/-- The contents with another value in a cell. -/
def set (m : Contents X) (c : Cell) (d : Datum) : Contents X :=
  { m with cells := fun c' => if c' = c then some d else m.cells c' }

/-- The contents with another text at an address. -/
def setText (m : Contents X) (n : Nat) (text : String) : Contents X :=
  { m with texts := fun n' => if n' = n then some text else m.texts n' }

/-- The text of the object at an address. -/
def textAt (m : Contents X) (n : Nat) : Option String := if n < m.free then m.texts n else none

/-- The contents with one object more, without a text. -/
def allocate (m : Contents X) : Contents X := { m with free := m.free + 1 }

/-- The contents with a new object that has a text. -/
def build (m : Contents X) (text : String) : Contents X := m.allocate.setText m.free text

@[simp] theorem cells_set_self (m : Contents X) (c : Cell) (d : Datum) :
    (m.set c d).cells c = some d := if_pos rfl

@[simp] theorem cells_set_ne (m : Contents X) {c c' : Cell} (h : c' ≠ c) (d : Datum) :
    (m.set c d).cells c' = m.cells c' := if_neg h

theorem textAt_setText {m : Contents X} {n : Nat} {old : String} (h : m.textAt n = some old)
    (text : String) : (m.setText n text).textAt n = some text := by
  unfold textAt at h
  split at h
  · rename_i hn
    exact (if_pos hn).trans (if_pos rfl)
  · cases h

theorem textAt_build_free (m : Contents X) (text : String) :
    (m.build text).textAt m.free = some text := (if_pos (Nat.lt_succ_self _)).trans (if_pos rfl)

/-- A new object leaves the others alone. -/
theorem textAt_build {m : Contents X} {n : Nat} {old : String} (h : m.textAt n = some old)
    (text : String) : (m.build text).textAt n = some old := by
  unfold textAt at h
  split at h
  · rename_i hn
    have hlt : n < (m.build text).free := Nat.lt_succ_of_lt hn
    exact (if_pos hlt).trans ((if_neg (Nat.ne_of_lt hn)).trans h)
  · cases h

/-- Only the last text counts. -/
theorem setText_setText (m : Contents X) (n : Nat) (text text' : String) :
    (m.setText n text).setText n text' = m.setText n text' := by
  unfold setText
  congr 1
  funext n'
  dsimp only
  split <;> rfl

end Contents

/-- May a value of the type be this datum?  A truth value is one or zero. -/
def FieldType.Admits (t : FieldType) (d : Datum) : Prop :=
  d.kind = t.kind ∧ (t = .boolean → d = .int 0 ∨ d = .int 1)

instance (t : FieldType) (d : Datum) : Decidable (t.Admits d) := inferInstanceAs (Decidable (_ ∧ _))

theorem FieldType.Admits.int (n : Int32) : FieldType.int.Admits (.int n) :=
  ⟨rfl, fun h => absurd h (by decide)⟩

theorem FieldType.Admits.float (x : Binary32) : FieldType.float.Admits (.float x) :=
  ⟨rfl, fun h => absurd h (by decide)⟩

theorem FieldType.Admits.ref (t : RefType) (address : Option Nat) :
    (FieldType.ref t).Admits (.ref address) :=
  ⟨rfl, fun h => by cases h⟩

/-- The last bit of a number. -/
def Datum.narrow : Datum → Datum
  | .int n => .int (n &&& 1)
  | d => d

theorem Datum.narrow_of_admits {d : Datum} (h : FieldType.boolean.Admits d) : d.narrow = d := by
  rcases h.2 rfl with rfl | rfl <;> rfl

/-- What a field keeps of a value: the last bit if it is a truth value. -/
def MemberName.stored (name : MemberName) (d : Datum) : Datum :=
  if name.descriptor = FieldType.boolean.render then d.narrow else d

/-- **A field keeps a value of its type.** -/
theorem FieldRef.stored_of_admits {f : FieldRef} {d : Datum} (h : f.type.Admits d) :
    f.member.stored d = d := by
  unfold MemberName.stored
  split
  · rename_i hdescriptor
    change f.type.render = _ at hdescriptor
    cases d with
    | float | ref => rfl
    | int n =>
      generalize f.type = t at h hdescriptor
      cases t with
      | ref t => cases h.1
      | base t =>
        cases t with
        | boolean => exact Datum.narrow_of_admits h
        | float => cases h.1
        | int => exact absurd hdescriptor (by decide)
  · rfl

/-! ### Platforms -/

/-- A processor with cells, as far as it is left open. -/
structure Platform (X : Type) where
  /-- The floating point number that an integer is rounded to. -/
  round : Int32 → Binary32
  /-- The integer that a floating point number is cut off to. -/
  truncate : Binary32 → Int32
  arithmetic : BinaryOp → Binary32 → Binary32 → Binary32
  /-- The field that a name stands for. -/
  resolve : MemberName → Nat
  /-- Does an array take a value? -/
  takes : Nat → Datum → Bool
  floatText : Binary32 → String
  /-- An object is asked for its text. -/
  describe : Nat → Contents X → String × Contents X
  /-- What a test leaves behind. -/
  test : Contents X → Contents X
  /-- What the instructions do that no assignment is made of. -/
  other : Opcode → Bool → Bytes → Processor.State (Contents X) →
    Option (Processor.Action (Contents X))
  round_one : round 1 = ⟨0x3F800000⟩

namespace Platform

open Processor (State Action)

variable {X : Type} (P : Platform X) (q : ConstantPool)

/-- Writes a cell.  An array has all its elements from the start, and takes only
some references. -/
def write? (c : Cell) (d : Datum) (m : Contents X) : Option (Contents X) :=
  match c with
  | .element array _ =>
    if (m.cells c).isSome ∧ P.takes array d = true then some (m.set c d) else none
  | _ => some (m.set c d)

/-- Writing a cell changes nothing else. -/
theorem eq_set_of_write {c : Cell} {d : Datum} {m m' : Contents X} (h : P.write? c d m = some m') :
    m' = m.set c d := by
  cases c with
  | element array index =>
    rw [write?] at h
    split at h
    · exact (Option.some.inj h).symm
    · cases h
  | _ => exact (Option.some.inj h).symm

/-- The text of a value of a type. -/
def text? (t : FieldType) (d : Datum) (m : Contents X) : Option (String × Contents X) :=
  match t, d with
  | .base .int, .int n => some (toString n.toInt, m)
  | .base .boolean, .int n => some (if n = 0 then "false" else "true", m)
  | .base .float, .float x => some (P.floatText x, m)
  | .ref _, .ref none => some ("null", m)
  | .ref t, .ref (some address) =>
    if FieldType.ref t = .string then (m.textAt address).map (·, m)
    else some (P.describe address m)
  | _, _ => none

/-- The stack rearranged. -/
def arrange? : Opcode → List Datum → Option (List Datum)
  | .dup, d :: S => some (d :: d :: S)
  | .dupX1, d :: e :: S => some (d :: e :: d :: S)
  | .dupX2, d :: e :: f :: S => some (d :: e :: f :: d :: S)
  | .dup2, d :: e :: S => some (d :: e :: d :: e :: S)
  | .swap, d :: e :: S => some (e :: d :: S)
  | _, _ => none

/-- Calculations on the stack. -/
def compute? (op : Opcode) (S : List Datum) : Option (List Datum) :=
  match op, S with
  | .fconst1, S => some (.float ⟨0x3F800000⟩ :: S)
  | .f2i, .float x :: S => some (.int (P.truncate x) :: S)
  | .fadd, .float y :: .float x :: S => some (.float (P.arithmetic .add x y) :: S)
  | .fsub, .float y :: .float x :: S => some (.float (P.arithmetic .sub x y) :: S)
  | .fmul, .float y :: .float x :: S => some (.float (P.arithmetic .mul x y) :: S)
  | .fdiv, .float y :: .float x :: S => some (.float (P.arithmetic .div x y) :: S)
  | .frem, .float y :: .float x :: S => some (.float (P.arithmetic .rem x y) :: S)
  | _, .int b :: .int a :: S => (Machine.binary? op a b).map fun n => .int n :: S
  | _, _ => none

/-- Pushes what a slot holds. -/
def loadSlot? (kind : ValueKind) (slot : Option Nat) (s : State (Contents X)) :
    Option (Action (Contents X)) := do
  let d ← s.rest.cells (.slot (← slot))
  if d.kind = kind then some (.go ⟨d :: s.stack, s.rest⟩) else none

/-- Pops a value into a slot. -/
def storeSlot? (kind : ValueKind) (slot : Option Nat) (s : State (Contents X)) :
    Option (Action (Contents X)) :=
  match slot, s.stack with
  | some n, d :: S => if d.kind = kind then some (.go ⟨S, s.rest.set (.slot n) d⟩) else none
  | _, _ => none

/-- Adds an amount to a slot. -/
def increment? (slot : Option Nat) (amount : Option Int32) (s : State (Contents X)) :
    Option (Action (Contents X)) := do
  let n ← slot
  match s.rest.cells (.slot n), amount with
  | some (.int v), some k => some (.go ⟨s.stack, s.rest.set (.slot n) (.int (v + k))⟩)
  | _, _ => none

/-- Where the value of a field is kept, which may be in an object. -/
def fieldCell (f : FieldRef) (object : Nat) : Cell :=
  if f.isStatic then .shared (P.resolve f.member) else .field object (P.resolve f.member)

/-- Reads or writes a field. -/
def access? (op : Opcode) (name : MemberName) (s : State (Contents X)) :
    Option (Action (Contents X)) :=
  match op, s.stack with
  | .getstatic, S => do
    let d ← s.rest.cells (.shared (P.resolve name))
    some (.go ⟨d :: S, s.rest⟩)
  | .putstatic, d :: S =>
    some (.go ⟨S, s.rest.set (.shared (P.resolve name)) (name.stored d)⟩)
  | .getfield, .ref (some object) :: S => do
    let d ← s.rest.cells (.field object (P.resolve name))
    some (.go ⟨d :: S, s.rest⟩)
  | .putfield, d :: .ref (some object) :: S =>
    some (.go ⟨S, s.rest.set (.field object (P.resolve name)) (name.stored d)⟩)
  | _, _ => none

/-- Replaces an array and an index by the element. -/
def loadElement? (kind : ValueKind) (s : State (Contents X)) : Option (Action (Contents X)) :=
  match s.stack with
  | .int index :: .ref (some array) :: S => do
    let d ← s.rest.cells (.element array index)
    if d.kind = kind then some (.go ⟨d :: S, s.rest⟩) else none
  | _ => none

/-- Pops a value into an element of an array, which keeps a part of it. -/
def storeElement? (kind : ValueKind) (part : Datum → Datum) (s : State (Contents X)) :
    Option (Action (Contents X)) :=
  match s.stack with
  | d :: .int index :: .ref (some array) :: S => do
    let m ← P.write? (.element array index) (part d) s.rest
    if d.kind = kind then some (.go ⟨S, m⟩) else none
  | _ => none

/-- The types that a string builder has methods for. -/
def appendTypes : List FieldType := [.int, .boolean, .float, .string, .object .object]

/-- The type of what a method appends to a string builder. -/
def appended? (name : MemberName) : Option FieldType :=
  appendTypes.find? fun t => (Lowering.appendMethod t).member = name

/-- Makes a string builder, and works with it. -/
def builder? (op : Opcode) (index : UInt16) (s : State (Contents X)) :
    Option (Action (Contents X)) :=
  match op, s.stack with
  | .newObject, S =>
    if q.className? index = some BinaryName.stringBuilder.text then
      some (.go ⟨.ref (some s.rest.free) :: S, s.rest.allocate⟩)
    else none
  | .invokespecial, .ref (some b) :: S =>
    if q.member? index = some (MethodRef.constructor .stringBuilder []).member then
      some (.go ⟨S, s.rest.setText b ""⟩)
    else none
  | .invokevirtual, d :: S =>
    if q.member? index = some Lowering.toStringMethod.member then
      match d with
      | .ref (some b) => do
        let text ← s.rest.textAt b
        some (.go ⟨.ref (some s.rest.free) :: S, s.rest.build text⟩)
      | _ => none
    else
      match S with
      | .ref (some b) :: S => do
        let t ← appended? (← q.member? index)
        let (text, m) ← P.text? t d s.rest
        let old ← m.textAt b
        some (.go ⟨.ref (some b) :: S, m.setText b (old ++ text)⟩)
      | _ => none
  | _, _ => none

/-- The index among the operand bytes. -/
def index? : Bytes → Option UInt16
  | [high, low] => some (Machine.word high low)
  | _ => none

/-- What an instruction does; none if it is stuck. -/
def exec (op : Opcode) (wide : Bool) (operands : Bytes) (s : State (Contents X)) :
    Option (Action (Contents X)) :=
  match op with
  | .dup | .dupX1 | .dupX2 | .dup2 | .swap => do
    let S ← arrange? op s.stack
    some (.go ⟨S, s.rest⟩)
  | .fconst1 | .f2i | .fadd | .fsub | .fmul | .fdiv | .frem | .iadd | .isub | .imul | .idiv | .irem
  | .iand | .ior | .ixor | .ishl | .ishr | .iushr => do
    let S ← P.compute? op s.stack
    some (.go ⟨S, s.rest⟩)
  | .iload | .iload0 | .iload1 | .iload2 | .iload3 =>
    loadSlot? .int (Machine.slot? op wide operands) s
  | .fload | .fload0 | .fload1 | .fload2 | .fload3 =>
    loadSlot? .float (Machine.slot? op wide operands) s
  | .aload | .aload0 | .aload1 | .aload2 | .aload3 =>
    loadSlot? .reference (Machine.slot? op wide operands) s
  | .istore | .istore0 | .istore1 | .istore2 | .istore3 =>
    storeSlot? .int (Machine.slot? op wide operands) s
  | .fstore | .fstore0 | .fstore1 | .fstore2 | .fstore3 =>
    storeSlot? .float (Machine.slot? op wide operands) s
  | .astore | .astore0 | .astore1 | .astore2 | .astore3 =>
    storeSlot? .reference (Machine.slot? op wide operands) s
  | .iinc => increment? (Machine.slot? op wide operands) (Machine.amount? wide operands) s
  | .getstatic | .putstatic | .getfield | .putfield => do
    let name ← q.member? (← index? operands)
    P.access? op name s
  | .iaload | .baload => loadElement? .int s
  | .faload => loadElement? .float s
  | .aaload => loadElement? .reference s
  | .iastore => P.storeElement? .int id s
  | .bastore => P.storeElement? .int Datum.narrow s
  | .fastore => P.storeElement? .float id s
  | .aastore => P.storeElement? .reference id s
  | .newObject | .invokespecial | .invokevirtual =>
    (do P.builder? q op (← index? operands) s) <|> P.other op wide operands s
  | _ => P.other op wide operands s

/-- The processor of a class with the given constants. -/
def processor : Processor (Contents X) where
  round := P.round
  test := P.test
  other := P.exec q

/-! ### What the instructions do to a run -/

section Code

open Lowering

variable {P q} {W : Whole} {slots : LocalSlots} {S S' : List Datum} {m m' : Contents X}
  {d e : Datum} {op : Opcode}

/-- **The stack is rearranged.** -/
theorem follows_arrange (h : arrange? op S = some S') (m : Contents X) :
    (P.processor q).Follows W slots (emit (Assembler.simple op)) (.here ⟨S, m⟩)
      (.here ⟨S', m⟩) := by
  have hop : op.operandBytes = 0 ∧ op.effect.isUnconditional = false ∧
      (P.processor q).exec op false [] ⟨S, m⟩ =
        (arrange? op S).bind fun S => some (.go ⟨S, m⟩) := by
    unfold arrange? at h
    split at h <;> first | exact ⟨rfl, rfl, rfl⟩ | cases h
  obtain ⟨hbytes, hconditional, hexec⟩ := hop
  refine Processor.follows_push (.common (.simple hbytes)) hconditional (hexec.trans ?_)
  rw [h, Option.bind_some]

/-- One, as a floating point number. -/
theorem follows_one (S : List Datum) (m : Contents X) :
    (P.processor q).Follows W slots (emit (Assembler.pushFloat ⟨0x3F800000⟩)) (.here ⟨S, m⟩)
      (.here ⟨.float (P.round 1) :: S, m⟩) := by
  rw [P.round_one]
  exact Processor.follows_push (i := .simple .fconst1) (.common (.simple rfl)) rfl rfl

theorem follows_truncate (x : Binary32) (S : List Datum) (m : Contents X) :
    (P.processor q).Follows W slots (emit (Assembler.simple .f2i)) (.here ⟨.float x :: S, m⟩)
      (.here ⟨.int (P.truncate x) :: S, m⟩) :=
  Processor.follows_push (.common (.simple rfl)) rfl rfl

/-- Is the operator one of the five that numbers of both kinds have? -/
def isArithmetic : BinaryOp → Bool
  | .add | .sub | .mul | .div | .rem => true
  | _ => false

/-- **An operator on two integers.** -/
theorem follows_operate_ints (blamed : Expr) {op : BinaryOp} {a b n : Int32}
    (h : op.ints a b = some n) (S : List Datum) (m : Contents X) :
    (P.processor q).Follows W slots (operate blamed op .int) (.here ⟨.int b :: .int a :: S, m⟩)
      (.here ⟨.int n :: S, m⟩) := by
  have hop : ∃ opcode, binaryOpcode op .int = some opcode ∧ opcode.operandBytes = 0 ∧
      opcode.effect.isUnconditional = false ∧
      (P.processor q).exec opcode false [] ⟨.int b :: .int a :: S, m⟩ =
        ((op.ints a b).map fun n => Datum.int n :: S).bind fun S => some (.go ⟨S, m⟩) := by
    cases op <;> exact ⟨_, rfl, rfl, rfl, rfl⟩
  obtain ⟨opcode, hopcode, hbytes, hconditional, hexec⟩ := hop
  unfold operate
  rw [hopcode]
  refine Processor.follows_push (.common (.simple hbytes)) hconditional (hexec.trans ?_)
  rw [h]
  rfl

/-- **An operator on two floating point numbers.** -/
theorem follows_operate_floats (blamed : Expr) {op : BinaryOp} (h : isArithmetic op = true)
    (x y : Binary32) (S : List Datum) (m : Contents X) :
    (P.processor q).Follows W slots (operate blamed op .float)
      (.here ⟨.float y :: .float x :: S, m⟩) (.here ⟨.float (P.arithmetic op x y) :: S, m⟩) := by
  cases op with
  | add | sub | mul | div | rem => exact Processor.follows_push (.common (.simple rfl)) rfl rfl
  | _ => cases h

/-- All forms of an access do the same with the slot that it was made for. -/
theorem exec_slotAccess {short : List Opcode} {general : Opcode}
    {act : Option Nat → State (Contents X) → Option (Action (Contents X))}
    (hact : ∀ op ∈ general :: short, ∀ wide operands s,
      (P.processor q).exec op wide operands s = act (Machine.slot? op wide operands) s)
    (hshort : ∀ (n : Nat) (h : n < short.length), short[n].implicitSlot = some (UInt16.ofNat n))
    (hgeneral : general.implicitSlot = none) (slot : UInt16) (s : State (Contents X)) :
    (P.processor q).exec (Instruction.slotAccess short general slot).opcode
      (Instruction.slotAccess short general slot).wide
      (Instruction.slotAccess short general slot).operands s = act (some slot.toNat) s := by
  rw [hact _ (Machine.opcode_slotAccess short general slot),
    Machine.slot?_slotAccess short general slot hshort hgeneral]

theorem exec_load (kind : ValueKind) (slot : UInt16) (s : State (Contents X)) :
    (P.processor q).exec (Instruction.load kind slot).opcode (Instruction.load kind slot).wide
      (Instruction.load kind slot).operands s = loadSlot? kind (some slot.toNat) s := by
  cases kind <;> refine exec_slotAccess (fun op hop => ?_) (by decide) rfl slot s <;>
    simp only [List.mem_cons, List.not_mem_nil, or_false] at hop <;>
    rcases hop with rfl | rfl | rfl | rfl | rfl <;> exact fun _ _ _ => rfl

theorem exec_store (kind : ValueKind) (slot : UInt16) (s : State (Contents X)) :
    (P.processor q).exec (Instruction.store kind slot).opcode (Instruction.store kind slot).wide
      (Instruction.store kind slot).operands s = storeSlot? kind (some slot.toNat) s := by
  cases kind <;> refine exec_slotAccess (fun op hop => ?_) (by decide) rfl slot s <;>
    simp only [List.mem_cons, List.not_mem_nil, or_false] at hop <;>
    rcases hop with rfl | rfl | rfl | rfl | rfl <;> exact fun _ _ _ => rfl

/-- **The value of a slot is pushed.** -/
theorem follows_loadLocal {slot : UInt16} {t : FieldType}
    (h : m.cells (.slot slot.toNat) = some d) (hd : d.kind = t.kind) (S : List Datum) :
    (P.processor q).Follows W slots (emit (Assembler.loadLocal slot t)) (.here ⟨S, m⟩)
      (.here ⟨d :: S, m⟩) := by
  refine Processor.follows_push (.common (.loadLocal slot t))
    (by rw [(Frame.effect_load _ _).1]; rfl) ((exec_load _ _ _).trans ?_)
  unfold loadSlot?
  dsimp only [Option.bind_eq_bind, Option.bind_some]
  rw [h, Option.bind_some, if_pos hd]

/-- **A value is popped into a slot.** -/
theorem follows_storeLocal (slot : UInt16) {t : FieldType} (hd : d.kind = t.kind) (S : List Datum)
    (m : Contents X) :
    (P.processor q).Follows W slots (emit (Assembler.storeLocal slot t)) (.here ⟨d :: S, m⟩)
      (.here ⟨S, m.set (.slot slot.toNat) d⟩) := by
  refine Processor.follows_push (.common (.storeLocal slot t))
    (by rw [(Frame.effect_store _ _).1]; rfl) ((exec_store _ _ _).trans ?_)
  exact if_pos hd

/-- **An amount is added to a slot.** -/
theorem follows_increment {slot : UInt16} {n : Int32}
    (h : m.cells (.slot slot.toNat) = some (.int n)) (amount : Int16) (S : List Datum) :
    (P.processor q).Follows W slots (emit (Assembler.increment slot amount)) (.here ⟨S, m⟩)
      (.here ⟨S, m.set (.slot slot.toNat) (.int (n + amount.toInt32))⟩) := by
  obtain ⟨hop, hslot, hamount⟩ := Machine.operands_increment slot amount
  refine Processor.follows_push (.common (.increment slot amount)) (by rw [hop]; rfl) ?_
  rw [hop]
  change increment? (Machine.slot? _ _ _) (Machine.amount? _ _) _ = _
  rw [hslot, hamount]
  unfold increment?
  dsimp only [Option.bind_eq_bind, Option.bind_some]
  rw [h]

/-! ### Fields and elements -/

theorem index?_u16 (index : UInt16) : index? (Bytes.u16 index) = some index :=
  congrArg some (Machine.word_bytes index)

/-- **An instruction with a constant**, of which something is true in the finished
class. -/
theorem follows_withConstant {p : Processor (Contents X)} {x : Interning UInt16}
    {types : OperandTypes} {Q : UInt16 → ConstantPool → Prop} {s s' : State (Contents X)}
    (hprimitive : (do
      let index ← x.toAssembling
      Assembler.push (.withConstant op index) types).Primitive)
    (hx : ConstantPool.Yields x Q) (hq : W.assembler.pool.Grows q)
    (hconditional : op.effect.isUnconditional = false)
    (hexec : ∀ index, Q index q → p.exec op false (Bytes.u16 index) s = some (.go s')) :
    p.Follows W slots
      (emit (do
        let index ← x.toAssembling
        Assembler.push (.withConstant op index) types)) (.here s) (.here s') where
  emits := emits_emit hprimitive
  follows c a v b hrun hgrows ha := by
    obtain ⟨index, a', hindex, hpush⟩ := bind_eq_ok (emit_eq_ok hrun).1
    obtain ⟨pool, hpool, rfl⟩ := Interning.toAssembling_eq_ok.1 hindex
    have hb : b.pool = pool := by cases Operation.run_push_iff.1 hpush <;> rfl
    have hQ : Q index q := (hx _ _ _ hpool).2 q (hb ▸ hgrows.pool.trans hq)
    exact Processor.At.push hconditional (hexec index hQ) hpush hgrows ha

theorem exec_access {index : UInt16} {name : MemberName}
    (hop : op ∈ [.getstatic, .putstatic, .getfield, .putfield])
    (h : q.member? index = some name) (s : State (Contents X)) :
    (P.processor q).exec op false (Bytes.u16 index) s = P.access? op name s := by
  have hexec : (P.processor q).exec op false (Bytes.u16 index) s =
      (index? (Bytes.u16 index)).bind fun index => (q.member? index).bind fun name =>
        P.access? op name s := by
    simp only [List.mem_cons, List.not_mem_nil, or_false] at hop
    rcases hop with rfl | rfl | rfl | rfl <;> rfl
  rw [hexec, index?_u16, Option.bind_some, h, Option.bind_some]

section Fields

variable {f : FieldRef} {object : Nat} (hq : W.assembler.pool.Grows q)

include hq

/-- **A field is read.** -/
theorem follows_getField (h : m.cells (P.fieldCell f object) = some d) (S : List Datum) :
    (P.processor q).Follows W slots (emit (Assembler.getField f))
      (.here ⟨(P.fieldCell f object).address ++ S, m⟩) (.here ⟨d :: S, m⟩) := by
  have haccess : P.access? (if f.isStatic then .getstatic else .getfield) f.member
      ⟨(P.fieldCell f object).address ++ S, m⟩ =
      (m.cells (P.fieldCell f object)).bind fun d => some (.go ⟨d :: S, m⟩) := by
    unfold fieldCell
    cases f.isStatic <;> rfl
  refine follows_withConstant (.common (.getField f)) (ConstantPool.yields_fieldName f) hq
    (by cases f.isStatic <;> rfl) fun index hindex => ?_
  rw [exec_access (by cases f.isStatic <;> decide) hindex, haccess, h, Option.bind_some]

/-- **A field is written.** -/
theorem follows_putField (hd : f.type.Admits d) (S : List Datum) (m : Contents X) :
    (P.processor q).Follows W slots (emit (Assembler.putField f))
      (.here ⟨d :: ((P.fieldCell f object).address ++ S), m⟩)
      (.here ⟨S, m.set (P.fieldCell f object) d⟩) := by
  have haccess : P.access? (if f.isStatic then .putstatic else .putfield) f.member
      ⟨d :: ((P.fieldCell f object).address ++ S), m⟩ =
      some (.go ⟨S, m.set (P.fieldCell f object) (f.member.stored d)⟩) := by
    unfold fieldCell
    cases f.isStatic <;> rfl
  refine follows_withConstant (.common (.putField f)) (ConstantPool.yields_fieldName f) hq
    (by cases f.isStatic <;> rfl) fun index hindex => ?_
  rw [exec_access (by cases f.isStatic <;> decide) hindex, haccess, FieldRef.stored_of_admits hd]

end Fields

/-- **An element is read.** -/
theorem follows_loadElement {t : FieldType} {array : Nat} {index : Int32}
    (h : m.cells (.element array index) = some d) (hd : d.kind = t.kind) (S : List Datum) :
    (P.processor q).Follows W slots (emit (Assembler.loadElement t))
      (.here ⟨.int index :: .ref (some array) :: S, m⟩) (.here ⟨d :: S, m⟩) := by
  have hop : (Assembler.loadElementOpcode t).effect.isUnconditional = false ∧
      ∀ s, (P.processor q).exec (Assembler.loadElementOpcode t) false [] s =
        loadElement? t.kind s := by
    cases t with
    | ref t => exact ⟨rfl, fun _ => rfl⟩
    | base t => cases t <;> exact ⟨rfl, fun _ => rfl⟩
  refine Processor.follows_push (.common (.loadElement t)) hop.1 ((hop.2 _).trans ?_)
  unfold loadElement?
  dsimp only [Option.bind_eq_bind]
  rw [h, Option.bind_some, if_pos hd]

/-- **An element is written.** -/
theorem follows_storeElement {t : FieldType} {array : Nat} {index : Int32} (hd : t.Admits d)
    (h : P.write? (.element array index) d m = some m') (S : List Datum) :
    (P.processor q).Follows W slots (emit (Assembler.storeElement t))
      (.here ⟨d :: .int index :: .ref (some array) :: S, m⟩) (.here ⟨S, m'⟩) := by
  have hop : (Assembler.storeElementOpcode t).effect.isUnconditional = false ∧
      ∃ part, part d = d ∧ ∀ s, (P.processor q).exec (Assembler.storeElementOpcode t) false [] s =
        P.storeElement? t.kind part s := by
    cases t with
    | ref t => exact ⟨rfl, id, rfl, fun _ => rfl⟩
    | base t =>
      cases t with
      | boolean => exact ⟨rfl, _, Datum.narrow_of_admits hd, fun _ => rfl⟩
      | float | int => exact ⟨rfl, id, rfl, fun _ => rfl⟩
  obtain ⟨hconditional, part, hpart, hexec⟩ := hop
  refine Processor.follows_push (.common (.storeElement t)) hconditional ((hexec _).trans ?_)
  unfold storeElement?
  dsimp only [Option.bind_eq_bind]
  rw [hpart, h, Option.bind_some, if_pos hd.1]

/-! ### String builders -/

theorem appendType_mem (t : FieldType) :
    appendType t ∈ appendTypes ∧ appendType (appendType t) = appendType t := by
  cases t with
  | base t => cases t <;> decide
  | ref t =>
    rw [appendType]
    split <;> decide

/-- The text of a value does not depend on the type that it is appended under. -/
theorem text?_appendType (P : Platform X) (t : FieldType) (d : Datum) (m : Contents X) :
    P.text? (appendType t) d m = P.text? t d m := by
  cases t with
  | base t => rfl
  | ref t =>
    rw [appendType]
    by_cases ht : FieldType.ref t = .string
    · rw [if_pos ht, ht]
    · have hobject : FieldType.object .object ≠ .string := by decide
      rw [if_neg ht]
      cases d with
      | int | float => rfl
      | ref address =>
        cases address with
        | none => rfl
        | some address =>
          have hdescribe : ∀ u : RefType, FieldType.ref u ≠ .string →
              P.text? (.ref u) (.ref (some address)) m = some (P.describe address m) :=
            fun u hu => if_neg hu
          exact (hdescribe (.object .object) hobject).trans (hdescribe t ht).symm

/-- The method that appends a value of a type is found by its name. -/
theorem appended?_appendMethod (t : FieldType) :
    appended? (appendMethod t).member = some (appendType t) := by
  have happend : ∀ u ∈ appendTypes, appended? (appendMethod u).member = some u := by
    decide +kernel
  have hmethod : appendMethod t = appendMethod (appendType t) := by
    rw [appendMethod, appendMethod, (appendType_mem t).2]
  rw [hmethod]
  exact happend _ (appendType_mem t).1

theorem exec_builder {index : UInt16} {s s' : State (Contents X)}
    (hop : op ∈ [.newObject, .invokespecial, .invokevirtual])
    (h : P.builder? q op index s = some (.go s')) :
    (P.processor q).exec op false (Bytes.u16 index) s = some (.go s') := by
  have hexec : (P.processor q).exec op false (Bytes.u16 index) s =
      (((index? (Bytes.u16 index)).bind fun index => P.builder? q op index s) <|>
        P.other op false (Bytes.u16 index) s) := by
    simp only [List.mem_cons, List.not_mem_nil, or_false] at hop
    rcases hop with rfl | rfl | rfl <;> rfl
  rw [hexec, index?_u16, Option.bind_some, h]
  rfl

section Builders

variable (hq : W.assembler.pool.Grows q)

include hq

/-- **A string builder is pushed** -/
theorem follows_newBuilder (S : List Datum) (m : Contents X) :
    (P.processor q).Follows W slots newBuilder (.here ⟨S, m⟩)
      (.here ⟨.ref (some m.free) :: S, m.build ""⟩) := by
  have hnew : (P.processor q).Follows W slots (emit (Assembler.newObject builderType))
      (.here ⟨S, m⟩) (.here ⟨.ref (some m.free) :: S, m.allocate⟩) :=
    follows_withConstant (.common (.newObject builderType)) (ConstantPool.yields_class _) hq rfl
      fun index hindex => exec_builder (by decide) (if_pos hindex)
  have hconstruct : (P.processor q).Follows W slots
      (emit (Assembler.construct (.constructor .stringBuilder []) builderType))
      (.here ⟨.ref (some m.free) :: .ref (some m.free) :: S, m.allocate⟩)
      (.here ⟨.ref (some m.free) :: S, m.build ""⟩) :=
    follows_withConstant (.common (.construct _ _)) (ConstantPool.yields_methodName _) hq rfl
      fun index hindex => exec_builder (by decide) (if_pos hindex)
  exact hnew.bind fun _ => (follows_arrange rfl _).bind fun _ => hconstruct

/-- **A value is appended to a string builder.** The text of the builder grows by the text
of the value, and the builder stays on the stack. -/
theorem follows_append {t : FieldType} {b : Nat} {text old : String}
    (ht : P.text? t d m = some (text, m')) (hb : m'.textAt b = some old) (S : List Datum) :
    (P.processor q).Follows W slots (append t) (.here ⟨d :: .ref (some b) :: S, m⟩)
      (.here ⟨.ref (some b) :: S, m'.setText b (old ++ text)⟩) := by
  refine follows_withConstant (.common (.invoke (appendMethod t) false))
    (ConstantPool.yields_methodName _) hq rfl fun index hindex => exec_builder (by decide) ?_
  have hname : (appendMethod t).member ≠ toStringMethod.member := by
    intro h
    have hnames : UnqualifiedName.append.text = UnqualifiedName.toStringName.text :=
      congrArg MemberName.name h
    exact absurd hnames (by decide)
  have hother : ¬ q.member? index = some toStringMethod.member := by
    rw [hindex, Option.some_inj]
    exact hname
  refine (if_neg hother).trans ?_
  dsimp only [Option.bind_eq_bind]
  rw [hindex, Option.bind_some, appended?_appendMethod, Option.bind_some, text?_appendType, ht,
    Option.bind_some]
  dsimp only
  rw [hb, Option.bind_some]

/-- **A string builder is replaced by its text.** -/
theorem follows_builderString {b : Nat} {text : String} (hb : m.textAt b = some text)
    (S : List Datum) :
    (P.processor q).Follows W slots builderString (.here ⟨.ref (some b) :: S, m⟩)
      (.here ⟨.ref (some m.free) :: S, m.build text⟩) := by
  refine follows_withConstant (.common (.invoke toStringMethod false))
    (ConstantPool.yields_methodName _) hq rfl fun index hindex => exec_builder (by decide) ?_
  refine (if_pos hindex).trans ?_
  dsimp only [Option.bind_eq_bind]
  rw [hb, Option.bind_some]

end Builders

end Code

end Platform
end ClassForge
