/-
# Code is emitted

Every computation that makes code does so by the same few computations of the
assembler (`Assembling.Primitive`), whatever the program is: common instructions, with
the constants that they need (`Assembling.Common`), and what has to do with labels.
What is emitted that way is built by regular operations (`Emitted.built`).

| computation | the code | the slots of locals |
| --- | --- | --- |
| `Lowering.Emits` | is emitted | stay the same |
| `Lowering.Adds` | is emitted | may change |
-/

import ClassForge.Compiler
import ClassForge.Proofs.Growth

namespace ClassForge

/-! ### Computations of the assembler

A computation `Builds` if it does nothing but regular operations.  It is enough to know it of each
single operation and of each constant that is added. -/

namespace Assembling

/-- The computation builds code. -/
def Builds {α : Type} (x : Assembling α) : Prop :=
  ∀ (a : Assembler) (v : α) (b : Assembler), x a = .ok v b → Built a b

variable {α β : Type}

theorem Builds.bind {x : Assembling α} {f : α → Assembling β} (hx : x.Builds)
    (hf : ∀ v, (f v).Builds) : (x >>= f).Builds := by
  intro a w c h
  obtain ⟨v, b, hv, h⟩ := bind_eq_ok h
  exact (hx a v b hv).trans (hf v b w c h)

theorem builds_of_advances {x : Assembling α} (o : Operation) (ho : o.Regular)
    (h : ∀ a v b, x a = .ok v b → Advances o a b) : x.Builds :=
  fun a v b hx => .single ho (h a v b hx)

end Assembling

namespace Interning

/-- Constants may be added one after the other. -/
theorem toAssembling_bind {α β : Type} (x : Interning α) (f : α → Interning β) :
    (x >>= f).toAssembling = x.toAssembling >>= fun v => (f v).toAssembling := by
  funext a
  cases hx : x a.pool with
  | ok v pool =>
    rw [bind_of_ok (toAssembling_of_ok hx)]
    unfold toAssembling
    simp only [bind_of_ok hx]
  | error e pool =>
    rw [bind_of_error (toAssembling_of_error hx), toAssembling_of_error (bind_of_error hx)]

theorem builds_intern (c : Constant) : ((ConstantPool.intern c).toAssembling).Builds := by
  refine Assembling.builds_of_advances (.constant c) trivial fun a v b h => ?_
  obtain ⟨pool, hpool, rfl⟩ := toAssembling_eq_ok.1 h
  exact .constant hpool

theorem builds_className (name : String) : ((ConstantPool.className name).toAssembling).Builds := by
  unfold ConstantPool.className
  rw [toAssembling_bind]
  exact (builds_intern _).bind fun _ => builds_intern _

theorem builds_nameAndType (name descriptor : String) :
    ((ConstantPool.nameAndType name descriptor).toAssembling).Builds := by
  unfold ConstantPool.nameAndType
  simp only [toAssembling_bind]
  exact (builds_intern _).bind fun _ => (builds_intern _).bind fun _ => builds_intern _

theorem builds_fieldRef (f : FieldRef) : ((ConstantPool.fieldRef f).toAssembling).Builds := by
  unfold ConstantPool.fieldRef
  simp only [toAssembling_bind]
  exact (builds_className _).bind fun _ => (builds_nameAndType _ _).bind fun _ => builds_intern _

theorem builds_methodRef (m : MethodRef) : ((ConstantPool.methodRef m).toAssembling).Builds := by
  unfold ConstantPool.methodRef
  simp only [toAssembling_bind]
  exact (builds_className _).bind fun _ => (builds_nameAndType _ _).bind fun _ => builds_intern _

theorem builds_string (text : String) : ((ConstantPool.string text).toAssembling).Builds := by
  unfold ConstantPool.string
  rw [toAssembling_bind]
  exact (builds_intern _).bind fun _ => builds_intern _

end Interning

/-! ### Plain instructions

Each constructor gives a plain instruction, with as many operand bytes as are read behind its
opcode, and without a target. -/

namespace Instruction

variable {i : Instruction}

theorem plain_of_narrow (hwide : i.wide = false)
    (hlength : i.operands.length = i.opcode.operandBytes) (ht : i.target? = none) : i.Plain where
  operands := by simp [Disassembly.operandCount, hwide, hlength]
  wide h := by
    rw [hwide] at h
    cases h
  target := ht

theorem plain_simple {op : Opcode} (h : op.operandBytes = 0) : (simple op).Plain :=
  plain_of_narrow rfl h.symm rfl

theorem plain_withConstant {op : Opcode} (h : op.operandBytes = 2) (index : UInt16) :
    (withConstant op index).Plain :=
  plain_of_narrow rfl h.symm rfl

theorem plain_loadConstant (index : UInt16) : (loadConstant index).Plain := by
  unfold loadConstant
  split <;> exact plain_of_narrow rfl rfl rfl

theorem plain_pushInt {n : Int} (h : pushInt? n = some i) : i.Plain := by
  unfold pushInt? at h
  repeat' split at h
  all_goals first | cases h; exact plain_of_narrow rfl rfl rfl | cases h

theorem plain_pushFloat {x : Binary32} (h : pushFloat? x = some i) : i.Plain := by
  unfold pushFloat? at h
  repeat' split at h
  all_goals first | cases h; exact plain_of_narrow rfl rfl rfl | cases h

/-- Access to a slot by a short form, one byte or two bytes. -/
theorem plain_slotAccess {short : List Opcode} {general : Opcode} (slot : UInt16)
    (hshort : ∀ op ∈ short, op.operandBytes = 0) (hgeneral : general.operandBytes = 1)
    (hwide : general.hasSlotOperand = true) : (slotAccess short general slot).Plain := by
  unfold slotAccess
  split
  · rename_i op hop
    exact plain_of_narrow rfl (hshort op (List.mem_of_getElem? hop)).symm rfl
  · split
    · exact plain_of_narrow rfl hgeneral.symm rfl
    · exact ⟨⟨by simp [Disassembly.operandCount, hgeneral], fun _ => hwide⟩, rfl⟩

theorem plain_load (kind : ValueKind) (slot : UInt16) : (load kind slot).Plain := by
  cases kind <;> exact plain_slotAccess slot (by decide) rfl rfl

theorem plain_store (kind : ValueKind) (slot : UInt16) : (store kind slot).Plain := by
  cases kind <;> exact plain_slotAccess slot (by decide) rfl rfl

theorem plain_increment (slot : UInt16) (amount : Int16) : (increment slot amount).Plain := by
  unfold increment
  split
  · exact plain_of_narrow rfl rfl rfl
  · exact ⟨⟨rfl, fun _ => rfl⟩, rfl⟩

end Instruction

/-! ### Single operations

Each operation of the assembler, taken by itself, builds. -/

namespace Assembler

open Assembling (Builds)

theorem builds_push {i : Instruction} (hi : i.Plain) (types : OperandTypes) :
    Builds (push i types) :=
  Assembling.builds_of_advances (.push i types) hi fun _ _ _ h => Operation.run_eq_ok.1 h

theorem builds_branch {op : Opcode} (h : op.effect.isBranch = true) (target : Label) :
    Builds (branch op target) :=
  Assembling.builds_of_advances (.branch op target) h fun _ _ _ h => Operation.run_eq_ok.1 h

theorem builds_place (label : Label) : Builds (place label) :=
  Assembling.builds_of_advances (.place label) trivial fun _ _ _ h => Operation.run_eq_ok.1 h

theorem builds_newLabel (limit : Option Nat) : Builds (newLabel { limit }) := by
  refine Assembling.builds_of_advances (.label limit) trivial fun a v b h => ?_
  cases h
  exact .label limit a

theorem builds_killLocals (first : Nat) : Builds (killLocals first) :=
  Assembling.builds_of_advances (.killLocals first) trivial fun _ _ _ h => Operation.run_eq_ok.1 h

theorem builds_noteLocals (count : Nat) : Builds (noteLocals count) :=
  Assembling.builds_of_advances (.noteLocals count) trivial fun _ _ _ h => Operation.run_eq_ok.1 h

theorem builds_generalize (type : FrameType) : Builds (generalize type) :=
  Assembling.builds_of_advances (.generalize type) trivial fun _ _ _ h => Operation.run_eq_ok.1 h

end Assembler

/-! ### Common instructions

`Common` lists what code consists of beside branches and labels.  All of it is `Straight`, and
hence builds. -/

namespace Assembling

/-- The computation adds constants and then a plain instruction, or it changes the
frame; it has nothing to do with labels. -/
inductive Straight : Assembling Unit → Prop where
  | push {i : Instruction} (hi : i.Plain) (types : OperandTypes) :
    Straight (Assembler.push i types)
  | constant {x : Interning UInt16} {f : UInt16 → Assembling Unit} (hx : x.toAssembling.Builds)
    (hf : ∀ index, Straight (f index)) : Straight (x.toAssembling >>= f)
  | killLocals (first : Nat) : Straight (Assembler.killLocals first)
  | generalize (type : FrameType) : Straight (Assembler.generalize type)

namespace Straight

variable {x : Interning UInt16}

theorem builds {x : Assembling Unit} (h : x.Straight) : x.Builds := by
  induction h with
  | push hi types => exact Assembler.builds_push hi types
  | constant hx _ ih => exact hx.bind ih
  | killLocals first => exact Assembler.builds_killLocals first
  | generalize type => exact Assembler.builds_generalize type

theorem withConstant (hx : x.toAssembling.Builds) {op : Opcode} (h : op.operandBytes = 2)
    (types : OperandTypes) :
    Straight (do
      let index ← x.toAssembling
      Assembler.push (.withConstant op index) types) :=
  .constant hx fun index => .push (Instruction.plain_withConstant h index) types

/-- A constant of the pool. -/
theorem loadConstant (hx : x.toAssembling.Builds) (types : OperandTypes) :
    Straight (do
      let index ← x.toAssembling
      Assembler.push (.loadConstant index) types) :=
  .constant hx fun index => .push (Instruction.plain_loadConstant index) types

theorem pushInt (value : Int32) : Straight (Assembler.pushInt value) := by
  unfold Assembler.pushInt
  split
  · rename_i i hi
    exact .push (Instruction.plain_pushInt hi) _
  · exact .loadConstant (Interning.builds_intern _) _

theorem pushFloat (value : Binary32) : Straight (Assembler.pushFloat value) := by
  unfold Assembler.pushFloat
  split
  · rename_i i hi
    exact .push (Instruction.plain_pushFloat hi) _
  · exact .loadConstant (Interning.builds_intern _) _

theorem invoke (method : MethodRef) (viaSuper : Bool) :
    Straight (Assembler.invoke method viaSuper) := by
  refine .constant (Interning.builds_methodRef method) fun index => .push ?_ _
  unfold Assembler.callInstruction
  split <;> exact Instruction.plain_of_narrow rfl rfl rfl

theorem newArray (type : RefType) (dimensions : Nat) :
    Straight (Assembler.newArray type dimensions) := by
  unfold Assembler.newArray
  split
  · exact .push (Instruction.plain_of_narrow rfl rfl rfl) _
  · exact .withConstant (Interning.builds_className _) rfl _
  · exact .constant (Interning.builds_className _) fun index =>
      .push (Instruction.plain_of_narrow rfl rfl rfl) _

end Straight

/-- A common instruction, with the constants that it needs, or a change of the
frame. -/
inductive Common : Assembling Unit → Prop where
  | simple {op : Opcode} (h : op.operandBytes = 0) : Common (Assembler.simple op)
  | killLocals (first : Nat) : Common (Assembler.killLocals first)
  | generalize (type : FrameType) : Common (Assembler.generalize type)
  | pushInt (value : Int32) : Common (Assembler.pushInt value)
  | pushFloat (value : Binary32) : Common (Assembler.pushFloat value)
  | pushString (text : String) : Common (Assembler.pushString text)
  | loadLocal (slot : UInt16) (type : FieldType) : Common (Assembler.loadLocal slot type)
  | storeLocal (slot : UInt16) (type : FieldType) : Common (Assembler.storeLocal slot type)
  | increment (slot : UInt16) (amount : Int16) : Common (Assembler.increment slot amount)
  | getField (field : FieldRef) : Common (Assembler.getField field)
  | putField (field : FieldRef) : Common (Assembler.putField field)
  | invoke (method : MethodRef) (viaSuper : Bool) : Common (Assembler.invoke method viaSuper)
  | construct (method : MethodRef) (type : RefType) : Common (Assembler.construct method type)
  | newObject (type : RefType) : Common (Assembler.newObject type)
  | newArray (type : RefType) (dimensions : Nat) : Common (Assembler.newArray type dimensions)
  | checkCast (type : RefType) : Common (Assembler.checkCast type)
  | instanceOf (type : RefType) : Common (Assembler.instanceOf type)

namespace Common

theorem exit (type : Option FieldType) : Common (Assembler.exit type) := by
  refine .simple ?_
  unfold Assembler.returnOpcode
  split
  · rfl
  · split <;> rfl

theorem loadElement (type : FieldType) : Common (Assembler.loadElement type) :=
  .simple (by unfold Assembler.loadElementOpcode; split <;> rfl)

theorem storeElement (type : FieldType) : Common (Assembler.storeElement type) :=
  .simple (by unfold Assembler.storeElementOpcode; split <;> rfl)

/-- Common instructions are straight: they have nothing to do with labels. -/
theorem straight {x : Assembling Unit} (h : x.Common) : x.Straight := by
  cases h with
  | simple h => exact .push (Instruction.plain_simple h) _
  | killLocals first => exact .killLocals first
  | generalize type => exact .generalize type
  | pushInt value => exact .pushInt value
  | pushFloat value => exact .pushFloat value
  | pushString text => exact .loadConstant (Interning.builds_string text) _
  | loadLocal slot type => exact .push (Instruction.plain_load type.kind slot) _
  | storeLocal slot type => exact .push (Instruction.plain_store type.kind slot) _
  | increment slot amount => exact .push (Instruction.plain_increment slot amount) _
  | getField field => exact .withConstant (Interning.builds_fieldRef field) (by split <;> rfl) _
  | putField field => exact .withConstant (Interning.builds_fieldRef field) (by split <;> rfl) _
  | invoke method viaSuper => exact .invoke method viaSuper
  | construct method type => exact .withConstant (Interning.builds_methodRef method) rfl _
  | newObject type => exact .withConstant (Interning.builds_className _) rfl _
  | newArray type dimensions => exact .newArray type dimensions
  | checkCast type => exact .withConstant (Interning.builds_className _) rfl _
  | instanceOf type => exact .withConstant (Interning.builds_className _) rfl _

end Common

/-! ### The computations that code is made of -/

/-- One of the computations that all code is made of. -/
inductive Primitive : {α : Type} → Assembling α → Prop where
  | common {x : Assembling Unit} (h : x.Common) : Primitive x
  | branch {op : Opcode} (h : op.effect.isBranch = true) (target : Label) :
    Primitive (Assembler.branch op target)
  | place (label : Label) : Primitive (Assembler.place label)
  | newLabel (limit : Option Nat) : Primitive (Assembler.newLabel { limit })
  | noteLocals (count : Nat) : Primitive (Assembler.noteLocals count)

/-- **Everything that code is made of builds code by regular operations.** All that is known
of those holds for what the compiler emits. -/
theorem Primitive.builds {α : Type} {x : Assembling α} (h : x.Primitive) : x.Builds := by
  cases h with
  | common h => exact h.straight.builds
  | branch h target => exact Assembler.builds_branch h target
  | place label => exact Assembler.builds_place label
  | newLabel limit => exact Assembler.builds_newLabel limit
  | noteLocals count => exact Assembler.builds_noteLocals count

end Assembling

/-- One assembler is another after some of the computations that code is made of. -/
inductive Emitted (a : Assembler) : Assembler → Prop where
  | refl : Emitted a a
  | step {α : Type} {x : Assembling α} {v : α} {b c : Assembler} (hab : Emitted a b)
    (hx : x.Primitive) (h : x b = .ok v c) : Emitted a c

namespace Emitted

variable {a b c : Assembler}

theorem trans (hab : Emitted a b) (hbc : Emitted b c) : Emitted a c := by
  induction hbc with
  | refl => exact hab
  | step _ hx h ih => exact ih.step hx h

/-- What is emitted is built. -/
theorem built (hab : Emitted a b) : Built a b := by
  induction hab with
  | refl => exact .refl a
  | step _ hx h ih => exact ih.trans (hx.builds _ _ _ h)

end Emitted

/-! ### Computations that make code

Emission is kept by sequences and loops, so that only the primitives have to be looked at. -/

namespace Lowering

variable {α β : Type}
  {a b : Assembler} {slots : LocalSlots} {x : Lowering α} {v : α} {f : α → Lowering β}

/-- What goes on after a success. -/
theorem bind_of_ok {slots' : LocalSlots} (h : x slots a = .ok (v, slots') b) :
    (x >>= f) slots a = f v slots' b :=
  ClassForge.bind_of_ok (f := fun p : α × LocalSlots => f p.1 p.2) h

theorem bind_of_error {e : CompileError} (h : x slots a = .error e b) :
    (x >>= f) slots a = .error e b :=
  ClassForge.bind_of_error (f := fun p : α × LocalSlots => f p.1 p.2) h

theorem bind_eq_ok {c : Assembler} {r : β × LocalSlots} (h : (x >>= f) slots a = .ok r c) :
    ∃ v slots' b, x slots a = .ok (v, slots') b ∧ f v slots' b = .ok r c := by
  obtain ⟨⟨v, slots'⟩, b, hx, hf⟩ :=
    ClassForge.bind_eq_ok (f := fun p : α × LocalSlots => f p.1 p.2) h
  exact ⟨v, slots', b, hx, hf⟩

/-- The computation emits code and leaves the slots as they are. -/
def Emits (x : Lowering α) : Prop :=
  ∀ (slots : LocalSlots) (a : Assembler) (v : α) (slots' : LocalSlots) (b : Assembler),
    x slots a = .ok (v, slots') b → Emitted a b ∧ slots' = slots

theorem emits_pure (v : α) : Emits (pure v) := by
  rintro slots a w slots' b ⟨⟩
  exact ⟨.refl, rfl⟩

theorem Emits.bind (hx : Emits x) (hf : ∀ v, Emits (f v)) : Emits (x >>= f) := by
  intro slots a w slots' c h
  obtain ⟨v, slots'', b, hv, h⟩ := bind_eq_ok h
  obtain ⟨hab, hslots⟩ := hx slots a v slots'' b hv
  obtain ⟨hbc, hslots'⟩ := hf v slots'' b w slots' c h
  exact ⟨hab.trans hbc, hslots'.trans hslots⟩

/-- What an emitted computation does it does to the assembler alone. -/
theorem emit_eq_ok {x : Assembling α} {slots' : LocalSlots}
    (h : emit x slots a = .ok (v, slots') b) :
    x a = .ok v b ∧ slots' = slots := by
  unfold emit at h
  split at h
  · rename_i v' a' hv
    cases h
    exact ⟨hv, rfl⟩
  · cases h

theorem emit_of_ok {x : Assembling α} (h : x a = .ok v b) : emit x slots a = .ok (v, slots) b := by
  unfold emit
  rw [h]

theorem emits_emit {x : Assembling α} (h : x.Primitive) : Emits (emit x) := by
  intro slots a v slots' b hx
  obtain ⟨hv, hslots⟩ := emit_eq_ok hx
  exact ⟨Emitted.refl.step h hv, hslots⟩

theorem emits_forM {xs : List α} {f : α → Lowering Unit} (h : ∀ x ∈ xs, Emits (f x)) :
    Emits (xs.forM f) := by
  induction xs with
  | nil => exact emits_pure ()
  | cons x xs ih =>
    change Emits (f x >>= fun _ => xs.forM f)
    exact (h x List.mem_cons_self).bind fun _ => ih fun y hy => h y (List.mem_cons_of_mem x hy)

/-- A branch is code. -/
theorem emits_branch {op : Opcode} (h : op.effect.isBranch = true) (target : Label) :
    Emits (emit (Assembler.branch op target)) :=
  emits_emit (.branch h target)

theorem emits_place (label : Label) : Emits (emit (Assembler.place label)) :=
  emits_emit (.place label)

theorem emits_freshLabel : Emits (emit Assembler.freshLabel) :=
  emits_emit (.newLabel none)

/-- The computation emits code. -/
def Adds (x : Lowering α) : Prop :=
  ∀ (slots : LocalSlots) (a : Assembler) (v : α) (slots' : LocalSlots) (b : Assembler),
    x slots a = .ok (v, slots') b → Emitted a b

end Lowering
end ClassForge
