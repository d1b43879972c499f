/-
# Counts in one byte

Two instructions hold a count in one byte:

| instruction | count | what is counted | pops |
| --- | --- | --- | --- |
| a call through an interface | `n + 1` | `n` arguments and the receiver | what the method takes |
| a new array of several dimensions | `d` | the lengths | as many as the byte says |

A method may have any number of parameters and an array any number of dimensions, and the
byte holds what is left of the count modulo 256.  No count is refused.  So a call with 255
arguments says that it has none, and of 256 lengths none is popped
(`Assembler.counts_kept_iff`).
-/

import ClassForge.Proofs.InstructionSafety
import ClassForge.Proofs.StackEffect
import ClassForge.Proofs.Storage

namespace ClassForge

/-- There is room among the constants for what is added. -/
def Interning.Fits {α : Type} (x : Interning α) (p : ConstantPool) : Prop :=
  ∃ v q, x p = .ok v q

/-- The receiver of a call is on the stack, and so many arguments above it. -/
def Frame.HoldsCall (f : Frame) (arguments : Nat) : Prop :=
  ∃ A t S, f.stack = A ++ t :: S ∧ A.length = arguments ∧ t.isReference = true

/-! ### Constants for which there is room -/

namespace ConstantPool

variable {p : ConstantPool}

theorem nameAndType_of_room (name descriptor : String) (h : p.size + 3 ≤ capacity) :
    ∃ index q, nameAndType name descriptor p = .ok index q ∧ q.size ≤ p.size + 3 := by
  obtain ⟨first, p₁, hfirst, hp₁⟩ := intern_of_room (.utf8 name) (p := p) (by omega)
  obtain ⟨second, p₂, hsecond, hp₂⟩ := intern_of_room (.utf8 descriptor) (p := p₁) (by omega)
  obtain ⟨index, p₃, hindex, hp₃⟩ :=
    intern_of_room (.nameAndType first second) (p := p₂) (by omega)
  refine ⟨index, p₃, ?_, by omega⟩
  unfold nameAndType
  rw [bind_of_ok (x := utf8 name) hfirst, bind_of_ok (x := utf8 descriptor) hsecond]
  exact hindex

theorem methodRef_of_room (m : MethodRef) (h : p.size + 6 ≤ capacity) :
    ∃ index q, methodRef m p = .ok index q ∧ q.size ≤ p.size + 6 := by
  obtain ⟨owner, p₁, howner, hp₁⟩ := className_of_room m.owner.text (p := p) (by omega)
  obtain ⟨type, p₂, htype, hp₂⟩ :=
    nameAndType_of_room m.name.text m.descriptor.render (p := p₁) (by omega)
  obtain ⟨index, p₃, hindex, hp₃⟩ :=
    intern_of_room (.methodRef owner type m.isInterface) (p := p₂) (by omega)
  refine ⟨index, p₃, ?_, by omega⟩
  unfold methodRef
  rw [bind_of_ok (x := binaryName m.owner) howner, bind_of_ok htype]
  exact hindex

theorem methodRef_fits (m : MethodRef) (h : p.size + 6 ≤ capacity) : (methodRef m).Fits p := by
  obtain ⟨index, q, hindex, -⟩ := methodRef_of_room m h
  exact ⟨index, q, hindex⟩

theorem refType_fits (t : RefType) (h : p.size + 2 ≤ capacity) : (refType t).Fits p := by
  obtain ⟨index, q, hindex, -⟩ := className_of_room t.className h
  exact ⟨index, q, hindex⟩

end ConstantPool

/-! ### What a call pops -/

namespace Frame

variable {f : Frame} {n : Nat}

/-- A call finds its arguments by the types beside it, whatever its byte says. -/
theorem step_invokeInterface_iff (index : UInt16) (count : UInt8) (arguments : Nat)
    (returns : Option FrameType) :
    (∃ g, f.step n (.invokeInterface index count) (.call arguments returns) = .ok g) ↔
      f.HoldsCall arguments := by
  change (∃ g, (call (.call arguments returns) true f.stack >>= fun stack =>
    Except.ok { f with stack }) = .ok g) ↔ _
  constructor
  · rintro ⟨g, h⟩
    obtain ⟨_, hcall, -⟩ := ok_of_bind h
    obtain ⟨below, hmany, hbelow⟩ := ok_of_bind hcall
    rw [if_pos rfl] at hbelow
    obtain ⟨r, hpop, -⟩ := ok_of_bind hbelow
    obtain ⟨A, hlength, hstack⟩ := popMany_eq_ok hmany
    rw [popKind_eq_ok hpop] at hstack
    exact ⟨A, r.1, r.2, hstack, hlength, hasKind_of_popKind hpop⟩
  · rintro ⟨A, t, S, hstack, rfl, ht⟩
    rw [hstack, call_receiver A ht returns]
    exact ⟨_, rfl⟩

end Frame

/-! ### What the assembler makes of a count -/

namespace Assembler

variable {a b : Assembler} {f : Frame}

/-- An instruction that refers to a constant is added if there is room for the constant and
the instruction can run. -/
theorem push_constant_iff {x : Interning UInt16} {i : UInt16 → Instruction}
    {types : OperandTypes} (hc : a.current = some f)
    (hi : ∀ index, (i index).opcode.effect.isBranch = false)
    (hu : ∀ index, (i index).opcode.effect.isUnconditional = false) :
    (x.toAssembling >>= fun index => push (i index) types) a = .ok () b ↔
      ∃ index pool next, x a.pool = .ok index pool ∧
        f.step a.instructions.size (i index) types = .ok next ∧
        b = { a with
          pool
          instructions := a.instructions.push (i index)
          current := some next
          maxStack := max a.maxStack next.stack.length
          maxLocals := max a.maxLocals next.locals.length } := by
  constructor
  · intro h
    obtain ⟨index, a', hindex, hpush⟩ := bind_eq_ok h
    obtain ⟨pool, hpool, rfl⟩ := Interning.toAssembling_eq_ok.1 hindex
    cases Operation.run_push_iff.1 hpush with
    | drop _ hnone => cases hnone.symm.trans hc
    | push hc' _ hs =>
      cases hc.symm.trans hc'
      refine ⟨index, pool, _, hpool, hs, ?_⟩
      rw [hu index, if_neg Bool.false_ne_true]
  · rintro ⟨index, pool, next, hpool, hs, rfl⟩
    rw [bind_of_ok (Interning.toAssembling_of_ok hpool)]
    refine (Operation.run_push_iff.2 (.push (a := { a with pool }) hc (hi index) hs)).trans ?_
    rw [hu index, if_neg Bool.false_ne_true]

section Call

variable {method : MethodRef} {viaSuper : Bool}

theorem invoke_interface (h : method.invokeKind viaSuper = .interface) :
    invoke method viaSuper = (ConstantPool.methodRef method).toAssembling >>= fun index =>
      push (.invokeInterface index (UInt8.ofNat (method.descriptor.parameters.length + 1)))
        (.call method.descriptor.parameters.length
          (method.descriptor.returns.map FieldType.verification)) := by
  unfold invoke callInstruction
  rw [h]
  rfl

/-- A call is made whatever the number of arguments, if they are there. -/
theorem invoke_succeeds_iff (hc : a.current = some f)
    (h : method.invokeKind viaSuper = .interface) :
    (∃ b, invoke method viaSuper a = .ok () b) ↔
      (ConstantPool.methodRef method).Fits a.pool ∧
        f.HoldsCall method.descriptor.parameters.length := by
  rw [invoke_interface h]
  constructor
  · rintro ⟨b, hb⟩
    obtain ⟨index, pool, next, hpool, hs, -⟩ :=
      (push_constant_iff hc (fun _ => rfl) fun _ => rfl).1 hb
    exact ⟨⟨index, pool, hpool⟩, (Frame.step_invokeInterface_iff index _ _ _).1 ⟨next, hs⟩⟩
  · rintro ⟨⟨index, pool, hpool⟩, hcall⟩
    obtain ⟨next, hs⟩ := (Frame.step_invokeInterface_iff index _ _ _).2 hcall
    exact ⟨_, (push_constant_iff hc (fun _ => rfl) fun _ => rfl).2
      ⟨index, pool, next, hpool, hs, rfl⟩⟩

theorem instructions_invoke (hc : a.current = some f)
    (h : method.invokeKind viaSuper = .interface) (hb : invoke method viaSuper a = .ok () b) :
    ∃ index count, b.instructions = a.instructions.push (.invokeInterface index count) ∧
      count.toNat = (method.descriptor.parameters.length + 1) % 256 := by
  rw [invoke_interface h] at hb
  obtain ⟨index, pool, next, -, -, rfl⟩ :=
    (push_constant_iff hc (fun _ => rfl) fun _ => rfl).1 hb
  exact ⟨index, _, rfl, UInt8.toNat_ofNat'⟩

end Call

section Array

variable {type : RefType} {d : Nat} {L : List FrameType} {S : Frame.Stack}

/-- The three ways to make an array. -/
theorem newArray_cases (type : RefType) (d : Nat) :
    (∃ element, d = 1 ∧ type = .arrayOf (.base element) ∧
      newArray type d = push (.newPrimitiveArray element) .none) ∨
    (∃ element, d = 1 ∧ newArray type d = (ConstantPool.refType element).toAssembling >>=
      fun index => push (.withConstant .anewarray index) (.value (.object type))) ∨
    newArray type d = (ConstantPool.refType type).toAssembling >>= fun index =>
      push (.newMultiArray index (UInt8.ofNat d)) (.value (.object type)) := by
  unfold newArray
  split
  · rename_i element helement
    exact .inl ⟨element, rfl, RefType.eq_arrayOf helement, rfl⟩
  · rename_i element _
    exact .inr (.inl ⟨element, rfl, rfl⟩)
  · exact .inr (.inr rfl)

/-- An array is made whatever the number of lengths, if they are there. -/
theorem newArray_succeeds_iff (hc : a.current = some ⟨L, List.replicate d .integer ++ S⟩)
    (hd : d ≠ 1) :
    (∃ b, newArray type d a = .ok () b) ↔ (ConstantPool.refType type).Fits a.pool := by
  obtain ⟨-, hone, -⟩ | ⟨-, hone, -⟩ | hmake := newArray_cases type d
  · exact absurd hone hd
  · exact absurd hone hd
  rw [hmake]
  constructor
  · rintro ⟨b, hb⟩
    obtain ⟨index, pool, -, hpool, -, -⟩ :=
      (push_constant_iff hc (fun _ => rfl) fun _ => rfl).1 hb
    exact ⟨index, pool, hpool⟩
  · rintro ⟨index, pool, hpool⟩
    exact ⟨_, (push_constant_iff hc (fun _ => rfl) fun _ => rfl).2
      ⟨index, pool, _, hpool, Frame.step_newMultiArray_byte d index _, rfl⟩⟩

/-- Lengths stay on the stack below the array, 256 for each time that the byte has gone
round. -/
theorem current_newArray (hc : a.current = some ⟨L, List.replicate d .integer ++ S⟩)
    (hb : newArray type d a = .ok () b) :
    b.current = some ⟨L, .object type :: (List.replicate (d / 256 * 256) .integer ++ S)⟩ := by
  obtain ⟨element, rfl, rfl, hmake⟩ | ⟨element, rfl, hmake⟩ | hmake := newArray_cases type d
  all_goals rw [hmake] at hb
  · cases Operation.run_push_iff.1 hb with
    | drop _ hnone => cases hnone.symm.trans hc
    | push hc' _ hs =>
      cases hc.symm.trans hc'
      cases element <;> cases hs <;> rfl
  · obtain ⟨index, pool, next, -, hs, rfl⟩ :=
      (push_constant_iff hc (fun _ => rfl) fun _ => rfl).1 hb
    cases hs
    rfl
  · obtain ⟨index, pool, next, -, hs, rfl⟩ :=
      (push_constant_iff hc (fun _ => rfl) fun _ => rfl).1 hb
    rw [Frame.step_newMultiArray_byte] at hs
    cases hs
    rfl

end Array

/-- **A count is kept if it fits in one byte, and is never refused.**  A call through an
interface holds the number of its arguments and the receiver exactly if there are fewer than
255 arguments, and a new array takes the lengths of its dimensions off the stack exactly if
there are fewer than 256.  Both are made whatever the count is; an array with one length
needs no count and has instructions of its own. -/
theorem counts_kept_iff (hc : a.current = some f) :
    (∀ (method : MethodRef) (viaSuper : Bool), method.invokeKind viaSuper = .interface →
      ((∃ b, invoke method viaSuper a = .ok () b) ↔
        (ConstantPool.methodRef method).Fits a.pool ∧
          f.HoldsCall method.descriptor.parameters.length) ∧
      ∀ b, invoke method viaSuper a = .ok () b →
        ∃ index count, b.instructions = a.instructions.push (.invokeInterface index count) ∧
          count.toNat = (method.descriptor.parameters.length + 1) % 256 ∧
          (count.toNat = method.descriptor.parameters.length + 1 ↔
            method.descriptor.parameters.length < 255)) ∧
    ∀ (type : RefType) (d : Nat) (S : Frame.Stack), f.stack = List.replicate d .integer ++ S →
      (d ≠ 1 → ((∃ b, newArray type d a = .ok () b) ↔
        (ConstantPool.refType type).Fits a.pool)) ∧
      ∀ b, newArray type d a = .ok () b →
        b.current =
          some ⟨f.locals, .object type :: (List.replicate (d / 256 * 256) .integer ++ S)⟩ ∧
        (b.current = some ⟨f.locals, .object type :: S⟩ ↔ d < 256) := by
  constructor
  · intro method viaSuper h
    refine ⟨invoke_succeeds_iff hc h, fun b hb => ?_⟩
    obtain ⟨index, count, hpush, hcount⟩ := instructions_invoke hc h hb
    exact ⟨index, count, hpush, hcount, by omega⟩
  · intro type d S hf
    have hstack : a.current = some ⟨f.locals, List.replicate d .integer ++ S⟩ := by rw [hc, ← hf]
    refine ⟨newArray_succeeds_iff hstack, fun b hb => ?_⟩
    have hcurrent := current_newArray hstack hb
    refine ⟨hcurrent, ?_⟩
    have hnone : d / 256 * 256 = 0 ↔ d < 256 := by omega
    rw [hcurrent]
    simp only [Option.some.injEq, Frame.mk.injEq, List.cons.injEq, true_and,
      List.append_left_eq_self, List.replicate_eq_nil_iff, hnone]

/-- A method of an interface with so many parameters. -/
def interfaceMethod (parameters : Nat) : MethodRef where
  owner := .object
  name := .append
  descriptor := ⟨List.replicate parameters .int, none⟩
  isInterface := true

/-- The receiver of a call and so many arguments are on the stack. -/
def beforeCall (arguments : Nat) : Assembler :=
  .start .empty ⟨[], List.replicate arguments .integer ++ [.null]⟩

/-- So many lengths are on the stack. -/
def beforeArray (lengths : Nat) : Assembler := .start .empty ⟨[], List.replicate lengths .integer⟩

theorem length_interfaceMethod (n : Nat) :
    (interfaceMethod n).descriptor.parameters.length = n :=
  List.length_replicate

theorem holdsCall_beforeCall (n : Nat) :
    (⟨[], List.replicate n .integer ++ [.null]⟩ : Frame).HoldsCall
      (interfaceMethod n).descriptor.parameters.length :=
  ⟨List.replicate n .integer, .null, [], rfl,
    List.length_replicate.trans (length_interfaceMethod n).symm, rfl⟩

/-- The largest counts that are kept. -/
theorem largest_counts_kept :
    (∃ b, invoke (interfaceMethod 254) false (beforeCall 254) = .ok () b ∧
      ∃ index count, b.instructions = #[.invokeInterface index count] ∧ count.toNat = 255) ∧
    ∃ b, newArray (.array 254 (.base .int)) 255 (beforeArray 255) = .ok () b ∧
      b.current = some ⟨[], [.object (.array 254 (.base .int))]⟩ := by
  constructor
  · obtain ⟨hmade, hkept⟩ :=
      (counts_kept_iff (a := beforeCall 254) rfl).1 (interfaceMethod 254) false rfl
    obtain ⟨b, hb⟩ := hmade.2
      ⟨ConstantPool.methodRef_fits _ (by decide), holdsCall_beforeCall 254⟩
    obtain ⟨index, count, hpush, hcount, -⟩ := hkept b hb
    rw [length_interfaceMethod] at hcount
    exact ⟨b, hb, index, count, hpush, hcount⟩
  · obtain ⟨hmade, hkept⟩ := (counts_kept_iff (a := beforeArray 255) rfl).2
      (.array 254 (.base .int)) 255 [] (List.append_nil _).symm
    obtain ⟨b, hb⟩ := (hmade (by decide)).2 (ConstantPool.refType_fits _ (by decide))
    exact ⟨b, hb, (hkept b hb).2.2 (by decide)⟩

/-- One more, and the call says that it has no arguments and no receiver, and the array
leaves all lengths on the stack. -/
theorem next_counts_cut :
    (∃ b, invoke (interfaceMethod 255) false (beforeCall 255) = .ok () b ∧
      ∃ index count, b.instructions = #[.invokeInterface index count] ∧ count.toNat = 0) ∧
    ∃ b, newArray (.array 255 (.base .int)) 256 (beforeArray 256) = .ok () b ∧
      b.current =
        some ⟨[], .object (.array 255 (.base .int)) :: List.replicate 256 .integer⟩ := by
  constructor
  · have hkind : (interfaceMethod 255).invokeKind false = .interface := rfl
    obtain ⟨b, hb⟩ := (invoke_succeeds_iff (a := beforeCall 255) rfl hkind).2
      ⟨ConstantPool.methodRef_fits _ (by decide), holdsCall_beforeCall 255⟩
    obtain ⟨index, count, hpush, hcount⟩ := instructions_invoke rfl hkind hb
    rw [length_interfaceMethod] at hcount
    exact ⟨b, hb, index, count, hpush, hcount⟩
  · have hstack : (beforeArray 256).current =
        some ⟨[], List.replicate 256 .integer ++ []⟩ := by
      rw [List.append_nil]
      rfl
    have hmade : ∃ b, newArray (.array 255 (.base .int)) 256 (beforeArray 256) = .ok () b :=
      (newArray_succeeds_iff hstack (by decide)).2 (ConstantPool.refType_fits _ (by decide))
    obtain ⟨b, hb⟩ := hmade
    exact ⟨b, hb, (current_newArray hstack hb).trans (by rw [List.append_nil])⟩

end Assembler
end ClassForge
