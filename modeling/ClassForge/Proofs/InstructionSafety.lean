/-
# Instructions that cannot go wrong

The instructions that expressions are made of, each with what it needs on the
stack and what it leaves there:

| instruction | needs | leaves |
| --- | --- | --- |
| a constant | nothing | the constant |
| a local | a slot that holds it | its value |
| a field | its object, unless it is static | its value |
| a call | the receiver, unless there is none, and the arguments | the result |
| a constructor | two copies of the new object, and the arguments | the object |
| an array element | the array and the index | the element |

The value that is left is of the expected type (`Assembler.Pushed`).
-/

import ClassForge.Proofs.Safety

namespace ClassForge

/-- A value of the given type is on top of the stack. -/
def Assembler.Pushed (a : Assembler) (T : List Target) (L : List FrameType) (S : Frame.Stack)
    (type : FieldType) : Prop :=
  ∃ t, Conforms t type ∧ a.Stands T ⟨L, t :: S⟩

theorem MadeBefore.push {S : Frame.Stack} {t : FrameType} (ht : ∀ m, t ≠ .uninitialized m) (n : Nat)
    (h : MadeBefore S n) : MadeBefore (t :: S) n :=
  cons_iff.2 ⟨fun m hm => absurd hm (ht m), h⟩

theorem MadeBefore.tail {S : Frame.Stack} {t : FrameType} {n : Nat}
    (h : MadeBefore (t :: S) n) : MadeBefore S n :=
  (cons_iff.1 h).2

theorem MadeBefore.append {S : Frame.Stack} {A : List FrameType} {n : Nat} :
    MadeBefore (A ++ S) n ↔ MadeBefore A n ∧ MadeBefore S n := by
  simp only [MadeBefore, List.mem_append]
  exact ⟨fun h => ⟨fun m hm => h m (.inl hm), fun m hm => h m (.inr hm)⟩,
    fun h m hm => hm.elim (h.1 m) (h.2 m)⟩

theorem MadeBefore.of_subset {S S' : Frame.Stack} {n : Nat} (h : S' ⊆ S)
    (hS : MadeBefore S n) : MadeBefore S' n :=
  fun m hm => hS m (h hm)

theorem Conforms.ne_uninitialized {t : FrameType} {type : FieldType} (h : Conforms t type)
    (m : Nat) : t ≠ .uninitialized m := by
  cases h <;> simp

theorem FieldType.verification_ne_uninitialized (type : FieldType) (m : Nat) :
    (type.verification : FrameType) ≠ .uninitialized m :=
  (conforms_verification type).ne_uninitialized m

namespace Frame

variable {L : List FrameType} {S : Stack} {n : Nat}
  {type : FieldType} {t : FrameType} {i : Instruction} {slot : UInt16} {kind : ValueKind}

theorem popKind_cons (h : hasKind t kind = true) : popKind kind (t :: S) = .ok (t, S) := if_pos h

/-- The upper types are popped. -/
theorem popMany_append (A : List FrameType) : popMany A.length (A ++ S) = .ok S := by
  induction A with
  | nil => rfl
  | cons t A ih => exact ih

/-- Integers are popped. -/
theorem popInts_replicate (k : Nat) : popInts k (List.replicate k .integer ++ S) = .ok S := by
  induction k with
  | zero => rfl
  | succ k ih => exact ih

theorem setLocal_self {slot : Nat} (h : L[slot]? = some t) : setLocal L slot t = L := by
  obtain ⟨hlt, rfl⟩ := List.getElem?_eq_some_iff.1 h
  unfold setLocal
  rw [Nat.sub_eq_zero_of_le hlt, List.replicate_zero, List.append_nil, List.set_getElem_self]

/-- The slot behind the others is filled. -/
theorem setLocal_length (t : FrameType) : setLocal L L.length t = L ++ [t] := by
  unfold setLocal
  rw [Nat.add_sub_cancel_left, List.replicate_one, List.set_append_right _ _ Nat.le.refl,
    Nat.sub_self]
  rfl

/-- Access to a slot has the same effect in each of its forms. -/
theorem effect_slotAccess {short : List Opcode} {general : Opcode} {effect : Effect}
    (hshort : ∀ op ∈ short, op.effect = effect) (hgeneral : general.effect = effect)
    (slot : UInt16) :
    (Instruction.slotAccess short general slot).opcode.effect = effect ∧
      slotOf (Instruction.slotAccess short general slot) = .ok slot := by
  unfold Instruction.slotAccess
  split
  · rename_i op hop
    exact ⟨hshort op (List.mem_of_getElem? hop), rfl⟩
  · split <;> exact ⟨hgeneral, rfl⟩

theorem effect_load (kind : ValueKind) (slot : UInt16) :
    (Instruction.load kind slot).opcode.effect = .loadLocal kind ∧
      slotOf (Instruction.load kind slot) = .ok slot := by
  cases kind <;> exact effect_slotAccess (by decide) rfl slot

theorem effect_store (kind : ValueKind) (slot : UInt16) :
    (Instruction.store kind slot).opcode.effect = .storeLocal kind ∧
      slotOf (Instruction.store kind slot) = .ok slot := by
  cases kind <;> exact effect_slotAccess (by decide) rfl slot

theorem step_load (hslot : L[slot.toNat]? = some t) (ht : hasKind t kind = true)
    (types : OperandTypes) :
    (⟨L, S⟩ : Frame).step n (.load kind slot) types = .ok ⟨L, t :: S⟩ := by
  obtain ⟨heffect, hslotOf⟩ := effect_load kind slot
  unfold step
  rw [heffect, hslotOf]
  dsimp only [bind, Except.bind]
  rw [hslot]
  cases t with
  | top => cases kind <;> cases ht
  | integer | float | null | uninitializedThis | object | uninitialized => exact if_pos ht

theorem step_store {declared : FrameType} (ht : hasKind t kind = true)
    (hdeclared : hasKind declared kind = true) :
    (⟨L, t :: S⟩ : Frame).step n (.store kind slot) (.value declared) =
      .ok ⟨setLocal L slot.toNat declared, S⟩ := by
  obtain ⟨heffect, hslotOf⟩ := effect_store kind slot
  unfold step
  rw [heffect, hslotOf]
  dsimp only [bind, Except.bind]
  rw [popKind_cons ht]
  exact if_pos hdeclared

theorem step_increment (h : L[slot.toNat]? = some .integer) (amount : Int16) :
    (⟨L, S⟩ : Frame).step n (.increment slot amount) .none = .ok ⟨L, S⟩ := by
  unfold Instruction.increment
  split <;> exact if_pos h

theorem step_loadConstant (index : UInt16) (t : FrameType) :
    (⟨L, S⟩ : Frame).step n (.loadConstant index) (.value t) = .ok ⟨L, t :: S⟩ := by
  unfold Instruction.loadConstant
  split <;> rfl

theorem effect_pushInt {value : Int} (h : Instruction.pushInt? value = some i) :
    i.opcode.effect = .pushInt := by
  unfold Instruction.pushInt? at h
  repeat' split at h
  all_goals first | cases h; rfl | cases h

theorem effect_pushFloat {value : Binary32} (h : Instruction.pushFloat? value = some i) :
    i.opcode.effect = .pushFloat := by
  unfold Instruction.pushFloat? at h
  repeat' split at h
  all_goals first | cases h; rfl | cases h

theorem step_pushInt (h : i.opcode.effect = .pushInt) (types : OperandTypes) :
    (⟨L, S⟩ : Frame).step n i types = .ok ⟨L, .integer :: S⟩ := by
  unfold step
  rw [h]

theorem step_pushFloat (h : i.opcode.effect = .pushFloat) (types : OperandTypes) :
    (⟨L, S⟩ : Frame).step n i types = .ok ⟨L, .float :: S⟩ := by
  unfold step
  rw [h]

/-- A call without a receiver pops the arguments. -/
theorem call_static (A : List FrameType) (returns : Option FrameType) :
    call (.call A.length returns) false (A ++ S) = .ok (returns.toList ++ S) := by
  unfold call
  dsimp only
  rw [popMany_append]
  rfl

/-- A call pops the arguments and the receiver. -/
theorem call_receiver (A : List FrameType) {object : FrameType} (h : object.isReference = true)
    (returns : Option FrameType) :
    call (.call A.length returns) true (A ++ object :: S) = .ok (returns.toList ++ S) := by
  unfold call
  dsimp only
  rw [popMany_append]
  dsimp only [bind, Except.bind]
  rw [if_pos rfl, popKind_cons (show hasKind object .reference = true from h)]
  rfl

theorem step_call_static {method : MethodRef} (h : method.isStatic = true) (viaSuper : Bool)
    (index : UInt16) (A : List FrameType) (returns : Option FrameType) :
    (⟨L, A ++ S⟩ : Frame).step n (Assembler.callInstruction method viaSuper index)
      (.call A.length returns) = .ok ⟨L, returns.toList ++ S⟩ := by
  unfold Assembler.callInstruction MethodRef.invokeKind
  rw [if_pos h]
  exact congrArg (· >>= fun stack => Except.ok (Frame.mk L stack)) (call_static A returns)

/-- A call with a receiver runs where the arguments lie above a reference. -/
theorem step_call_receiver {method : MethodRef} (h : method.isStatic = false) (viaSuper : Bool)
    (index : UInt16) (A : List FrameType) {object : FrameType}
    (hobject : object.isReference = true) (returns : Option FrameType) :
    (⟨L, A ++ object :: S⟩ : Frame).step n (Assembler.callInstruction method viaSuper index)
      (.call A.length returns) = .ok ⟨L, returns.toList ++ S⟩ := by
  have hcall := congrArg (· >>= fun stack => Except.ok (Frame.mk L stack))
    (call_receiver (S := S) A hobject returns)
  unfold Assembler.callInstruction MethodRef.invokeKind
  rw [if_neg (by rw [h]; exact Bool.false_ne_true)]
  split
  · exact hcall
  · exact hcall
  · rename_i hkind
    split at hkind
    · cases hkind
    · split at hkind <;> cases hkind
  · exact hcall

/-- Only copies of the object are constructed. -/
theorem map_constructed {receiver initialized : FrameType} {ts : List FrameType}
    (h : receiver ∉ ts) : ts.map (constructed receiver initialized) = ts := by
  refine (List.map_congr_left fun t ht => ?_).trans (List.map_id ts)
  unfold constructed
  rw [if_neg]
  · rfl
  · rintro rfl
    exact h ht

theorem step_construct (index : UInt16) (A : List FrameType) (type : RefType) {origin : Nat}
    (hL : .uninitialized origin ∉ L) (hS : .uninitialized origin ∉ S) :
    (⟨L, A ++ .uninitialized origin :: .uninitialized origin :: S⟩ : Frame).step n
      (.withConstant .invokespecial index) (.constructor A.length type) =
        .ok ⟨L, .object type :: S⟩ := by
  change construct _ A.length type = _
  unfold construct
  dsimp only
  rw [popMany_append]
  dsimp only [bind, Except.bind, pop]
  rw [map_constructed hL, List.map_cons, map_constructed hS, constructed, if_pos rfl]
  rfl

/-- The constructor of `this` is run. -/
theorem step_construct_this (index : UInt16) (A : List FrameType) (type : RefType)
    (hL : .uninitializedThis ∉ L) :
    (⟨.uninitializedThis :: L, A ++ [.uninitializedThis]⟩ : Frame).step n
      (.withConstant .invokespecial index) (.constructor A.length type) =
        .ok ⟨.object type :: L, []⟩ := by
  change construct _ A.length type = _
  unfold construct
  dsimp only
  rw [popMany_append]
  dsimp only [bind, Except.bind, pop]
  rw [List.map_cons, map_constructed hL, constructed, if_pos rfl]
  rfl

theorem effect_loadElement (type : FieldType) :
    (Assembler.loadElementOpcode type).effect = .arrayLoad type.kind := by
  match type with
  | .base .int => rfl
  | .base .boolean => rfl
  | .base .float => rfl
  | .ref _ => rfl

theorem effect_storeElement (type : FieldType) :
    (Assembler.storeElementOpcode type).effect = .arrayStore type.kind := by
  match type with
  | .base .int => rfl
  | .base .boolean => rfl
  | .base .float => rfl
  | .ref _ => rfl

/-- An element is read where an index lies above an array that holds the kind. -/
theorem step_loadElement {array element : FrameType} (harray : array.isReference = true)
    (helement : elementType type.kind array = .ok element) :
    (⟨L, .integer :: array :: S⟩ : Frame).step n
      (.simple (Assembler.loadElementOpcode type)) .none = .ok ⟨L, element :: S⟩ := by
  have heffect : (Instruction.simple (Assembler.loadElementOpcode type)).opcode.effect =
      .arrayLoad type.kind := effect_loadElement type
  unfold step
  rw [heffect]
  dsimp only [bind, Except.bind]
  rw [popKind_cons rfl]
  dsimp only
  rw [popKind_cons (show hasKind array .reference = true from harray)]
  dsimp only
  rw [helement]
  rfl

/-- An element is written where a value of its kind lies above an index and an array. -/
theorem step_storeElement {array : FrameType} (harray : array.isReference = true)
    (ht : hasKind t type.kind = true) :
    (⟨L, t :: .integer :: array :: S⟩ : Frame).step n
      (.simple (Assembler.storeElementOpcode type)) .none = .ok ⟨L, S⟩ := by
  have heffect : (Instruction.simple (Assembler.storeElementOpcode type)).opcode.effect =
      .arrayStore type.kind := effect_storeElement type
  unfold step
  rw [heffect]
  dsimp only [bind, Except.bind]
  rw [popKind_cons ht]
  dsimp only
  rw [popKind_cons rfl]
  dsimp only
  rw [popKind_cons (show hasKind array .reference = true from harray)]
  rfl

theorem step_newMultiArray_byte (k : Nat) (index : UInt16) (t : FrameType) :
    (⟨L, List.replicate k .integer ++ S⟩ : Frame).step n
      (.newMultiArray index (UInt8.ofNat k)) (.value t) =
        .ok ⟨L, t :: (List.replicate (k / 256 * 256) .integer ++ S)⟩ := by
  have hsplit : List.replicate k .integer ++ S =
      List.replicate (k % 256) .integer ++ (List.replicate (k / 256 * 256) .integer ++ S) := by
    rw [← List.append_assoc, List.replicate_append_replicate, Nat.mod_add_div']
  change (popInts (UInt8.ofNat k).toNat (List.replicate k .integer ++ S) >>= fun stack =>
    Except.ok (Frame.mk L (t :: stack))) = _
  rw [UInt8.toNat_ofNat', hsplit, popInts_replicate]
  rfl

theorem step_newMultiArray {k : Nat} (hk : k ≤ 255) (index : UInt16) (t : FrameType) :
    (⟨L, List.replicate k .integer ++ S⟩ : Frame).step n
      (.newMultiArray index (UInt8.ofNat k)) (.value t) = .ok ⟨L, t :: S⟩ := by
  have hnone : k / 256 * 256 = 0 := by omega
  rw [step_newMultiArray_byte, hnone]
  rfl

theorem effect_exit (type : FieldType) :
    (Assembler.returnOpcode (some type)).effect = .exitWith type.kind := by
  match type with
  | .base .int => rfl
  | .base .boolean => rfl
  | .base .float => rfl
  | .ref _ => rfl

/-- A return runs where a value of its kind is on top. -/
theorem step_exit (ht : hasKind t type.kind = true) :
    (⟨L, t :: S⟩ : Frame).step n (.simple (Assembler.returnOpcode (some type))) .none =
      .ok ⟨L, S⟩ := by
  have heffect : (Instruction.simple (Assembler.returnOpcode (some type))).opcode.effect =
      .exitWith type.kind := effect_exit type
  unfold step
  rw [heffect]
  dsimp only [bind, Except.bind]
  rw [popKind_cons ht]
  rfl

/-- What a branch needs on the stack. -/
inductive Tests : Effect → List FrameType → Prop where
  | zero : Tests .ifZero [.integer]
  | compare {a b : FrameType} (h : comparable a b = true) : Tests .ifCompare [a, b]
  | null {t : FrameType} (h : t.isReference = true) : Tests .ifNull [t]

/-- A branch runs where what it tests is on top, and takes just that. -/
theorem step_branch {op : Opcode} {A : List FrameType} (h : Tests op.effect A) (l : Label) :
    (⟨L, A ++ S⟩ : Frame).step n (.branch op l .empty) .none = .ok ⟨L, S⟩ := by
  have heffect : (Instruction.branch op l .empty).opcode.effect = op.effect := rfl
  unfold step
  rw [heffect]
  generalize op.effect = effect at h
  cases h with
  | zero => rfl
  | compare h => exact if_pos h
  | null h =>
    dsimp only [bind, Except.bind]
    rw [List.cons_append, popKind_cons (show hasKind _ .reference = true from h)]
    rfl

end Frame

/-! ### Code for them

Each computation that emits an instruction is `Safe`: with the values that it needs on top of the
stack it is refused only if something gets too large, and leaves the frame of its rule. -/

namespace Lowering

open Assembler (simple)

variable {P : LocalSlots → Prop} {T : List Target} {L L' : List FrameType} {S S' : Frame.Stack}
  {t u : FrameType} {type : FieldType} {field : FieldRef} {A : List FrameType}

theorem safe_push {i : Instruction} {types : OperandTypes}
    (hi : i.opcode.effect.isBranch = false)
    (hstep : ∀ n, (⟨L, S⟩ : Frame).step n i types = .ok ⟨L', S'⟩)
    (hmade : ∀ n, MadeBefore S n → MadeBefore S' n) :
    Safe P P (·.Stands T ⟨L, S⟩) (fun _ => (·.Stands T ⟨L', S'⟩))
      (emit (Assembler.push i types)) :=
  safe_emit (Assembler.safe_push hi hstep hmade)

/-- An instruction that needs a constant. -/
theorem safe_withConstant {x : Interning UInt16} {i : UInt16 → Instruction}
    {types : OperandTypes} (hi : ∀ index, (i index).opcode.effect.isBranch = false)
    (hstep : ∀ index n, (⟨L, S⟩ : Frame).step n (i index) types = .ok ⟨L', S'⟩)
    (hmade : ∀ n, MadeBefore S n → MadeBefore S' n) :
    Safe P P (·.Stands T ⟨L, S⟩) (fun _ => (·.Stands T ⟨L', S'⟩))
      (emit do
        let index ← x.toAssembling
        Assembler.push (i index) types) :=
  safe_emit ((Assembling.safe_toAssembling x).bind fun index =>
    Assembler.safe_push (hi index) (hstep index) hmade)

/-- A value of a type is on the stack. -/
theorem Safe.pushed {x : Lowering Unit} {A : Assembler → Prop} (ht : Conforms t type)
    (h : Safe P P A (fun _ => (·.Stands T ⟨L, t :: S⟩)) x) :
    Safe P P A (fun _ => (·.Pushed T L S type)) x :=
  h.imp fun _ _ hb => ⟨t, ht, hb⟩

theorem Safe.of_pushed {α : Type} {B : α → Assembler → Prop} {Q : LocalSlots → Prop}
    {x : Lowering α}
    (h : ∀ t, Conforms t type → Safe P Q (·.Stands T ⟨L, t :: S⟩) B x) :
    Safe P Q (·.Pushed T L S type) B x :=
  .of_exists h

/-- Loading a constant is no branch. -/
theorem isBranch_loadConstant (index : UInt16) :
    (Instruction.loadConstant index).opcode.effect.isBranch = false := by
  unfold Instruction.loadConstant
  split <;> rfl

theorem safe_pushInt (value : Int32) :
    Safe P P (·.Stands T ⟨L, S⟩) (fun _ => (·.Stands T ⟨L, .integer :: S⟩))
      (emit (Assembler.pushInt value)) := by
  unfold Assembler.pushInt
  split
  · rename_i i hi
    have heffect := Frame.effect_pushInt hi
    exact safe_push (by rw [heffect]; rfl) (fun n => Frame.step_pushInt heffect _)
      (MadeBefore.push (by simp))
  · exact safe_withConstant isBranch_loadConstant
      (fun index _ => Frame.step_loadConstant index _) (MadeBefore.push (by simp))

/-- To push a number with a fraction is safe wherever control is. -/
theorem safe_pushFloat (value : Binary32) :
    Safe P P (·.Stands T ⟨L, S⟩) (fun _ => (·.Stands T ⟨L, .float :: S⟩))
      (emit (Assembler.pushFloat value)) := by
  unfold Assembler.pushFloat
  split
  · rename_i i hi
    have heffect := Frame.effect_pushFloat hi
    exact safe_push (by rw [heffect]; rfl) (fun n => Frame.step_pushFloat heffect _)
      (MadeBefore.push (by simp))
  · exact safe_withConstant isBranch_loadConstant
      (fun index _ => Frame.step_loadConstant index _) (MadeBefore.push (by simp))

theorem safe_pushString (text : String) :
    Safe P P (·.Stands T ⟨L, S⟩) (fun _ => (·.Stands T ⟨L, FieldType.string.verification :: S⟩))
      (emit (Assembler.pushString text)) :=
  safe_withConstant isBranch_loadConstant (fun index _ => Frame.step_loadConstant index _)
    (MadeBefore.push (FieldType.verification_ne_uninitialized _))

theorem safe_loadLocal {slot : UInt16} (hslot : L[slot.toNat]? = some t)
    (ht : Conforms t type) :
    Safe P P (·.Stands T ⟨L, S⟩) (fun _ => (·.Stands T ⟨L, t :: S⟩))
      (emit (Assembler.loadLocal slot type)) :=
  safe_push (by rw [(Frame.effect_load _ _).1]; rfl)
    (fun _ => Frame.step_load hslot ht.hasKind _) (MadeBefore.push ht.ne_uninitialized)

theorem safe_storeLocal (slot : UInt16) (ht : Conforms t type) :
    Safe P P (·.Stands T ⟨L, t :: S⟩)
      (fun _ => (·.Stands T ⟨Frame.setLocal L slot.toNat type.verification, S⟩))
      (emit (Assembler.storeLocal slot type)) :=
  safe_push (by rw [(Frame.effect_store _ _).1]; rfl)
    (fun _ => Frame.step_store ht.hasKind (conforms_verification type).hasKind)
    fun _ h => h.tail

theorem safe_increment {slot : UInt16} (hslot : L[slot.toNat]? = some .integer)
    (amount : Int16) :
    Safe P P (·.Stands T ⟨L, S⟩) (fun _ => (·.Stands T ⟨L, S⟩))
      (emit (Assembler.increment slot amount)) :=
  safe_push (by unfold Instruction.increment; split <;> rfl)
    (fun _ => Frame.step_increment hslot amount) fun _ => id

/-- An instruction without operands. -/
theorem safe_simple {op : Opcode} (hop : op.effect.isBranch = false)
    (hstep : ∀ n, (⟨L, S⟩ : Frame).step n (.simple op) .none = .ok ⟨L, S'⟩)
    (hmade : ∀ n, MadeBefore S n → MadeBefore S' n) :
    Safe P P (·.Stands T ⟨L, S⟩) (fun _ => (·.Stands T ⟨L, S'⟩)) (emit (simple op)) :=
  safe_push hop hstep hmade

theorem safe_pop :
    Safe P P (·.Stands T ⟨L, t :: S⟩) (fun _ => (·.Stands T ⟨L, S⟩)) (emit (simple .pop)) :=
  safe_simple rfl (fun _ => rfl) fun _ h => h.tail

theorem safe_dup :
    Safe P P (·.Stands T ⟨L, t :: S⟩) (fun _ => (·.Stands T ⟨L, t :: t :: S⟩))
      (emit (simple .dup)) :=
  safe_simple rfl (fun _ => rfl) fun _ h =>
    MadeBefore.cons_iff.2 ⟨(MadeBefore.cons_iff.1 h).1, h⟩

/-! Fields -/

theorem safe_swap :
    Safe P P (·.Stands T ⟨L, t :: u :: S⟩) (fun _ => (·.Stands T ⟨L, u :: t :: S⟩))
      (emit (simple .swap)) :=
  safe_simple rfl (fun _ => rfl) fun _ h => MadeBefore.of_subset (fun _ ht => by grind) h

theorem safe_intToFloat :
    Safe P P (·.Stands T ⟨L, .integer :: S⟩) (fun _ => (·.Stands T ⟨L, .float :: S⟩))
      (emit (simple .i2f)) :=
  safe_simple rfl (fun _ => rfl) fun n h => MadeBefore.push (by simp) n h.tail

theorem safe_floatToInt :
    Safe P P (·.Stands T ⟨L, .float :: S⟩) (fun _ => (·.Stands T ⟨L, .integer :: S⟩))
      (emit (simple .f2i)) :=
  safe_simple rfl (fun _ => rfl) fun n h => MadeBefore.push (by simp) n h.tail

theorem safe_arrayLength (ht : t.isReference = true) :
    Safe P P (·.Stands T ⟨L, t :: S⟩) (fun _ => (·.Stands T ⟨L, .integer :: S⟩))
      (emit (simple .arraylength)) := by
  refine safe_simple rfl (fun _ => ?_) fun n h => MadeBefore.push (by simp) n h.tail
  exact congrArg (· >>= fun p => Except.ok (Frame.mk L (.integer :: p.2)))
    (Frame.popKind_cons (show Frame.hasKind t .reference = true from ht))

theorem safe_getStatic (h : field.isStatic = true) :
    Safe P P (·.Stands T ⟨L, S⟩) (fun _ => (·.Stands T ⟨L, field.type.verification :: S⟩))
      (emit (Assembler.getField field)) := by
  unfold Assembler.getField
  rw [h]
  exact safe_withConstant (fun _ => rfl) (fun _ _ => rfl)
    (MadeBefore.push (FieldType.verification_ne_uninitialized _))

/-- To read a field is safe where a reference is on top. -/
theorem safe_getField (h : field.isStatic = false) (ht : t.isReference = true) :
    Safe P P (·.Stands T ⟨L, t :: S⟩) (fun _ => (·.Stands T ⟨L, field.type.verification :: S⟩))
      (emit (Assembler.getField field)) := by
  unfold Assembler.getField
  rw [h]
  refine safe_withConstant (fun _ => rfl) (fun _ _ => ?_) fun n hS =>
    MadeBefore.push (FieldType.verification_ne_uninitialized _) n hS.tail
  exact congrArg (· >>= fun p => Except.ok (Frame.mk L (field.type.verification :: p.2)))
    (Frame.popKind_cons (show Frame.hasKind t .reference = true from ht))

theorem safe_putStatic (h : field.isStatic = true) :
    Safe P P (·.Stands T ⟨L, t :: S⟩) (fun _ => (·.Stands T ⟨L, S⟩))
      (emit (Assembler.putField field)) := by
  unfold Assembler.putField
  rw [h]
  exact safe_withConstant (fun _ => rfl) (fun _ _ => rfl) fun n hS =>
    hS.tail

theorem safe_putField (h : field.isStatic = false) (hu : u.isReference = true) :
    Safe P P (·.Stands T ⟨L, t :: u :: S⟩) (fun _ => (·.Stands T ⟨L, S⟩))
      (emit (Assembler.putField field)) := by
  unfold Assembler.putField
  rw [h]
  refine safe_withConstant (fun _ => rfl) (fun _ _ => ?_) fun n hS =>
    hS.tail.tail
  exact congrArg (· >>= fun p => Except.ok (Frame.mk L p.2))
    (Frame.popKind_cons (show Frame.hasKind u .reference = true from hu))

/-! Calls -/

theorem isBranch_callInstruction (method : MethodRef) (viaSuper : Bool) (index : UInt16) :
    (Assembler.callInstruction method viaSuper index).opcode.effect.isBranch = false := by
  unfold Assembler.callInstruction
  split <;> rfl

theorem madeBefore_returns {returns : Option FieldType} {n : Nat} (h : MadeBefore S n) :
    MadeBefore ((returns.map FieldType.verification).toList ++ S) n := by
  cases returns with
  | none => exact h
  | some type => exact MadeBefore.push (FieldType.verification_ne_uninitialized _) n h

theorem safe_invoke_static {method : MethodRef} (h : method.isStatic = true) (viaSuper : Bool)
    (hA : A.length = method.descriptor.parameters.length) :
    Safe P P (·.Stands T ⟨L, A ++ S⟩)
      (fun _ => (·.Stands T
        ⟨L, (method.descriptor.returns.map FieldType.verification).toList ++ S⟩))
      (emit (Assembler.invoke method viaSuper)) := by
  unfold Assembler.invoke
  rw [← hA]
  exact safe_withConstant (isBranch_callInstruction method viaSuper)
    (fun index n => Frame.step_call_static h viaSuper index A _) fun n hS =>
      madeBefore_returns (MadeBefore.append.1 hS).2

theorem safe_invoke_receiver {method : MethodRef} (h : method.isStatic = false) (viaSuper : Bool)
    (hA : A.length = method.descriptor.parameters.length) (ht : t.isReference = true) :
    Safe P P (·.Stands T ⟨L, A ++ t :: S⟩)
      (fun _ => (·.Stands T
        ⟨L, (method.descriptor.returns.map FieldType.verification).toList ++ S⟩))
      (emit (Assembler.invoke method viaSuper)) := by
  unfold Assembler.invoke
  rw [← hA]
  exact safe_withConstant (isBranch_callInstruction method viaSuper)
    (fun index n => Frame.step_call_receiver h viaSuper index A ht _) fun n hS =>
      madeBefore_returns (MadeBefore.append.1 hS).2.tail

theorem safe_construct (method : MethodRef) (type : RefType)
    (hA : A.length = method.descriptor.parameters.length) {origin : Nat}
    (hL : .uninitialized origin ∉ L) (hS : .uninitialized origin ∉ S) :
    Safe P P (·.Stands T ⟨L, A ++ .uninitialized origin :: .uninitialized origin :: S⟩)
      (fun _ => (·.Stands T ⟨L, .object type :: S⟩))
      (emit (Assembler.construct method type)) := by
  unfold Assembler.construct
  rw [← hA]
  exact safe_withConstant (fun _ => rfl)
    (fun index n => Frame.step_construct index A type hL hS) fun n hmade =>
      MadeBefore.push (by simp) n
        (MadeBefore.append.1 hmade).2.tail.tail

theorem safe_construct_this (method : MethodRef) (type : RefType)
    (hA : A.length = method.descriptor.parameters.length) (hL : .uninitializedThis ∉ L) :
    Safe P P (·.Stands T ⟨.uninitializedThis :: L, A ++ [.uninitializedThis]⟩)
      (fun _ => (·.Stands T ⟨.object type :: L, []⟩))
      (emit (Assembler.construct method type)) := by
  unfold Assembler.construct
  rw [← hA]
  exact safe_withConstant (fun _ => rfl)
    (fun index n => Frame.step_construct_this index A type hL) fun n _ m hm => nomatch hm

/-! Arrays -/

/-- To read an element is safe where an index lies above an array of this type. -/
theorem safe_loadElement {array : FieldType} (ht : Conforms t array)
    (hcomponent : array.component? = some type) :
    Safe P P (·.Stands T ⟨L, .integer :: t :: S⟩) (fun _ => (·.Pushed T L S type))
      (emit (Assembler.loadElement type)) := by
  obtain ⟨u, hu, hconforms⟩ := ht.element hcomponent
  have harray : t.isReference = true :=
    ht.isReference (FieldType.isReference_of_component hcomponent)
  refine (safe_simple ?_ (fun n => Frame.step_loadElement harray hu) fun n hS => ?_).pushed
    hconforms
  · rw [Frame.effect_loadElement]
    rfl
  · exact MadeBefore.push hconforms.ne_uninitialized n
      hS.tail.tail

theorem safe_storeElement (hu : u.isReference = true) (ht : Conforms t type) :
    Safe P P (·.Stands T ⟨L, t :: .integer :: u :: S⟩) (fun _ => (·.Stands T ⟨L, S⟩))
      (emit (Assembler.storeElement type)) := by
  refine safe_simple ?_ (fun n => Frame.step_storeElement hu ht.hasKind) fun n hS => ?_
  · rw [Frame.effect_storeElement]
    rfl
  · exact hS.tail.tail.tail

theorem safe_newArray {type : RefType} {k : Nat} (hpos : 1 ≤ k) (hk : k ≤ 255)
    (hdimensions : k ≤ type.dimensions) :
    Safe P P (·.Stands T ⟨L, List.replicate k .integer ++ S⟩)
      (fun _ => (·.Pushed T L S (.ref type))) (emit (Assembler.newArray type k)) := by
  have hmade : ∀ n, MadeBefore (List.replicate k .integer ++ S) n →
      MadeBefore (.object type :: S) n := fun n h =>
    MadeBefore.push (by simp) n (MadeBefore.append.1 h).2
  refine Safe.pushed (.object type.fits_refl) ?_
  unfold Assembler.newArray
  split
  · rename_i element helement
    rw [RefType.eq_arrayOf helement] at hmade ⊢
    exact safe_push rfl (fun n => by cases element <;> rfl) hmade
  · exact safe_withConstant (fun _ => rfl) (fun _ _ => rfl) hmade
  · exact safe_withConstant (fun _ => rfl) (fun index _ => Frame.step_newMultiArray hk index _)
      hmade

theorem safe_checkCast (type : RefType) (ht : t.isReference = true) :
    Safe P P (·.Stands T ⟨L, t :: S⟩) (fun _ => (·.Stands T ⟨L, .object type :: S⟩))
      (emit (Assembler.checkCast type)) := by
  refine safe_withConstant (fun _ => rfl) (fun _ _ => ?_) fun n hS =>
    MadeBefore.push (by simp) n hS.tail
  exact congrArg (· >>= fun p => Except.ok (Frame.mk L (.object type :: p.2)))
    (Frame.popKind_cons (show Frame.hasKind t .reference = true from ht))

theorem safe_instanceOf (type : RefType) (ht : t.isReference = true) :
    Safe P P (·.Stands T ⟨L, t :: S⟩) (fun _ => (·.Stands T ⟨L, .integer :: S⟩))
      (emit (Assembler.instanceOf type)) := by
  refine safe_withConstant (fun _ => rfl) (fun _ _ => ?_) fun n hS =>
    MadeBefore.push (by simp) n hS.tail
  exact congrArg (· >>= fun p => Except.ok (Frame.mk L (.integer :: p.2)))
    (Frame.popKind_cons (show Frame.hasKind t .reference = true from ht))

/-! Branches and labels -/

variable {target : Target}

theorem safe_branch {op : Opcode} (hop : Frame.Tests op.effect A) (htarget : target ∈ T)
    (hadmits : target.Admits ⟨L, S⟩) :
    Safe P P (·.Stands T ⟨L, A ++ S⟩) (fun _ => (·.Stands T ⟨L, S⟩))
      (emit (Assembler.branch op target.label)) :=
  safe_emit (Assembler.safe_branch_to htarget (fun _ => Frame.step_branch hop target.label)
    hadmits (fun _ h => (MadeBefore.append.1 h).2) fun _ => rfl)

theorem safe_goto (htarget : target ∈ T) (hadmits : target.Admits ⟨L, S⟩) (g : Frame) :
    Safe P P (·.Stands T ⟨L, S⟩) (fun _ => (·.Stands T g))
      (emit (Assembler.branch .goto target.label)) :=
  safe_emit (Assembler.safe_branch_to htarget (fun _ => rfl) hadmits (fun _ => id)
    fun h => absurd rfl h)

/-- Control leaves the method. -/
theorem safe_exit_void (g : Frame) :
    Safe P P (·.Stands T ⟨L, S⟩) (fun _ => (·.Stands T g)) (emit (Assembler.exit none)) := by
  have hstep (n : Nat) : (⟨L, S⟩ : Frame).step n (.simple .returnVoid) .none = .ok ⟨L, S⟩ := rfl
  exact safe_emit (Assembler.safe_leave rfl rfl hstep g)

theorem safe_exit (ht : Conforms t type) (g : Frame) :
    Safe P P (·.Stands T ⟨L, t :: S⟩) (fun _ => (·.Stands T g))
      (emit (Assembler.exit (some type))) := by
  have heffect := Frame.effect_exit type
  refine safe_emit (Assembler.safe_leave ?_ ?_ (fun n => Frame.step_exit ht.hasKind) g)
  · exact congrArg Effect.isBranch heffect
  · exact congrArg Effect.isUnconditional heffect

/-- All that is known of a value is its type. -/
theorem safe_generalizeTop (ht : Conforms t type) :
    Safe P P (·.Stands T ⟨L, t :: S⟩) (fun _ => (·.Stands T ⟨L, type.verification :: S⟩))
      (generalizeTop type) := by
  unfold generalizeTop
  split
  · rename_i href
    refine safe_emit (Assembler.safe_generalize ?_
      (MadeBefore.push (FieldType.verification_ne_uninitialized type)))
    have hgeneral := (conforms_verification type).isReference href
    unfold Frame.generalizeTop
    dsimp only
    rw [ht.isReference href, hgeneral, if_neg (fun h => h rfl), if_neg (fun h => h.1 rfl)]
  · rename_i hbase
    rw [ht.eq_verification (Bool.eq_false_iff.2 hbase)]
    exact safe_skip

theorem safe_freshLabel {f g : Frame} (hg : .top ∉ g.locals) :
    Safe P P (·.Stands T f) (fun l => (·.Stands (⟨l, none, g, false, hg⟩ :: T) f))
      (emit Assembler.freshLabel) :=
  safe_emit (Assembler.safe_newLabel none hg)

end Lowering
end ClassForge
