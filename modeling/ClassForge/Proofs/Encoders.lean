/-
# The shortest form of an instruction

Specification, section 4.1: the encodings of slots, and section 10.6: `wide`, `iinc`,
`ldc`.

Several instructions of the table have the same effect and differ in how they write their
operand.  The one that is made is the shortest that can hold the operand:

| operand | form | bytes |
| --- | --- | --- |
| slot below 4 | part of the opcode | 1 |
| slot below 256 | one byte | 2 |
| other slot | two bytes, behind `wide` | 4 |
| slot below 256 and amount of 8 bits | one byte each | 3 |
| other slot or amount | two bytes each, behind `wide` | 6 |
| integer from -1 to 5 | part of the opcode | 1 |
| integer of 8 bits | one byte | 2 |
| integer of 16 bits | two bytes | 3 |
| other integer, as a constant with an index below 256 | one byte | 2 |
| other integer, as another constant | two bytes | 3 |

An encoding is any bytes that disassemble to one instruction, so the forms that are never
made, like a small slot behind `wide`, are compared as well.

Integers are special in two ways.  One that needs a constant is pushed only if the pool has
it or has room for it (`ConstantPool.LacksRoom`).  And one of 16 bits takes three bytes also
where two would do, because it is a constant of the pool with an index below 256
(`ConstantPool.Undercuts`): whether it is a constant is not looked up.
-/

import ClassForge.Proofs.Decoding
import ClassForge.Proofs.Emission
import ClassForge.Proofs.MethodRun
import ClassForge.Proofs.Requests

namespace ClassForge

/-! ### Encodings -/

namespace CodeItem

/-- The slot that the instruction uses. -/
def slot? (i : CodeItem) : Option Nat := Machine.slot? i.opcode i.wide i.operands

/-- The amount that the instruction adds to a slot. -/
def amount? (i : CodeItem) : Option Int32 := Machine.amount? i.wide i.operands

/-- The integer that the instruction pushes, given those among the constants. -/
def integer? (k : Machine.Constants) (i : CodeItem) : Option Int32 :=
  Machine.constant? k i.opcode i.operands

theorem Regular.size_eq {i : CodeItem} (hi : i.Regular) :
    i.size = 1 + i.wide.toNat + Disassembly.operandCount i.wide i.opcode := by
  rw [size, hi.operands]

end CodeItem

namespace Disassembly

/-- Some code is one instruction with the given meaning, and no shorter code is. -/
structure Shortest (code : Bytes) (means : CodeItem → Prop) : Prop where
  reads : ∃ i, items code = .ok [i] ∧ means i
  least : ∀ other i, items other = .ok [i] → means i → code.length ≤ other.length

theorem items_singleton {i : Instruction} (hi : i.Regular) : items i.encode = .ok [i.item 0] := by
  have h : items ([i].flatMap Instruction.encode) = .ok (Instruction.itemsAt 0 [i]) :=
    items_encode fun j hj => List.mem_singleton.1 hj ▸ hi
  simpa [Instruction.itemsAt] using h

/-- An instruction is the shortest if none that could be read instead is smaller. -/
theorem Shortest.of_least {j : Instruction} {means : CodeItem → Prop} (hj : j.Regular)
    (hmeans : means (j.item 0))
    (hleast : ∀ i : CodeItem, i.Regular → means i → j.size ≤ i.size) :
    Shortest j.encode means where
  reads := ⟨j.item 0, items_singleton hj, hmeans⟩
  least other i hi hmeans' := by
    have hpartition := items_eq_ok_iff.1 hi
    have hsize : i.size = other.length := by
      rw [← hpartition.bytes, List.flatMap_singleton, CodeItem.length_encode]
    rw [Instruction.length_encode, ← hsize]
    exact hleast i (hpartition.regular i List.mem_cons_self) hmeans'

theorem Shortest.size_le {j other : Instruction} {means : CodeItem → Prop}
    (h : Shortest j.encode means) (hother : other.Regular) (hmeans : means (other.item 0)) :
    j.size ≤ other.size := by
  rw [← Instruction.length_encode, ← Instruction.length_encode]
  exact h.least _ _ (items_singleton hother) hmeans

end Disassembly

open Disassembly

/-! ### Slots -/

theorem Opcode.implicitSlot_lt {op : Opcode} {slot : UInt16} (h : op.implicitSlot = some slot) :
    slot.toNat < 4 := by
  cases op <;> cases h <;> decide

/-- Does an instruction with this effect move a value between the stack and a slot? -/
def Effect.isAccess : Effect → Bool
  | .loadLocal _ | .storeLocal _ => true
  | _ => false

theorem Opcode.operandBytes_of_access {op : Opcode} (h : op.effect.isAccess = true)
    (hslot : op.hasSlotOperand = true) : op.operandBytes = 1 := by
  cases op <;> first | rfl | exact absurd h (by decide) | exact absurd hslot (by decide)

namespace CodeItem

variable {i : CodeItem} {n : Nat}

/-- A slot is part of the opcode only if it is one of the first four. -/
theorem slot_lt_of_no_operands (h : i.slot? = some n) (hoperands : i.operands = []) : n < 4 := by
  unfold slot? Machine.slot? at h
  rw [hoperands] at h
  cases hslot : i.opcode.implicitSlot with
  | none =>
    rw [hslot] at h
    cases hwide : i.wide <;> rw [hwide] at h <;> cases h
  | some slot =>
    rw [hslot] at h
    cases h
    exact Opcode.implicitSlot_lt hslot

/-- Without `wide` a slot takes at most one byte. -/
theorem slot_lt_of_narrow (h : i.slot? = some n) (hwide : i.wide = false) : n < 256 := by
  unfold slot? Machine.slot? at h
  rw [hwide] at h
  cases hslot : i.opcode.implicitSlot with
  | none =>
    rw [hslot] at h
    cases hoperands : i.operands with
    | nil =>
      rw [hoperands] at h
      cases h
    | cons b rest =>
      rw [hoperands] at h
      have hb : b.toNat = n := Option.some.inj h
      have := b.toNat_lt
      omega
  | some slot =>
    rw [hslot] at h
    have hn : slot.toNat = n := Option.some.inj h
    have := Opcode.implicitSlot_lt hslot
    omega

end CodeItem

/-- The bytes that access to a slot takes. -/
def accessSize (slot : Nat) : Nat := if slot < 4 then 1 else if slot < 256 then 2 else 4

/-- **No access to a slot is shorter.** -/
theorem accessSize_le {i : CodeItem} (hi : i.Regular) (heffect : i.opcode.effect.isAccess = true)
    {slot : Nat} (hslot : i.slot? = some slot) : accessSize slot ≤ i.size := by
  have hsize : i.size = 1 + i.wide.toNat + i.operands.length := rfl
  unfold accessSize
  split
  · omega
  · rename_i hfour
    have hoperands : i.operands.length ≠ 0 := fun h =>
      hfour (CodeItem.slot_lt_of_no_operands hslot (List.length_eq_zero_iff.1 h))
    split
    · omega
    · rename_i hbyte
      -- two bytes for the slot are there behind `wide` only
      have hwide : i.wide = true := by
        refine Bool.eq_true_of_not_eq_false fun h => hbyte ?_
        exact CodeItem.slot_lt_of_narrow hslot h
      have hbytes := Opcode.operandBytes_of_access heffect (hi.wide hwide)
      rw [hi.size_eq, hwide, operandCount, if_pos rfl, hbytes]
      decide

namespace Instruction

theorem size_slotAccess {short : List Opcode} {general : Opcode} (hshort : short.length = 4)
    (slot : UInt16) : (slotAccess short general slot).size = accessSize slot.toNat := by
  unfold slotAccess accessSize
  by_cases hfour : slot.toNat < 4
  · rw [List.getElem?_eq_getElem (hshort ▸ hfour), if_pos hfour]
    rfl
  · rw [List.getElem?_eq_none (by omega), if_neg hfour]
    by_cases hbyte : slot.toNat < 256
    · rw [if_pos hbyte, if_pos hbyte]
      rfl
    · rw [if_neg hbyte, if_neg hbyte]
      rfl

/-- **Access to a slot takes the shortest form.** -/
theorem shortest_slotAccess {short : List Opcode} {general : Opcode} {effect : Effect}
    (hshort : short.length = 4)
    (hslots : ∀ (n : Nat) (h : n < short.length), short[n].implicitSlot = some (UInt16.ofNat n))
    (hgeneral : general.implicitSlot = none)
    (heffects : ∀ op ∈ general :: short, op.effect = effect)
    (haccess : effect.isAccess = true) {slot : UInt16}
    (hregular : (slotAccess short general slot).Regular) :
    Shortest (slotAccess short general slot).encode fun i =>
      i.opcode.effect = effect ∧ i.slot? = some slot.toNat := by
  have heffect := heffects _ (Machine.opcode_slotAccess short general slot)
  have hslot := Machine.slot?_slotAccess short general slot hslots hgeneral
  refine .of_least hregular ⟨heffect, hslot⟩ fun i hi ⟨hi', hslot'⟩ => ?_
  rw [size_slotAccess hshort]
  exact accessSize_le hi (hi' ▸ haccess) hslot'

/-- **No shorter instruction loads a slot of this kind** -/
theorem shortest_load (kind : ValueKind) (slot : UInt16) :
    Shortest (load kind slot).encode fun i =>
      i.opcode.effect = .loadLocal kind ∧ i.slot? = some slot.toNat := by
  have hregular := (plain_load kind slot).toRegular
  cases kind <;> exact shortest_slotAccess rfl (by decide) rfl (by decide) rfl hregular

/-- **No shorter instruction stores to a slot of this kind** -/
theorem shortest_store (kind : ValueKind) (slot : UInt16) :
    Shortest (store kind slot).encode fun i =>
      i.opcode.effect = .storeLocal kind ∧ i.slot? = some slot.toNat := by
  have hregular := (plain_store kind slot).toRegular
  cases kind <;> exact shortest_slotAccess rfl (by decide) rfl (by decide) rfl hregular

end Instruction

/-! ### Increments -/

/-- Without `wide` an amount takes one byte. -/
theorem CodeItem.amount_of_narrow {i : CodeItem} {amount : Int32} (h : i.amount? = some amount)
    (hwide : i.wide = false) : -128 ≤ amount.toInt ∧ amount.toInt < 128 := by
  unfold amount? at h
  rw [hwide] at h
  unfold Machine.amount? at h
  split at h
  · rename_i b _ _
    cases h
    rw [Int8.toInt_toInt32]
    exact ⟨b.toInt8.le_toInt, b.toInt8.toInt_lt⟩
  · rename_i hfalse _
    cases hfalse
  · cases h

/-- There is one opcode for increments. -/
theorem Opcode.effect_eq_incrementLocal_iff {op : Opcode} :
    op.effect = .incrementLocal ↔ op = .iinc := by
  cases op <;> decide

/-- **An increment takes the shortest form.** It is three bytes if the slot and the amount
fit in one byte each, and six if not. -/
theorem Instruction.shortest_increment (slot : UInt16) (amount : Int16) :
    Shortest (increment slot amount).encode fun i => i.opcode.effect = .incrementLocal ∧
      i.slot? = some slot.toNat ∧ i.amount? = some amount.toInt32 := by
  obtain ⟨hopcode, hslot, hamount⟩ := Machine.operands_increment slot amount
  have heffect := Opcode.effect_eq_incrementLocal_iff.2 hopcode
  rw [← hopcode] at hslot
  refine .of_least (plain_increment slot amount).toRegular ⟨heffect, hslot, hamount⟩
    fun i hi ⟨hi', hslot', hamount'⟩ => ?_
  have hsize := hi.size_eq
  rw [Opcode.effect_eq_incrementLocal_iff.1 hi'] at hsize
  unfold increment
  split
  · have hnarrow : 3 ≤ i.size := by
      rw [hsize]
      cases i.wide <;> decide
    exact hnarrow
  · rename_i hlarge
    -- `wide` widens both operands, so either of them may be the reason
    have hwide : i.wide = true := by
      refine Bool.eq_true_of_not_eq_false fun h => hlarge ⟨?_, ?_⟩
      · exact CodeItem.slot_lt_of_narrow hslot' h
      · rw [← Int16.toInt_toInt32]
        exact CodeItem.amount_of_narrow hamount' h
    rw [hwide] at hsize
    exact Nat.le_of_eq hsize.symm

/-! ### Integers -/

/-- The bytes that an integer takes that is not a constant of the pool. -/
def immediateSize (v : Int) : Nat :=
  if -1 ≤ v ∧ v ≤ 5 then 1 else if -128 ≤ v ∧ v < 128 then 2 else 3

namespace Instruction

/-- The instruction that is made for an integer of 16 bits. -/
theorem pushInt?_eq_some {v : Int} {i : Instruction} (h : pushInt? v = some i) :
    i.opcode.effect = .pushInt ∧ i.size = immediateSize v := by
  unfold pushInt? at h
  iterate 7
    split at h
    · rename_i hv
      cases h
      subst hv
      exact ⟨rfl, rfl⟩
  have hother : ¬ (-1 ≤ v ∧ v ≤ 5) := by omega
  unfold immediateSize
  rw [if_neg hother]
  split at h
  · rename_i hbyte
    cases h
    rw [if_pos hbyte]
    exact ⟨rfl, rfl⟩
  · rename_i hbyte
    rw [if_neg hbyte]
    split at h <;> cases h
    exact ⟨rfl, rfl⟩

theorem pushInt?_eq_none_iff {v : Int} : pushInt? v = none ↔ ¬ (-32768 ≤ v ∧ v < 32768) := by
  unfold pushInt?
  repeat' split
  all_goals simp only [reduceCtorEq, false_iff, true_iff, Classical.not_not]
  all_goals omega

end Instruction

/-- What is pushed on a memory is the constant of the instruction. -/
theorem Machine.constant?_of_exec {k : Constants} {op : Opcode} (wide : Bool) {operands : Bytes}
    {v : Int32} (hop : op.effect = .pushInt ∨ op.effect = .pushConstant)
    (h : ∀ m, exec k op wide operands m = some (.go (m.push v))) :
    constant? k op operands = some v := by
  have hexec : exec k op wide operands ⟨fun _ => none, []⟩ =
      (constant? k op operands).bind fun w => some (.go (Memory.push ⟨fun _ => none, []⟩ w)) := by
    cases op <;> first | rfl | exact absurd hop (by decide)
  rw [h] at hexec
  cases hconstant : constant? k op operands with
  | none =>
    rw [hconstant] at hexec
    cases hexec
  | some w =>
    rw [hconstant] at hexec
    have hstack : [v] = [w] :=
      congrArg Memory.stack (Action.go.inj (Option.some.inj hexec))
    rw [(List.cons.inj hstack).1]

/-- The forms of an integer, and what each can hold. -/
theorem Machine.constant?_eq_some {k : Constants} {op : Opcode} {operands : Bytes} {v : Int32}
    (h : constant? k op operands = some v) :
    (op.effect = .pushInt ∧ -1 ≤ v.toInt ∧ v.toInt ≤ 5) ∨
    (op = .bipush ∧ -128 ≤ v.toInt ∧ v.toInt < 128) ∨
    (op = .sipush ∧ -32768 ≤ v.toInt ∧ v.toInt < 32768) ∨
    (op = .ldc ∧ ∃ index, index.toNat < 256 ∧ k index = some v) ∨ op = .ldcW := by
  unfold constant? at h
  split at h
  -- the integers that are part of an opcode
  iterate 7
    cases h
    exact .inl (by decide)
  · rename_i b
    cases h
    rw [Int8.toInt_toInt32]
    exact .inr (.inl ⟨rfl, b.toInt8.le_toInt, b.toInt8.toInt_lt⟩)
  · rename_i high low
    cases h
    rw [Int16.toInt_toInt32]
    exact .inr (.inr (.inl ⟨rfl, Int16.le_toInt _, Int16.toInt_lt _⟩))
  · rename_i b
    refine .inr (.inr (.inr (.inl ⟨rfl, _, ?_, h⟩)))
    rw [UInt16.toNat_ofNat']
    have := b.toNat_lt
    omega
  · exact .inr (.inr (.inr (.inr rfl)))
  · cases h

theorem CodeItem.Regular.le_size {i : CodeItem} (hi : i.Regular) :
    1 + i.opcode.operandBytes ≤ i.size := by
  rw [hi.size_eq, Disassembly.operandCount]
  split <;> omega

/-- **No form of an integer is shorter than its own**, unless it is a constant of the pool
with an index below 256. -/
theorem immediateSize_le {k : Machine.Constants} {i : CodeItem} {v : Int32} (hi : i.Regular)
    (hv : i.integer? k = some v) : immediateSize v.toInt ≤ i.size ∨
      i.opcode = .ldc ∧ ∃ index, index.toNat < 256 ∧ k index = some v := by
  have hsize := hi.le_size
  unfold immediateSize
  rcases Machine.constant?_eq_some hv with ⟨-, hsmall⟩ | ⟨hop, hbyte⟩ | ⟨hop, -⟩ | hldc | hop
  · rw [if_pos hsmall]
    omega
  · have htwo : 2 ≤ i.size := by
      rw [hop] at hsize
      exact hsize
    rw [if_pos hbyte]
    split <;> omega
  · have hthree : 3 ≤ i.size := by
      rw [hop] at hsize
      exact hsize
    repeat' split
    all_goals omega
  · exact .inr hldc
  · have hthree : 3 ≤ i.size := by
      rw [hop] at hsize
      exact hsize
    repeat' split
    all_goals omega

theorem Instruction.integer?_pushInt {v : Int32} {i : Instruction} (h : pushInt? v.toInt = some i)
    (k : Machine.Constants) : (i.item 0).integer? k = some v :=
  Machine.constant?_of_exec i.wide (.inl (pushInt?_eq_some h).1) fun _ => Machine.exec_pushInt h

/-! ### Integers among the constants -/

namespace ConstantPool

/-- The integers of a pool are its integer constants, by index. -/
theorem integers_eq_some {p : ConstantPool} {index : UInt16} {v : Int32} :
    p.integers index = some v ↔ p.get? index = some (.integer v) := by
  unfold integers
  split
  · rename_i w h
    rw [h]
    simp
  · rename_i h
    exact ⟨fun hfalse => (by cases hfalse), fun hv => absurd hv (h v)⟩

/-- A constant has one index. -/
theorem get?_unique {p : ConstantPool} {c : Constant} {m n : UInt16} (hm : p.get? m = some c)
    (hn : p.get? n = some c) : m = n :=
  Option.some.inj (((p.indexed c m).2 hm).symm.trans ((p.indexed c n).2 hn))

/-- An integer needs a constant that is not there and that there is no room for. -/
structure LacksRoom (p : ConstantPool) (v : Int32) : Prop where
  large : ¬ (-32768 ≤ v.toInt ∧ v.toInt < 32768)
  fresh : ∀ index, p.get? index ≠ some (.integer v)
  full : p.size = capacity

/-- An integer takes three bytes by itself, but would take two as a constant of the pool. -/
structure Undercuts (p : ConstantPool) (v : Int32) : Prop where
  short : -32768 ≤ v.toInt ∧ v.toInt < 32768
  large : ¬ (-128 ≤ v.toInt ∧ v.toInt < 128)
  index : ∃ index : UInt16, index.toNat < 256 ∧ p.get? index = some (.integer v)

end ConstantPool

namespace Instruction

variable {p : ConstantPool} {index : UInt16} {v : Int32} {i : Instruction}

theorem effect_loadConstant (index : UInt16) :
    (loadConstant index).opcode.effect = .pushConstant := by
  unfold loadConstant
  split <;> rfl

theorem integer?_loadConstant (h : p.get? index = some (.integer v)) :
    ((loadConstant index).item 0).integer? p.integers = some v := by
  refine Machine.constant?_of_exec (loadConstant index).wide (.inr (effect_loadConstant index))
    fun _ => ?_
  exact Machine.exec_loadConstant (ConstantPool.integers_eq_some.2 h)

/-- **An integer of 16 bits takes its shortest form just if no constant undercuts it.** A
constant at one of the first 255 indices is loaded in two bytes, and an integer beyond eight
bits is pushed in three. -/
theorem shortest_pushInt_iff (h : pushInt? v.toInt = some i) (p : ConstantPool) :
    Shortest i.encode (·.integer? p.integers = some v) ↔ ¬ p.Undercuts v := by
  have hregular := (plain_pushInt h).toRegular
  have hsize := (pushInt?_eq_some h).2
  constructor
  · rintro hshortest ⟨-, hlarge, index, hindex, hget⟩
    -- the constant takes two bytes
    have hle : i.size ≤ (loadConstant index).size :=
      hshortest.size_le (plain_loadConstant index).toRegular (integer?_loadConstant hget)
    have htwo : (loadConstant index).size = 2 := by
      unfold loadConstant
      rw [if_pos hindex]
      rfl
    rw [hsize, htwo, immediateSize, if_neg (by omega), if_neg hlarge] at hle
    omega
  · intro hfree
    refine .of_least hregular (integer?_pushInt h _) fun j hj hv => ?_
    rw [hsize]
    rcases immediateSize_le hj hv with hle | ⟨hldc, index, hindex, hk⟩
    · exact hle
    · have hshort : -32768 ≤ v.toInt ∧ v.toInt < 32768 := by
        refine Classical.byContradiction fun hlarge => ?_
        rw [pushInt?_eq_none_iff.2 hlarge] at h
        cases h
      have hbyte : -128 ≤ v.toInt ∧ v.toInt < 128 := by
        refine Classical.byContradiction fun hlarge => hfree ⟨hshort, hlarge, index, hindex, ?_⟩
        exact ConstantPool.integers_eq_some.1 hk
      have htwo : 2 ≤ j.size := by
        have := hj.le_size
        rw [hldc] at this
        exact this
      rw [immediateSize, if_pos hbyte]
      split <;> omega

/-- **An integer of more than 16 bits takes its shortest form as a constant**, because it
has one index only. -/
theorem shortest_loadConstant (h : p.get? index = some (.integer v))
    (hlarge : ¬ (-32768 ≤ v.toInt ∧ v.toInt < 32768)) :
    Shortest (loadConstant index).encode (·.integer? p.integers = some v) := by
  refine .of_least (plain_loadConstant index).toRegular (integer?_loadConstant h)
    fun i hi hiv => ?_
  have hsize := hi.le_size
  unfold loadConstant
  rcases Machine.constant?_eq_some hiv with
    ⟨-, hsmall⟩ | ⟨-, hbyte⟩ | ⟨-, hshort⟩ | ⟨hop, other, hsmall, hother⟩ | hop
  · omega
  · omega
  · exact absurd hshort hlarge
  · -- a smaller index would be another index of the same constant
    obtain rfl := ConstantPool.get?_unique (ConstantPool.integers_eq_some.1 hother) h
    rw [if_pos hsmall]
    rw [hop] at hsize
    exact hsize
  · rw [hop] at hsize
    split
    · exact Nat.le_of_succ_le hsize
    · exact hsize

end Instruction

/-! ### Integers that are pushed -/

namespace Assembler

/-- An instruction that pushes an integer runs wherever control can be. -/
theorem push_integer {a : Assembler} {f : Frame} {i : Instruction} (types : OperandTypes)
    (hc : a.current = some f)
    (hi : i.opcode.effect = .pushInt ∨ i.opcode.effect = .pushConstant ∧ types = .value .integer) :
    ∃ b, push i types a = .ok () b ∧ b.instructions = a.instructions.push i ∧
      b.current = some ⟨f.locals, .integer :: f.stack⟩ ∧ b.pool = a.pool := by
  have hstep : f.step a.instructions.size i types = .ok ⟨f.locals, .integer :: f.stack⟩ := by
    unfold Frame.step
    rcases hi with hi | ⟨hi, rfl⟩
    · rw [hi]
    · rw [hi]
      rfl
  have hgoes : i.opcode.effect.isBranch = false ∧ i.opcode.effect.isUnconditional = false := by
    rcases hi with hi | ⟨hi, -⟩ <;> rw [hi] <;> exact ⟨rfl, rfl⟩
  refine ⟨_, Operation.run_push_iff.2 (.push hc hgoes.1 hstep), rfl, ?_, rfl⟩
  dsimp only
  rw [hgoes.2]
  rfl

/-- What comes of pushing an integer where control can be: one instruction, the shortest
unless a constant undercuts it, or nothing for lack of room in the pool. -/
inductive PushesInteger (v : Int32) (a : Assembler) (f : Frame) :
    EStateM.Result Fault Assembler Unit → Prop where
  | emitted {i : Instruction} {b : Assembler} (room : ¬ a.pool.LacksRoom v)
    (instructions : b.instructions = a.instructions.push i)
    (current : b.current = some ⟨f.locals, .integer :: f.stack⟩)
    (effect : i.opcode.effect =
      if -32768 ≤ v.toInt ∧ v.toInt < 32768 then .pushInt else .pushConstant)
    (reads : ∃ item, items i.encode = .ok [item] ∧ item.integer? b.pool.integers = some v)
    (shortest : Shortest i.encode (·.integer? b.pool.integers = some v) ↔ ¬ a.pool.Undercuts v) :
    PushesInteger v a f (.ok () b)
  | refused (lacking : a.pool.LacksRoom v) :
    PushesInteger v a f (.error (.poolOverflow ⟨.integer v, ConstantPool.capacity + 1⟩) a)

variable {a : Assembler} {f : Frame} {v : Int32}

/-- An integer of 16 bits is pushed by its own instruction. -/
theorem pushesInteger_of_small (hc : a.current = some f) {i : Instruction}
    (hi : Instruction.pushInt? v.toInt = some i) : PushesInteger v a f (push i .none a) := by
  have hsmall : -32768 ≤ v.toInt ∧ v.toInt < 32768 := by
    refine Classical.byContradiction fun h => ?_
    rw [Instruction.pushInt?_eq_none_iff.2 h] at hi
    cases hi
  have heffect := (Instruction.pushInt?_eq_some hi).1
  have hregular := (Instruction.plain_pushInt hi).toRegular
  obtain ⟨b, hb, hinstructions, hcurrent, hpool⟩ := push_integer .none hc (.inl heffect)
  rw [hb]
  refine .emitted (fun h => h.large hsmall) hinstructions hcurrent ?_
    ⟨_, items_singleton hregular, Instruction.integer?_pushInt hi _⟩ ?_
  · rw [heffect, if_pos hsmall]
  · rw [hpool]
    exact Instruction.shortest_pushInt_iff hi a.pool

/-- An integer that has an index is pushed from the pool. -/
theorem pushesInteger_of_index (hc : a.current = some f) {index : UInt16} {q : ConstantPool}
    (hget : q.get? index = some (.integer v)) (hroom : ¬ a.pool.LacksRoom v)
    (hlarge : ¬ (-32768 ≤ v.toInt ∧ v.toInt < 32768)) :
    PushesInteger v a f (push (.loadConstant index) (.value .integer) { a with pool := q }) := by
  have heffect := Instruction.effect_loadConstant index
  obtain ⟨b, hb, hinstructions, hcurrent, hpool⟩ :=
    push_integer (a := { a with pool := q }) (.value .integer) hc (.inr ⟨heffect, rfl⟩)
  rw [hb]
  have hshortest := Instruction.shortest_loadConstant hget hlarge
  refine .emitted hroom hinstructions hcurrent ?_ ?_ ?_
  · rw [heffect, if_neg hlarge]
  · rw [hpool]
    exact hshortest.reads
  · rw [hpool]
    exact iff_of_true hshortest fun h => hlarge h.short

/-- **Wherever control can be, an integer is pushed by one instruction**, unless it lacks
room. -/
theorem pushesInteger (hc : a.current = some f) (v : Int32) :
    PushesInteger v a f (pushInt v a) := by
  unfold pushInt
  cases hi : Instruction.pushInt? v.toInt with
  | some i => exact pushesInteger_of_small hc hi
  | none =>
    have hlarge := Instruction.pushInt?_eq_none_iff.1 hi
    -- the constant is known, or added, or there is no room for it
    have hinterns : ConstantPool.Interns (.integer v) a.pool (ConstantPool.integer v a.pool) :=
      ConstantPool.interns (.integer v) a.pool
    dsimp only
    generalize hresult : ConstantPool.integer v a.pool = result at hinterns
    cases hinterns with
    | known h =>
      rw [bind_of_ok (Interning.toAssembling_of_ok hresult)]
      exact pushesInteger_of_index hc h (fun hlacks => hlacks.fresh _ h) hlarge
    | @new q fresh size unused get =>
      rw [bind_of_ok (Interning.toAssembling_of_ok hresult)]
      refine pushesInteger_of_index hc ((get _).trans (if_pos rfl)) (fun hlacks => ?_) hlarge
      have hbounded : q.size ≤ ConstantPool.capacity := q.bounded
      have := hlacks.full
      omega
    | full fresh full =>
      rw [bind_of_error (Interning.toAssembling_of_error hresult)]
      exact .refused ⟨hlarge, fresh, full⟩

/-- At the start of a method an integer that lacks room is refused. -/
theorem start_refuses {p : ConstantPool} (h : p.LacksRoom v) (entry : Frame) :
    (start p entry).current = some entry ∧ pushInt v (start p entry) =
      .error (.poolOverflow ⟨.integer v, ConstantPool.capacity + 1⟩) (start p entry) := by
  refine ⟨rfl, ?_⟩
  have hpushes := pushesInteger (a := start p entry) rfl v
  generalize pushInt v (start p entry) = result at hpushes
  cases hpushes with
  | emitted room => exact absurd h room
  | refused => rfl

end Assembler

/-! ### All operands -/

/-- **Operands are written faithfully, and in the shortest form that the table has.**

Loads and stores of any kind and slot, and increments of any slot by any amount, are read
back as one instruction with the effect and the operands that they were made for, and no
other instruction with the same effect and operands takes fewer bytes.

Wherever control can be, any integer is pushed by one instruction, itself or as a constant
of the pool that resolves to it, and no other instruction that pushes it takes fewer bytes.
There are two exceptions.  An integer of more than 16 bits that the pool does not have when
it is full is refused: nothing is emitted, and the lack of room is reported.  An integer of
16 bits that does not fit in 8 takes three bytes even if the pool has it at an index below
256, from where two would do. -/
theorem operands_shortest :
    (∀ kind slot,
      Shortest (Instruction.load kind slot).encode (fun i =>
        i.opcode.effect = .loadLocal kind ∧ i.slot? = some slot.toNat) ∧
      Shortest (Instruction.store kind slot).encode fun i =>
        i.opcode.effect = .storeLocal kind ∧ i.slot? = some slot.toNat) ∧
    (∀ slot amount,
      (∃ i, items (Instruction.increment slot amount).encode = .ok [i] ∧ i.opcode = .iinc) ∧
      Shortest (Instruction.increment slot amount).encode fun i =>
        i.opcode.effect = .incrementLocal ∧
          i.slot? = some slot.toNat ∧ i.amount? = some amount.toInt32) ∧
    ∀ (v : Int32) (a : Assembler) (f : Frame), a.current = some f →
      Assembler.PushesInteger v a f (Assembler.pushInt v a) := by
  refine ⟨fun kind slot => ⟨Instruction.shortest_load kind slot,
    Instruction.shortest_store kind slot⟩, fun slot amount => ⟨?_, ?_⟩,
    fun v _ _ hc => Assembler.pushesInteger hc v⟩
  · exact ⟨_, items_singleton (Instruction.plain_increment slot amount).toRegular,
      (Machine.operands_increment slot amount).1⟩
  · exact Instruction.shortest_increment slot amount

/-- The first integer that needs a constant gets the first index. -/
theorem constant_shortest :
    ∃ i b, Assembler.pushInt 32768 (.start .empty ⟨[], []⟩) = .ok () b ∧ b.instructions = #[i] ∧
      Shortest i.encode (·.integer? b.pool.integers = some 32768) := by
  have hpushes := operands_shortest.2.2 32768 (.start .empty ⟨[], []⟩) ⟨[], []⟩ rfl
  generalize Assembler.pushInt 32768 _ = result at hpushes
  cases hpushes with
  | @emitted i b _ instructions _ _ _ shortest =>
    exact ⟨i, b, rfl, instructions, shortest.2 fun h => absurd h.short (by decide)⟩
  | refused lacking => exact absurd lacking.full (by decide)

/-! ### A full pool -/

namespace ConstantPool

/-- The pool of the integers from zero on, as many as it has room for. -/
def counting : Nat → ConstantPool
  | 0 => .empty
  | n + 1 =>
    match intern (.integer (Int32.ofNat n)) (counting n) with
    | .ok _ p => p
    | .error _ p => p

/-- The sample pool has as many constants as asked for, and all of them are small
integers. -/
theorem counting_spec {n : Nat} (hn : n ≤ capacity) : (counting n).size = n ∧
    ∀ index c, (counting n).get? index = some c → ∃ m < n, c = .integer (Int32.ofNat m) := by
  induction n with
  | zero => exact ⟨rfl, fun index c h => by simp [counting, empty, get?, constantAt?] at h⟩
  | succ n ih =>
    obtain ⟨hsize, hall⟩ := ih (Nat.le_of_succ_le hn)
    have hroom : n < capacity := hn
    rw [counting]
    have hinterns := interns (.integer (Int32.ofNat n)) (counting n)
    generalize intern (.integer (Int32.ofNat n)) (counting n) = result at hinterns
    cases hinterns with
    | known h =>
      -- an integer that is already there is one of the earlier ones
      obtain ⟨m, hm, heq⟩ := hall _ _ h
      have hint := congrArg Int32.toInt (Constant.integer.inj heq)
      unfold capacity at hroom
      rw [Int32.toInt_ofNat_of_lt (by omega), Int32.toInt_ofNat_of_lt (by omega)] at hint
      omega
    | @new q fresh size unused get =>
      refine ⟨size.trans (congrArg (· + 1) hsize), fun index c hc => ?_⟩
      dsimp only at hc
      rw [get] at hc
      split at hc
      · exact ⟨n, Nat.lt_succ_self n, (Option.some.inj hc).symm⟩
      · obtain ⟨m, hm, heq⟩ := hall index c hc
        exact ⟨m, Nat.lt_succ_of_lt hm, heq⟩
    | full fresh full =>
      rw [hsize] at full
      omega

/-- An integer beyond those in the sample pool is not there. -/
theorem counting_fresh {n : Nat} (hn : n ≤ capacity) {v : Int32} (hv : n ≤ v.toInt)
    (index : UInt16) : (counting n).get? index ≠ some (.integer v) := by
  intro h
  obtain ⟨m, hm, heq⟩ := (counting_spec hn).2 index _ h
  have hint := congrArg Int32.toInt (Constant.integer.inj heq)
  unfold capacity at hn
  rw [Int32.toInt_ofNat_of_lt (by omega)] at hint
  omega

theorem counting_lacksRoom {v : Int32} (hv : 65534 ≤ v.toInt) :
    (counting capacity).LacksRoom v where
  large := by omega
  fresh := counting_fresh (Nat.le_refl capacity) hv
  full := (counting_spec (Nat.le_refl capacity)).1

end ConstantPool

/-- **Two pools with which an integer is not pushed in the shortest form.**  One that is
full stops an integer of more than 16 bits: control is at the start of a method, and no
instruction is emitted.  With one that has 1000 as its first constant, 1000 takes three
bytes, though two would push it. -/
theorem integer_exceptions :
    ((Assembler.start (.counting ConstantPool.capacity) ⟨[], []⟩).current = some ⟨[], []⟩ ∧
      Assembler.pushInt 100000 (.start (.counting ConstantPool.capacity) ⟨[], []⟩) =
        .error (.poolOverflow ⟨.integer 100000, ConstantPool.capacity + 1⟩)
          (.start (.counting ConstantPool.capacity) ⟨[], []⟩)) ∧
    ∃ pool i b item, ConstantPool.intern (.integer 1000) .empty = .ok 1 pool ∧
      Assembler.pushInt 1000 (.start pool ⟨[], []⟩) = .ok () b ∧ b.instructions = #[i] ∧
      i.encode = [0x11, 0x03, 0xE8] ∧
      items [0x12, 0x01] = .ok [item] ∧ item.integer? b.pool.integers = some 1000 := by
  refine ⟨Assembler.start_refuses (ConstantPool.counting_lacksRoom (by decide)) ⟨[], []⟩, ?_⟩
  have hempty : ∀ index, ConstantPool.empty.get? index ≠ some (.integer 1000) := by
    intro index h
    simp [ConstantPool.get?, ConstantPool.constantAt?, ConstantPool.empty] at h
  obtain ⟨pool, hpool, -, hget⟩ := ConstantPool.intern_of_absent hempty (by decide)
  refine ⟨pool, _, _, ⟨0, .ldc, [1], false⟩, hpool, rfl, rfl, by decide, by decide +kernel, ?_⟩
  exact ConstantPool.integers_eq_some.2 ((hget 1).trans (if_pos rfl))

end ClassForge
