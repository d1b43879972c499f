/-
# Laying code out

Instructions are laid out one behind the other.  The bytes can be split back into
the instructions (`Disassembly.items_encode`), and the destination of each branch,
which is stored as a distance, is the offset of the instruction at its label
(`Body.Resolved.destination`).

| before | laid out |
| --- | --- |
| number of an instruction | sum of the sizes before it |
| label of a branch | distance from the branch to the instruction at the label |
| anything else | unchanged |
-/

import ClassForge.Opcode.Lemmas
import ClassForge.Proofs.Growth
import ClassForge.Proofs.Machine

namespace ClassForge

/-! ### Branches are the instructions with labels -/

/-- A regular instruction that has a label just if it is a branch. -/
structure Instruction.Labelled (i : Instruction) : Prop extends i.Regular where
  target : i.target?.isSome = i.opcode.effect.isBranch

theorem Opcode.operandBytes_branch {op : Opcode} (h : op.effect.isBranch = true) :
    op.operandBytes = 2 ∧ op.hasSlotOperand = false := by
  revert h
  cases op <;> decide

theorem Instruction.labelled_branch {op : Opcode} (h : op.effect.isBranch = true) (target : Label)
    (arriving : Frame) : (Instruction.branch op target arriving).Labelled where
  operands := (Opcode.operandBytes_branch h).1.symm
  wide hwide := nomatch hwide
  target := h.symm

theorem Instruction.Labelled.of_branch {i : Instruction} (hi : i.Labelled)
    (h : i.opcode.effect.isBranch = true) : i.operands.length = 2 ∧ i.wide = false := by
  obtain ⟨hbytes, hslot⟩ := Opcode.operandBytes_branch h
  have hwide : i.wide = false := by
    cases hw : i.wide with
    | false => rfl
    | true => exact absurd (hi.wide hw) (by simp [hslot])
  refine ⟨?_, hwide⟩
  rw [hi.operands, hwide]
  exact hbytes

/-- **Only branches have labels** -/
theorem Built.labelled {pool : ConstantPool} {entry : Frame} {a : Assembler}
    (h : Built (Assembler.start pool entry) a) : ∀ i ∈ a.instructions, i.Labelled := by
  have add : ∀ (x : Assembler) (j : Instruction), j.Labelled →
      (∀ i ∈ x.instructions, i.Labelled) → ∀ i ∈ x.instructions.push j, i.Labelled := by
    intro x j hj hx i hi
    rcases Array.mem_push.1 hi with hi | rfl
    · exact hx i hi
    · exact hj
  refine h.induct (P := fun x => ∀ i ∈ x.instructions, i.Labelled) (by simp [Assembler.start])
    fun o x y ho hstep hx => ?_
  cases hstep with
  | push _ hbranch _ =>
    refine add x _ ⟨ho.toRegular, ?_⟩ hx
    rw [ho.target, hbranch]
    rfl
  | jumpBack => exact add x _ (Instruction.labelled_branch ho _ _) hx
  | jumpAhead => exact add x _ (Instruction.labelled_branch ho _ _) hx
  | _ => exact hx

/-! ### Offsets -/

namespace Instruction

/-- The offset of an instruction, by its number. -/
def offsetOf : List Instruction → Nat → Nat
  | i :: is, n + 1 => i.size + offsetOf is n
  | _, _ => 0

theorem size_pos (i : Instruction) : 0 < i.size := by
  unfold size
  omega

@[simp] theorem offsetOf_nil (n : Nat) : offsetOf [] n = 0 := rfl

@[simp] theorem offsetOf_zero (is : List Instruction) : offsetOf is 0 = 0 := by
  cases is <;> rfl

@[simp] theorem offsetOf_cons_succ (i : Instruction) (is : List Instruction) (n : Nat) :
    offsetOf (i :: is) (n + 1) = i.size + offsetOf is n := rfl

/-- The next instruction stands behind the bytes of this one. -/
theorem offsetOf_succ {is : List Instruction} {n : Nat} {i : Instruction} (h : is[n]? = some i) :
    offsetOf is (n + 1) = offsetOf is n + i.size := by
  induction is generalizing n with
  | nil => simp at h
  | cons j is ih =>
    cases n with
    | zero =>
      cases h
      simp [offsetOf]
    | succ n =>
      rw [offsetOf_cons_succ, offsetOf_cons_succ, ih h]
      omega

/-- Offsets increase with the numbers. -/
theorem offsetOf_lt {is : List Instruction} {m n : Nat} (hmn : m < n) (hn : n ≤ is.length) :
    offsetOf is m < offsetOf is n := by
  induction is generalizing m n with
  | nil => simp at hn; omega
  | cons i is ih =>
    have hpos := i.size_pos
    cases n with
    | zero => omega
    | succ n =>
      cases m with
      | zero =>
        rw [offsetOf_cons_succ, offsetOf_zero]
        omega
      | succ m =>
        have := ih (Nat.lt_of_succ_lt_succ hmn) (by simpa using hn)
        rw [offsetOf_cons_succ, offsetOf_cons_succ]
        omega

/-- The bytes end behind the last instruction. -/
theorem length_flatMap_encode (is : List Instruction) :
    (is.flatMap encode).length = offsetOf is is.length := by
  induction is with
  | nil => rfl
  | cons i is ih =>
    rw [List.flatMap_cons, List.length_append, length_encode, ih, List.length_cons,
      offsetOf_cons_succ]

theorem offsetOf_congr {is js : List Instruction} (h : is.map size = js.map size) (n : Nat) :
    offsetOf is n = offsetOf js n := by
  induction is generalizing js n with
  | nil =>
    rw [List.map_nil, eq_comm, List.map_eq_nil_iff] at h
    rw [h]
  | cons i is ih =>
    obtain ⟨j, js, rfl, hij, hrest⟩ := List.map_eq_cons_iff.1 h.symm
    cases n with
    | zero => rfl
    | succ n => rw [offsetOf_cons_succ, offsetOf_cons_succ, hij, ih hrest.symm]

end Instruction

/-! ### Splitting bytes into instructions -/

namespace Instruction

/-- An instruction as it is read out of code. -/
def item (offset : Nat) (i : Instruction) : CodeItem where
  offset
  opcode := i.opcode
  operands := i.operands
  wide := i.wide

/-- Instructions as they are read out of code from an offset on. -/
def itemsAt (offset : Nat) : List Instruction → List CodeItem
  | [] => []
  | i :: is => i.item offset :: itemsAt (offset + i.size) is

/-- An instruction is read at the offset that the sizes of those before it add up to. -/
theorem getElem?_itemsAt (offset : Nat) (is : List Instruction) (n : Nat) :
    (itemsAt offset is)[n]? = is[n]?.map (item (offset + offsetOf is n)) := by
  induction is generalizing offset n with
  | nil => rfl
  | cons i is ih =>
    cases n with
    | zero => rfl
    | succ n =>
      rw [itemsAt, List.getElem?_cons_succ, ih, List.getElem?_cons_succ, offsetOf_cons_succ,
        Nat.add_assoc]

/-- The instruction at the offset of a number is the one with the number. -/
theorem find?_itemsAt (offset : Nat) (is : List Instruction) {n : Nat} {i : Instruction}
    (h : is[n]? = some i) :
    (itemsAt offset is).find? (fun item => item.offset = offset + offsetOf is n) =
      some (i.item (offset + offsetOf is n)) := by
  induction is generalizing offset n with
  | nil => simp at h
  | cons j is ih =>
    cases n with
    | zero =>
      cases h
      simp [itemsAt, item]
    | succ n =>
      have hpos := j.size_pos
      have hne : ¬ (j.item offset).offset = offset + offsetOf (j :: is) (n + 1) := by
        rw [offsetOf_cons_succ]
        change ¬ offset = _
        omega
      rw [itemsAt, List.find?_cons_of_neg (by simpa only [decide_eq_true_eq] using hne),
        offsetOf_cons_succ, ← Nat.add_assoc]
      exact ih (offset + j.size) h

end Instruction

namespace Disassembly

/-- The bytes behind an optional `wide` are read as the instruction. -/
theorem next_encode {i : Instruction} (hi : i.Regular) (offset : Nat) (rest : Bytes) :
    next offset i.wide (i.opcode.code :: (i.operands ++ rest)) = .ok (i.item offset, rest) := by
  have hwide : ¬ (i.wide = true ∧ ¬ i.opcode.hasSlotOperand = true) :=
    fun h => h.2 (hi.wide h.1)
  unfold next
  dsimp only
  rw [Opcode.ofCode?_code]
  dsimp only
  rw [if_neg hwide, ← hi.operands, List.take_left, List.drop_left, if_neg (Nat.lt_irrefl _)]
  rfl

/-- The first byte of an opcode is not `wide`. -/
theorem code_ne_wide (op : Opcode) : op.code ≠ Opcode.wide := by
  intro h
  have := Opcode.ofCode?_wide
  rw [← h, Opcode.ofCode?_code] at this
  cases this

/-- One instruction is read, and what is behind it is left. -/
theorem itemsFrom_encode {i : Instruction} (hi : i.Regular) (done : List CodeItem) (offset : Nat)
    (rest : Bytes) :
    itemsFrom done offset (i.encode ++ rest) =
      itemsFrom (i.item offset :: done) (offset + i.size) rest := by
  have hnext := next_encode hi offset rest
  cases hw : i.wide with
  | true =>
    rw [hw] at hnext
    have hbytes : i.encode ++ rest = Opcode.wide :: i.opcode.code :: (i.operands ++ rest) := by
      simp [Instruction.encode, hw]
    rw [hbytes, itemsFrom, if_pos rfl]
    split
    · rename_i h
      rw [hnext] at h
      cases h
    · rename_i h
      rw [hnext] at h
      cases h
      rfl
  | false =>
    rw [hw] at hnext
    have hbytes : i.encode ++ rest = i.opcode.code :: (i.operands ++ rest) := by
      simp [Instruction.encode, hw]
    rw [hbytes, itemsFrom, if_neg (code_ne_wide i.opcode)]
    split
    · rename_i h
      rw [hnext] at h
      cases h
    · rename_i h
      rw [hnext] at h
      cases h
      rfl

/-- **The bytes of instructions are split back into them.** -/
theorem items_encode {is : List Instruction} (h : ∀ i ∈ is, i.Regular) :
    items (is.flatMap Instruction.encode) = .ok (Instruction.itemsAt 0 is) := by
  have run : ∀ (done : List CodeItem) (offset : Nat),
      itemsFrom done offset (is.flatMap Instruction.encode) =
        .ok (done.reverse ++ Instruction.itemsAt offset is) := by
    induction is with
    | nil =>
      intro done offset
      rw [List.flatMap_nil, itemsFrom, Instruction.itemsAt, List.append_nil]
    | cons i is ih =>
      intro done offset
      rw [List.flatMap_cons, itemsFrom_encode (h i List.mem_cons_self),
        ih (fun j hj => h j (List.mem_cons_of_mem i hj))]
      simp [Instruction.itemsAt]
  exact run [] 0

end Disassembly

/-! ### Filling in the branches -/

namespace Body

open Instruction (offsetOf)

/-- The offsets are the sums of the sizes. -/
theorem layOut_eq (done : Array Nat) (offset : Nat) (is : List Instruction) :
    layOut done offset is =
      (done ++ ((List.range is.length).map fun n => offset + offsetOf is n).toArray,
        offset + offsetOf is is.length) := by
  induction is generalizing done offset with
  | nil => simp [layOut]
  | cons i is ih =>
    rw [layOut, ih, List.length_cons, Instruction.offsetOf_cons_succ, List.range_succ_eq_map,
      List.map_cons, List.map_map]
    have hrest : (List.range is.length).map (fun n => offset + i.size + offsetOf is n) =
        (List.range is.length).map ((fun n => offset + offsetOf (i :: is) n) ∘ Nat.succ) := by
      refine List.map_congr_left fun n _ => ?_
      rw [Function.comp_apply, Nat.succ_eq_add_one, Instruction.offsetOf_cons_succ, Nat.add_assoc]
    rw [hrest, Nat.add_assoc]
    simp

/-- An instruction at the offset `origin` of a body, before and after its
destination is filled in. -/
inductive Filled (b : Body) (origin : Nat) : Instruction → Instruction → Prop where
  | plain {i : Instruction} (h : i.target? = none) : Filled b origin i i
  | branch {i : Instruction} {target : Label} {index : Nat} {delta : Int}
    (ht : i.target? = some target) (hl : b.labels[target.index]? = some index)
    (hn : index < b.instructions.size)
    (hd : offsetOf b.instructions.toList index - (origin : Int) = delta)
    (hnear : -32768 ≤ delta ∧ delta < 32768) :
    Filled b origin i { i with operands := Bytes.i16 delta }

/-- A body `b` laid out as `c`. -/
structure Resolved (b c : Body) (length : Nat) : Prop where
  offset? : ∀ n, c.offset? n =
    if n < b.instructions.size then some (offsetOf b.instructions.toList n) else none
  size : c.instructions.size = b.instructions.size
  filled : ∀ (n : Nat) (i : Instruction), b.instructions[n]? = some i →
    ∃ j, c.instructions[n]? = some j ∧ Filled b (offsetOf b.instructions.toList n) i j
  length_eq : length = offsetOf b.instructions.toList b.instructions.size
  length_le : length ≤ maxLength
  maxStack : c.maxStack = b.maxStack
  maxLocals : c.maxLocals = b.maxLocals
  entry : c.entry = b.entry
  frames : c.frames = b.frames

/-- The offsets of a body, as they are laid out. -/
def layout (b : Body) : Array Nat := (layOut #[] 0 b.instructions.toList).1

/-- The layout has one offset for each instruction, the sum of the sizes before it. -/
theorem getElem?_layout (b : Body) (n : Nat) : b.layout[n]? =
    if n < b.instructions.size then some (offsetOf b.instructions.toList n) else none := by
  unfold layout
  rw [layOut_eq]
  simp only [Array.empty_append, List.getElem?_toArray, List.getElem?_map, Nat.zero_add]
  split
  · rename_i h
    rw [List.getElem?_range (by simpa using h)]
    rfl
  · rename_i h
    rw [List.getElem?_eq_none (by simpa using h)]
    rfl

/-- A destination that is filled in is the distance from the branch to the place of its
label, and it is near enough for two bytes. -/
theorem filled_of_patched {b : Body} {origin : Nat} {i j : Instruction}
    (h : patched b.labels b.layout origin i = .ok j) : Filled b origin i j := by
  unfold patched at h
  split at h
  · rename_i ht
    cases h
    exact .plain ht
  · rename_i target ht
    split at h
    · cases h
    · rename_i index hl
      split at h
      · cases h
      · rename_i destination hoffset
        dsimp only at h
        split at h
        · rename_i hnear
          cases h
          rw [getElem?_layout] at hoffset
          split at hoffset
          · rename_i hn
            cases hoffset
            exact .branch ht hl hn rfl hnear
          · cases hoffset
        · cases h

/-- Filling in goes on from instruction to instruction; the offset of each is the sum of the
sizes before it. -/
theorem filled_of_patchFrom {b : Body} {done all : Array Instruction} {offset : Nat}
    {is : List Instruction} (h : patchFrom b.labels b.layout done offset is = (all, none)) :
    ∃ js : List Instruction, all = done ++ js.toArray ∧ js.length = is.length ∧
      ∀ (n : Nat) (i : Instruction), is[n]? = some i →
        ∃ j, js[n]? = some j ∧ Filled b (offset + offsetOf is n) i j := by
  induction is generalizing done offset with
  | nil =>
    cases h
    exact ⟨[], by simp, rfl, fun n i hi => by simp at hi⟩
  | cons i is ih =>
    rw [patchFrom] at h
    split at h
    · rename_i j hj
      obtain ⟨js, rfl, hlength, hfilled⟩ := ih h
      refine ⟨j :: js, by simp, by simp [hlength], fun n k hk => ?_⟩
      cases n with
      | zero =>
        cases hk
        exact ⟨j, rfl, filled_of_patched hj⟩
      | succ n =>
        rw [Instruction.offsetOf_cons_succ, ← Nat.add_assoc]
        exact hfilled n k hk
    · simp at h

/-- **Laying out fills in every branch** and leaves the rest. All instructions keep their
lengths, so the offsets are known before the first distance is written. -/
theorem resolve_eq_ok {b c : Body} {length : Nat} (h : resolve b = .ok length c) :
    b.Resolved c length := by
  have hlength : (layOut #[] 0 b.instructions.toList).2 =
      offsetOf b.instructions.toList b.instructions.size := by
    rw [layOut_eq, Nat.zero_add, Array.length_toList]
  unfold resolve at h
  split at h
  · rename_i offsets total hlaid
    have hoffsets : b.layout = offsets := by rw [layout, hlaid]
    rw [hlaid] at hlength
    split at h
    · cases h
    · rename_i hshort
      rw [← hoffsets] at h
      split at h
      · rename_i all hpatched
        cases h
        obtain ⟨js, rfl, hjs, hfilled⟩ := filled_of_patchFrom hpatched
        exact
          { offset? := b.getElem?_layout
            size := by simpa using hjs
            filled := fun n i hi => by simpa using hfilled n i (by simpa using hi)
            length_eq := hlength
            length_le := Nat.le_of_not_lt hshort
            maxStack := rfl
            maxLocals := rfl
            entry := rfl
            frames := rfl }
      · cases h

/-! ### Code that is laid out -/

section

variable {b c : Body} {origin length : Nat} {i j : Instruction}

/-- Filling in changes the operand bytes of branches only. -/
theorem Filled.same (h : Filled b origin i j) (hi : i.Labelled) :
    j.opcode = i.opcode ∧ j.wide = i.wide ∧ j.target? = i.target? ∧
      j.operands.length = i.operands.length := by
  cases h with
  | plain => exact ⟨rfl, rfl, rfl, rfl⟩
  | branch ht =>
    have hbranch : i.opcode.effect.isBranch = true := by rw [← hi.target, ht]; rfl
    exact ⟨rfl, rfl, rfl, (hi.of_branch hbranch).1.symm⟩

theorem Filled.size (h : Filled b origin i j) (hi : i.Labelled) : j.size = i.size := by
  obtain ⟨-, hwide, -, hlength⟩ := h.same hi
  unfold Instruction.size
  rw [hwide, hlength]

theorem Filled.labelled (h : Filled b origin i j) (hi : i.Labelled) : j.Labelled := by
  obtain ⟨hopcode, hwide, htarget, hlength⟩ := h.same hi
  exact
    { operands := by rw [hlength, hopcode, hwide, hi.operands]
      wide := by rw [hwide, hopcode]; exact hi.wide
      target := by rw [htarget, hopcode, hi.target] }

theorem operand16?_item {op : Opcode} {delta : Int} {wide : Bool} (offset : Nat) :
    (CodeItem.mk offset op (Bytes.i16 delta) wide).operand16? =
      some (UInt16.ofNat (delta % 65536).toNat) :=
  congrArg some (Machine.word_bytes _)

/-- **A branch goes to the instruction at its label.** Adding the distance that was written
to the offset of the branch gives the offset of that instruction, for branches backwards as
well. -/
theorem Filled.destination? (h : Filled b origin i j) (hi : i.Labelled) :
    (j.item origin).destination? =
      (i.target?.bind fun target => b.labels[target.index]?).map
        (offsetOf b.instructions.toList) := by
  cases h with
  | plain ht =>
    have hbranch : ¬ i.opcode.effect.isBranch = true := by rw [← hi.target, ht]; simp
    rw [ht, CodeItem.destination?]
    exact if_neg hbranch
  | @branch target index delta ht hl hn hd hnear =>
    have hbranch : i.opcode.effect.isBranch = true := by rw [← hi.target, ht]; rfl
    rw [ht, Option.bind_some, hl, CodeItem.destination?]
    refine (if_pos hbranch).trans ?_
    change (CodeItem.mk origin i.opcode (Bytes.i16 delta) i.wide).operand16?.bind _ = _
    rw [operand16?_item, Option.bind_some]
    dsimp only
    change (if (origin : Int) + _ < 0 then none else some ((origin : Int) + _).toNat) = _
    rw [Machine.toInt_word hnear]
    have hsum : (origin : Int) + delta = offsetOf b.instructions.toList index := by omega
    rw [hsum, if_neg (by omega), Int.toNat_natCast]
    rfl

/-- A body that is laid out has the sizes of the body before. -/
theorem Resolved.map_size (h : b.Resolved c length) (hb : ∀ i ∈ b.instructions, i.Labelled) :
    c.instructions.toList.map Instruction.size = b.instructions.toList.map Instruction.size := by
  refine List.ext_getElem? fun n => ?_
  rw [List.getElem?_map, List.getElem?_map, Array.getElem?_toList, Array.getElem?_toList]
  cases hi : b.instructions[n]? with
  | none =>
    have hn := Array.getElem?_eq_none_iff.1 hi
    rw [← h.size] at hn
    rw [Array.getElem?_eq_none_iff.2 hn]
  | some i =>
    obtain ⟨j, hj, hfilled⟩ := h.filled n i hi
    rw [hj, Option.map_some, Option.map_some, hfilled.size (hb i (Array.mem_of_getElem? hi))]

theorem Resolved.offsetOf_eq (h : b.Resolved c length) (hb : ∀ i ∈ b.instructions, i.Labelled)
    (n : Nat) : offsetOf c.instructions.toList n = offsetOf b.instructions.toList n :=
  Instruction.offsetOf_congr (h.map_size hb) n

/-- The instruction that a filled in one was made from. -/
theorem Resolved.exists_filled (h : b.Resolved c length) {n : Nat}
    (hj : c.instructions[n]? = some j) :
    ∃ i, b.instructions[n]? = some i ∧ Filled b (offsetOf b.instructions.toList n) i j := by
  have hn := (Array.getElem?_eq_some_iff.1 hj).1
  rw [h.size] at hn
  obtain ⟨k, hk, hfilled⟩ := h.filled n _ (Array.getElem?_eq_getElem hn)
  rw [hj] at hk
  cases hk
  exact ⟨_, Array.getElem?_eq_getElem hn, hfilled⟩

theorem Resolved.labelled (h : b.Resolved c length) (hb : ∀ i ∈ b.instructions, i.Labelled) :
    ∀ j ∈ c.instructions, j.Labelled := by
  intro j hj
  obtain ⟨n, hn⟩ := Array.getElem?_of_mem hj
  obtain ⟨i, hi, hfilled⟩ := h.exists_filled hn
  exact hfilled.labelled (hb i (Array.mem_of_getElem? hi))

/-- **The code is split back into the instructions** -/
theorem Resolved.items (h : b.Resolved c length) (hb : ∀ i ∈ b.instructions, i.Labelled) :
    Disassembly.items c.code = .ok (Instruction.itemsAt 0 c.instructions.toList) :=
  Disassembly.items_encode fun j hj => (h.labelled hb j (Array.mem_toList_iff.1 hj)).toRegular

theorem Resolved.length_code (h : b.Resolved c length) (hb : ∀ i ∈ b.instructions, i.Labelled) :
    c.code.length = length := by
  rw [code, Instruction.length_flatMap_encode, h.offsetOf_eq hb, Array.length_toList, h.size,
    h.length_eq]

end

end Body
end ClassForge
