/-
# Code is split without loss

Specification, section 10.6: the decoding of instructions, with `wide`.

Code is read from left to right, and what is read is a partition of its bytes
(`Disassembly.Partition`):

| part | says |
| --- | --- |
| `regular` | every instruction has the operand bytes of its opcode |
| `bytes` | the bytes of the instructions, one behind the other, are the code |
| `first`, `following`, `last` | each instruction starts where the one before it ends |

Code has at most one partition, and it is split just if it has one
(`Disassembly.items_eq_ok_iff`): the byte `0xC4` is no opcode, no two opcodes share a byte,
and so the first bytes of an instruction say how long it is.  In particular a code that ends
inside an instruction is not split.
-/

import ClassForge.Proofs.Layout

namespace ClassForge

/-! ### Instructions that stand side by side -/

namespace CodeItem

/-- The operand bytes are as many as the opcode takes, twice as many behind `wide`, and
`wide` stands only where it may. -/
structure Regular (i : CodeItem) : Prop where
  operands : i.operands.length = Disassembly.operandCount i.wide i.opcode
  wide : i.wide = true → i.opcode.hasSlotOperand = true

theorem length_encode (i : CodeItem) : i.encode.length = i.size := by
  unfold encode size
  cases i.wide <;> simp <;> omega

/-- Each instruction starts where the one before it ends, and the first one at `start`. -/
def Adjacent : Nat → List CodeItem → Prop
  | _, [] => True
  | start, i :: is => i.offset = start ∧ Adjacent (start + i.size) is

/-- The offsets of adjacent instructions, one by one. -/
theorem adjacent_iff (start : Nat) (is : List CodeItem) :
    Adjacent start is ↔ (∀ i, is[0]? = some i → i.offset = start) ∧
      ∀ n i j, is[n]? = some i → is[n + 1]? = some j → j.offset = i.offset + i.size := by
  induction is generalizing start with
  | nil => simp [Adjacent]
  | cons k is ih =>
    rw [Adjacent, ih]
    constructor
    · rintro ⟨hk, hfirst, hfollowing⟩
      refine ⟨fun i hi => ?_, fun n i j hi hj => ?_⟩
      · obtain rfl : k = i := by simpa using hi
        exact hk
      · cases n with
        | zero =>
          obtain rfl : k = i := by simpa using hi
          rw [hk]
          exact hfirst j (by simpa using hj)
        | succ n => exact hfollowing n i j (by simpa using hi) (by simpa using hj)
    · rintro ⟨hfirst, hfollowing⟩
      have hk : k.offset = start := hfirst k rfl
      refine ⟨hk, fun i hi => ?_, fun n i j hi hj => ?_⟩
      · rw [← hk]
        exact hfollowing 0 k i rfl (by simpa using hi)
      · exact hfollowing (n + 1) i j (by simpa using hi) (by simpa using hj)

/-- The last of adjacent instructions ends behind all the bytes. -/
theorem Adjacent.last {start : Nat} {is : List CodeItem} (h : Adjacent start is) {i : CodeItem}
    (hi : is.getLast? = some i) :
    i.offset + i.size = start + (is.flatMap encode).length := by
  induction is generalizing start with
  | nil => simp at hi
  | cons k is ih =>
    obtain ⟨hk, hrest⟩ := h
    rw [List.flatMap_cons, List.length_append, length_encode]
    cases is with
    | nil =>
      obtain rfl : k = i := by simpa using hi
      simp [hk]
    | cons j is =>
      have hlast := ih hrest (by simpa using hi)
      omega

end CodeItem

/-! ### One instruction -/

namespace Disassembly

variable {offset : Nat} {wide : Bool} {code rest : Bytes} {i : CodeItem}

/-- **An instruction is read just if the code starts with its bytes.** There is one way to
read bytes as an instruction, and a wide one is told by the mark in front. -/
theorem next_eq_ok_iff : next offset wide code = .ok (i, rest) ↔
    i.Regular ∧ i.offset = offset ∧ i.wide = wide ∧
      code = i.opcode.code :: (i.operands ++ rest) := by
  constructor
  · intro h
    unfold next at h
    split at h
    · simp at h
    · rename_i byte bytes
      split at h
      · simp at h
      · rename_i opcode hopcode
        split at h
        · simp at h
        · rename_i hwide
          dsimp only at h
          split at h
          · simp at h
          · rename_i hlength
            have htake : (bytes.take (operandCount wide opcode)).length =
                operandCount wide opcode := by
              have := List.length_take_le (operandCount wide opcode) bytes
              omega
            obtain ⟨rfl, rfl⟩ := Prod.mk.inj (Except.ok.inj h)
            refine ⟨⟨htake, fun hw => ?_⟩, rfl, rfl, ?_⟩
            · exact Decidable.byContradiction fun hslot => hwide ⟨hw, hslot⟩
            · show byte :: bytes = opcode.code :: (_ ++ _)
              rw [List.take_append_drop, Opcode.ofCode?_eq_some.1 hopcode]
  · rintro ⟨hregular, rfl, rfl, rfl⟩
    have hwide : ¬ (i.wide = true ∧ ¬ i.opcode.hasSlotOperand = true) :=
      fun h => h.2 (hregular.wide h.1)
    unfold next
    simp only [Opcode.ofCode?_code, if_neg hwide, ← hregular.operands, List.take_left,
      List.drop_left, Nat.lt_irrefl, if_false]

/-- The first instruction of some code, and what is read behind it.  The byte `wide` and
those of the opcodes say which of the two ways the code starts. -/
theorem itemsFrom_eq_ok_iff {done all : List CodeItem} (hcode : code ≠ []) :
    itemsFrom done offset code = .ok all ↔
      ∃ i rest, i.Regular ∧ i.offset = offset ∧ code = i.encode ++ rest ∧
        itemsFrom (i :: done) (offset + i.size) rest = .ok all := by
  obtain ⟨byte, bytes, rfl⟩ := List.exists_cons_of_ne_nil hcode
  constructor
  · intro h
    rw [itemsFrom] at h
    split at h
    · rename_i hbyte
      split at h
      · simp at h
      · rename_i i rest hnext
        obtain ⟨hregular, hoffset, hwide, hbytes⟩ := next_eq_ok_iff.1 hnext
        refine ⟨i, rest, hregular, hoffset, ?_, h⟩
        simp [CodeItem.encode, hwide, hbyte, hbytes]
    · split at h
      · simp at h
      · rename_i i rest hnext
        obtain ⟨hregular, hoffset, hwide, hbytes⟩ := next_eq_ok_iff.1 hnext
        refine ⟨i, rest, hregular, hoffset, ?_, h⟩
        simp [CodeItem.encode, hwide, hbytes]
  · rintro ⟨i, rest, hregular, hoffset, hbytes, h⟩
    have hnext : next offset i.wide (i.opcode.code :: (i.operands ++ rest)) = .ok (i, rest) :=
      next_eq_ok_iff.2 ⟨hregular, hoffset, rfl, rfl⟩
    rw [hbytes]
    cases hwide : i.wide with
    | true =>
      have hencode : i.encode ++ rest = Opcode.wide :: i.opcode.code :: (i.operands ++ rest) := by
        simp [CodeItem.encode, hwide]
      rw [hwide] at hnext
      rw [hencode, itemsFrom, if_pos rfl]
      split
      · simp_all
      · simp_all
    | false =>
      have hencode : i.encode ++ rest = i.opcode.code :: (i.operands ++ rest) := by
        simp [CodeItem.encode, hwide]
      rw [hwide] at hnext
      rw [hencode, itemsFrom, if_neg (code_ne_wide i.opcode)]
      split
      · simp_all
      · simp_all

/-! ### All instructions -/

/-- **What is read from some code on**: regular instructions side by side whose bytes are the
code. -/
theorem itemsFrom_iff {done all : List CodeItem} :
    itemsFrom done offset code = .ok all ↔
      ∃ is, all = done.reverse ++ is ∧ (∀ i ∈ is, i.Regular) ∧ CodeItem.Adjacent offset is ∧
        is.flatMap CodeItem.encode = code := by
  -- the code behind the first instruction is shorter
  induction hn : code.length using Nat.strongRecOn generalizing code offset done with
  | ind n ih =>
    subst hn
    by_cases hcode : code = []
    · subst hcode
      rw [itemsFrom]
      constructor
      · intro h
        obtain rfl := Except.ok.inj h
        exact ⟨[], by simp, by simp, trivial, rfl⟩
      · rintro ⟨is, rfl, -, -, hbytes⟩
        cases is with
        | nil => simp
        | cons i is =>
          have := congrArg List.length hbytes
          rw [List.flatMap_cons, List.length_append, CodeItem.length_encode] at this
          simp [CodeItem.size] at this
    · rw [itemsFrom_eq_ok_iff hcode]
      constructor
      · rintro ⟨i, rest, hregular, hoffset, rfl, h⟩
        have hshorter : rest.length < (i.encode ++ rest).length := by
          rw [List.length_append, CodeItem.length_encode, CodeItem.size]
          omega
        obtain ⟨is, rfl, hall, hadjacent, hbytes⟩ := (ih _ hshorter rfl).1 h
        refine ⟨i :: is, by simp, ?_, ⟨hoffset, hadjacent⟩, by rw [List.flatMap_cons, hbytes]⟩
        simpa using ⟨hregular, hall⟩
      · rintro ⟨is, rfl, hall, hadjacent, hbytes⟩
        cases is with
        | nil => exact absurd hbytes.symm hcode
        | cons i is =>
          obtain ⟨hoffset, hadjacent⟩ := hadjacent
          rw [List.flatMap_cons] at hbytes
          subst hbytes
          have hshorter : (is.flatMap CodeItem.encode).length <
              (i.encode ++ is.flatMap CodeItem.encode).length := by
            rw [List.length_append, CodeItem.length_encode, CodeItem.size]
            omega
          refine ⟨i, _, hall i List.mem_cons_self, hoffset, rfl, (ih _ hshorter rfl).2 ?_⟩
          exact ⟨is, by simp, fun j hj => hall j (List.mem_cons_of_mem i hj), hadjacent, rfl⟩

/-- Some instructions are a partition of the bytes of some code. -/
structure Partition (code : Bytes) (is : List CodeItem) : Prop where
  regular : ∀ i ∈ is, i.Regular
  bytes : is.flatMap CodeItem.encode = code
  first : ∀ i, is[0]? = some i → i.offset = 0
  following : ∀ n i j, is[n]? = some i → is[n + 1]? = some j → j.offset = i.offset + i.size
  last : ∀ i, is.getLast? = some i → i.offset + i.size = code.length

/-- **Code is split just into its partition.** -/
theorem items_eq_ok_iff {is : List CodeItem} : items code = .ok is ↔ Partition code is := by
  rw [items, itemsFrom_iff]
  constructor
  · rintro ⟨is, rfl, hregular, hadjacent, rfl⟩
    obtain ⟨hfirst, hfollowing⟩ := (CodeItem.adjacent_iff 0 is).1 hadjacent
    refine ⟨hregular, rfl, hfirst, hfollowing, fun i hi => ?_⟩
    simpa using hadjacent.last (by simpa using hi)
  · intro h
    exact ⟨is, by simp, h.regular, (CodeItem.adjacent_iff 0 is).2 ⟨h.first, h.following⟩, h.bytes⟩

/-- Instructions that are read back are regular. -/
theorem regular_of_items {js : List Instruction}
    (h : items (js.flatMap Instruction.encode) = .ok (Instruction.itemsAt 0 js)) :
    ∀ j ∈ js, j.Regular := by
  intro j hj
  obtain ⟨n, hn⟩ := List.mem_iff_getElem?.1 hj
  have hitem : j.item (0 + Instruction.offsetOf js n) ∈ Instruction.itemsAt 0 js := by
    refine List.mem_of_getElem? (i := n) ?_
    rw [Instruction.getElem?_itemsAt, hn]
    rfl
  have hregular := (items_eq_ok_iff.1 h).regular _ hitem
  exact ⟨hregular.operands, hregular.wide⟩

/-- **Splitting code loses nothing and makes nothing up.**  Whatever the bytes are, they are
split into their partition if they have one, and else not at all.  And instructions are
read back from their bytes, each at the sum of the sizes before it, just if all of them are
regular. -/
theorem items_partition (code : Bytes) (is : List CodeItem) (js : List Instruction) :
    (items code = .ok is ↔ Partition code is) ∧
    (items (js.flatMap Instruction.encode) = .ok (Instruction.itemsAt 0 js) ↔
      ∀ j ∈ js, j.Regular) :=
  ⟨items_eq_ok_iff, regular_of_items, items_encode⟩

/-- A widened increment in front of a branch back to the start. -/
example : items [0x1A, 0x9E, 0x00, 0x09, 0xC4, 0x84, 0x01, 0x00, 0xFF, 0xFF, 0xA7, 0xFF, 0xF6] =
    .ok [⟨0, .iload0, [], false⟩, ⟨1, .ifle, [0x00, 0x09], false⟩,
      ⟨4, .iinc, [0x01, 0x00, 0xFF, 0xFF], true⟩, ⟨10, .goto, [0xFF, 0xF6], false⟩] := by
  cbv

end Disassembly
end ClassForge
