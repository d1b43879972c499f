/-
# Offsets are exact from end to end

Specification, section 8, *offset-delta correctness*.

A body that the assembler finishes is closed: each of its branches has a label, and
the label stands at an instruction (`Body.Closed`).  So nothing but a distance can
keep it from being laid out, once it is short enough:

| the body | `Body.resolve` |
| --- | --- |
| every branch is near its destination | succeeds |
| some branch is not | fails, and names the first such branch |

The instructions may come from any of the constructors.  A branch among them that
is pushed where control cannot be is dropped like everything else.
-/

import ClassForge.Proofs.Flow
import ClassForge.Proofs.Storage
import Mathlib.Algebra.GroupWithZero.Nat

namespace ClassForge

/-! ### Instructions made by the constructors -/

/-- The instruction is made by one of the constructors, with as many operand bytes
as its opcode takes. -/
inductive Instruction.Constructed : Instruction → Prop where
  | make {op : Opcode} {operands : Bytes} (h : operands.length = op.operandBytes) :
    Constructed (.make op operands)
  | withConstant {op : Opcode} (h : op.operandBytes = 2) (index : UInt16) :
    Constructed (.withConstant op index)
  | invokeInterface (index : UInt16) (slots : UInt8) : Constructed (.invokeInterface index slots)
  | newMultiArray (index : UInt16) (dimensions : UInt8) :
    Constructed (.newMultiArray index dimensions)
  | newPrimitiveArray (element : BaseType) : Constructed (.newPrimitiveArray element)
  | loadConstant (index : UInt16) : Constructed (.loadConstant index)
  | pushInt {n : Int} {i : Instruction} (h : pushInt? n = some i) : Constructed i
  | pushFloat {x : Binary32} {i : Instruction} (h : pushFloat? x = some i) : Constructed i
  | load (kind : ValueKind) (slot : UInt16) : Constructed (.load kind slot)
  | store (kind : ValueKind) (slot : UInt16) : Constructed (.store kind slot)
  | increment (slot : UInt16) (amount : Int16) : Constructed (.increment slot amount)
  | branch {op : Opcode} (h : op.effect.isBranch = true) (target : Label) (arriving : Frame) :
    Constructed (.branch op target arriving)

/-- What a constructor makes is regular, and has no label unless it is a branch. -/
theorem Instruction.Constructed.plain {i : Instruction} (h : i.Constructed)
    (hbranch : i.opcode.effect.isBranch = false) : i.Plain := by
  cases h with
  | make h => exact plain_of_narrow rfl h rfl
  | withConstant h index => exact plain_withConstant h index
  | invokeInterface index slots => exact plain_of_narrow rfl rfl rfl
  | newMultiArray index dimensions => exact plain_of_narrow rfl rfl rfl
  | newPrimitiveArray element => exact plain_of_narrow rfl rfl rfl
  | loadConstant index => exact plain_loadConstant index
  | pushInt h => exact plain_pushInt h
  | pushFloat h => exact plain_pushFloat h
  | load kind slot => exact plain_load kind slot
  | store kind slot => exact plain_store kind slot
  | increment slot amount => exact plain_increment slot amount
  | branch h => exact absurd (h.symm.trans hbranch) (by decide)

/-- The instructions of an operation are made by the constructors. -/
def Operation.Constructed : Operation → Prop
  | .push i _ => i.Constructed
  | .branch op _ => op.effect.isBranch = true
  | _ => True

/-- Such an operation is regular, unless it is dropped. -/
theorem Operation.Constructed.regular {o : Operation} {a b : Assembler} (ho : o.Constructed)
    (h : Advances o a b) : b = a ∨ o.Regular := by
  cases h with
  | drop => exact .inl rfl
  | push hc hi hs => exact .inr (Instruction.Constructed.plain ho hi)
  | jumpBack => exact .inr ho
  | jumpAhead => exact .inr ho
  | _ => exact .inr trivial

/-- What such operations add is added by regular ones. -/
theorem Built.of_constructed {os : List Operation} {a b : Assembler}
    (hos : ∀ o ∈ os, o.Constructed) (hrun : Operation.runAll os a = .ok () b) : Built a b := by
  induction os generalizing a with
  | nil =>
    cases hrun
    exact .refl _
  | cons o os ih =>
    obtain ⟨x, hx, hrun⟩ := Operation.runAll_cons.1 hrun
    have hrest := ih (fun p hp => hos p (List.mem_cons_of_mem o hp)) hrun
    rcases (hos o List.mem_cons_self).regular hx with rfl | ho
    · exact hrest
    · exact (single ho hx).trans hrest

/-! ### Labels that are branched to -/

namespace Assembler

/-- Some instruction has the label with the given number. -/
def hasBranchTo (a : Assembler) (n : Nat) : Prop :=
  ∃ i ∈ a.instructions, i.target? = some ⟨n⟩

end Assembler

/-- **The labels that are branched to are those of the instructions.** -/
theorem Built.isTarget_iff {pool : ConstantPool} {entry : Frame} {a : Assembler}
    (h : Built (Assembler.start pool entry) a) (n : Nat) : a.isTarget n ↔ a.hasBranchTo n := by
  rw [h.connected.targets ⟨n⟩]
  constructor
  · rintro ⟨i, hi, -, ht⟩
    exact ⟨i, hi, ht⟩
  · rintro ⟨i, hi, ht⟩
    refine ⟨i, hi, ?_, ht⟩
    rw [← (h.labelled i hi).target, ht]
    rfl

/-! ### Bodies whose labels stand at instructions -/

namespace Body

open Instruction (offsetOf)

/-- Every branch has a label, and the label stands at an instruction. -/
structure Closed (b : Body) : Prop where
  labelled : ∀ i ∈ b.instructions, i.Labelled
  placed : ∀ i ∈ b.instructions, ∀ target, i.target? = some target →
    ∃ index, b.labels[target.index]? = some index ∧ index < b.instructions.size

/-- **A finished body is closed.** -/
theorem closed_of_finish {pool : ConstantPool} {entry : Frame} {a : Assembler} {b : Body}
    (h : Built (Assembler.start pool entry) a) (hfinish : a.finish = .ok b) : b.Closed := by
  obtain ⟨-, hplacement, hinstructions, -⟩ := Assembler.finish_eq_ok hfinish
  refine ⟨fun i hi => h.labelled i (hinstructions ▸ hi), fun i hi target ht => ?_⟩
  obtain ⟨state, hstate, hjumped⟩ := (h.isTarget_iff target.index).2 ⟨i, hinstructions ▸ hi, ht⟩
  have hmem : state ∈ a.labels.toList := Array.mem_toList_iff.2 (Array.mem_of_getElem? hstate)
  obtain ⟨index, f, hplaced, hlt, -⟩ := hplacement.branched state hmem hjumped
  refine ⟨index, ?_, hinstructions ▸ hlt⟩
  have hposition := hplacement.positions target.index
  rw [Array.getElem?_toList, hstate, Option.bind_some, hplaced] at hposition
  exact hposition

/-- The sum of the sizes of the instructions before the one with the given
number. -/
def sizeBefore (b : Body) (n : Nat) : Nat :=
  ((b.instructions.toList.take n).map Instruction.size).sum

/-- The sum of the sizes before an instruction is its offset in the layout. -/
theorem sizeBefore_eq (b : Body) (n : Nat) : b.sizeBefore n = offsetOf b.instructions.toList n := by
  unfold sizeBefore
  generalize b.instructions.toList = is
  induction is generalizing n with
  | nil => simp
  | cons i is ih =>
    cases n with
    | zero => simp
    | succ n =>
      rw [List.take_succ_cons, List.map_cons, List.sum_cons, ih, Instruction.offsetOf_cons_succ]

/-- The instruction is a branch to the offset `destination`, which cannot be reached
from the offset `origin`. -/
def Misses (b : Body) (origin destination : Nat) (i : Instruction) : Prop :=
  ∃ target index, i.target? = some target ∧ b.labels[target.index]? = some index ∧
    destination = b.sizeBefore index ∧
    ¬ (-32768 ≤ (destination : Int) - origin ∧ (destination : Int) - origin ≤ 32767)

/-- The instruction with the given number is a branch whose destination is too far
away. -/
def MissesAt (b : Body) (n destination : Nat) : Prop :=
  ∃ i, b.instructions[n]? = some i ∧ b.Misses (b.sizeBefore n) destination i

/-- A branch with its label placed is filled in, or its destination is too far. -/
theorem Closed.patched {b : Body} (h : b.Closed) {i : Instruction} (hi : i ∈ b.instructions)
    (origin : Nat) :
    (∃ j, patched b.labels b.layout origin i = .ok j ∧ ∀ d, ¬ b.Misses origin d i) ∨
      ∃ d, b.Misses origin d i ∧
        patched b.labels b.layout origin i = .error (.branchTooFar origin d) := by
  unfold Body.patched
  cases ht : i.target? with
  | none =>
    refine .inl ⟨i, rfl, ?_⟩
    rintro d ⟨target, -, htarget, -⟩
    rw [ht] at htarget
    cases htarget
  | some target =>
    obtain ⟨index, hlabel, hindex⟩ := h.placed i hi target ht
    dsimp only
    rw [hlabel]
    dsimp only
    rw [getElem?_layout, if_pos hindex]
    dsimp only
    rw [← sizeBefore_eq]
    split
    · rename_i hnear
      refine .inl ⟨_, rfl, ?_⟩
      rintro d ⟨target', index', ht', hlabel', rfl, hfar⟩
      rw [ht] at ht'
      cases ht'
      rw [hlabel] at hlabel'
      cases hlabel'
      exact hfar ⟨hnear.1, by omega⟩
    · rename_i hfar
      refine .inr ⟨b.sizeBefore index, ⟨target, index, ht, hlabel, rfl, ?_⟩, rfl⟩
      omega

/-- Filling in goes on up to the first branch whose destination is too far. -/
theorem Closed.patchFrom {b : Body} (h : b.Closed) {is : List Instruction}
    (his : ∀ i ∈ is, i ∈ b.instructions) (done : Array Instruction) (offset : Nat) :
    (∃ all, patchFrom b.labels b.layout done offset is = (all, none) ∧
      ∀ n i, is[n]? = some i → ∀ d, ¬ b.Misses (offset + offsetOf is n) d i) ∨
    ∃ all n i d, patchFrom b.labels b.layout done offset is =
        (all, some (.branchTooFar (offset + offsetOf is n) d)) ∧
      is[n]? = some i ∧ b.Misses (offset + offsetOf is n) d i ∧
      ∀ m < n, ∀ j, is[m]? = some j → ∀ d, ¬ b.Misses (offset + offsetOf is m) d j := by
  induction is generalizing done offset with
  | nil => exact .inl ⟨done, rfl, by simp⟩
  | cons i is ih =>
    rw [Body.patchFrom]
    rcases h.patched (his i List.mem_cons_self) offset with ⟨j, hj, hnear⟩ | ⟨d, hfar, herror⟩
    · rw [hj]
      dsimp only
      rcases ih (fun k hk => his k (List.mem_cons_of_mem i hk)) (done.push j) (offset + i.size) with
        ⟨all, hall, hrest⟩ | ⟨all, n, k, d, hall, hk, hfar, hfirst⟩
      · refine .inl ⟨all, hall, fun n k hk => ?_⟩
        cases n with
        | zero =>
          cases hk
          simpa using hnear
        | succ n =>
          rw [Instruction.offsetOf_cons_succ, ← Nat.add_assoc]
          exact hrest n k hk
      · refine .inr ⟨all, n + 1, k, d, ?_, hk, ?_, fun m hm l hl => ?_⟩
        · rw [Instruction.offsetOf_cons_succ, ← Nat.add_assoc]
          exact hall
        · rw [Instruction.offsetOf_cons_succ, ← Nat.add_assoc]
          exact hfar
        · cases m with
          | zero =>
            cases hl
            simpa using hnear
          | succ m =>
            rw [Instruction.offsetOf_cons_succ, ← Nat.add_assoc]
            exact hfirst m (by omega) l hl
    · rw [herror]
      exact .inr ⟨done ++ (i :: is).toArray, 0, i, d, by simp, rfl, by simpa using hfar, by omega⟩

/-- **Only a distance keeps a short body from being laid out**, and the first branch
with such a distance is named. -/
theorem Closed.resolve {b : Body} (h : b.Closed)
    (hlength : b.sizeBefore b.instructions.size ≤ maxLength) :
    (∃ length c, resolve b = .ok length c ∧ ∀ n d, ¬ b.MissesAt n d) ∨
      ∃ n d c, resolve b = .error (.branchTooFar (b.sizeBefore n) d) c ∧ b.MissesAt n d ∧
        ∀ m < n, ∀ d, ¬ b.MissesAt m d := by
  have htotal : (layOut #[] 0 b.instructions.toList).2 ≤ maxLength := by
    rw [layOut_eq, Nat.zero_add, Array.length_toList, ← sizeBefore_eq]
    exact hlength
  have hmisses : ∀ {n : Nat} {d : Nat}, b.MissesAt n d ↔ ∃ i, b.instructions.toList[n]? = some i ∧
      b.Misses (0 + offsetOf b.instructions.toList n) d i := by
    intro n d
    unfold MissesAt
    rw [sizeBefore_eq, Nat.zero_add, Array.getElem?_toList]
  unfold Body.resolve
  change
    (∃ length c, (if maxLength < (layOut #[] 0 b.instructions.toList).2 then _ else _) = _ ∧ _) ∨
    ∃ n d c, (if maxLength < (layOut #[] 0 b.instructions.toList).2 then _ else _) = _ ∧ _
  rw [if_neg (Nat.not_lt.2 htotal)]
  rcases h.patchFrom (fun i hi => Array.mem_toList_iff.1 hi) #[] 0 with
    ⟨all, hall, hnear⟩ | ⟨all, n, i, d, hall, hi, hfar, hfirst⟩
  · refine .inl ⟨(layOut #[] 0 b.instructions.toList).2,
      { b with offsets := b.layout, instructions := all }, ?_, fun n d hmiss => ?_⟩
    · unfold layout at hall
      rw [hall]
      rfl
    · obtain ⟨i, hi, hmiss⟩ := hmisses.1 hmiss
      exact hnear n i hi d hmiss
  · refine .inr ⟨n, d, { b with offsets := b.layout, instructions := all }, ?_,
      hmisses.2 ⟨i, hi, hfar⟩, fun m hm d hmiss => ?_⟩
    · unfold layout at hall
      rw [hall, Nat.zero_add, ← sizeBefore_eq]
      rfl
    · obtain ⟨j, hj, hmiss⟩ := hmisses.1 hmiss
      exact hfirst m hm j hj d hmiss

/-! ### Code that is read back -/

/-- The instructions of a body as they are read out of its code: each at the sum of
the sizes before it, with its opcode, its `wide` and its operands, where a branch has
the offset of the instruction at its label instead. -/
structure ReadsBack (b : Body) (items : List CodeItem) : Prop where
  length : items.length = b.instructions.size
  each : ∀ (n : Nat) (i : Instruction), b.instructions[n]? = some i →
    ∃ item, items[n]? = some item ∧ item.offset = b.sizeBefore n ∧ item.opcode = i.opcode ∧
      item.wide = i.wide ∧ (i.opcode.effect.isBranch = false → item.operands = i.operands) ∧
      (i.opcode.effect.isBranch = true → ∃ target index, i.target? = some target ∧
        b.labels[target.index]? = some index ∧ index < b.instructions.size ∧
        item.destination? = some (b.sizeBefore index))

/-- **A closed body is read back from its bytes**, instruction by instruction, and every
branch leads to the place of its label. -/
theorem Closed.readsBack {b c : Body} {length : Nat} (h : b.Closed) (hc : b.Resolved c length) :
    b.ReadsBack (Instruction.itemsAt 0 c.instructions.toList) where
  length := by
    have hlength : ∀ offset (is : List Instruction),
        (Instruction.itemsAt offset is).length = is.length := by
      intro offset is
      induction is generalizing offset with
      | nil => rfl
      | cons i is ih => rw [Instruction.itemsAt, List.length_cons, ih, List.length_cons]
    rw [hlength, Array.length_toList, hc.size]
  each n i hi := by
    have hmem := Array.mem_of_getElem? hi
    have hlabelled := h.labelled i hmem
    obtain ⟨j, hj, hfilled⟩ := hc.filled n i hi
    obtain ⟨hopcode, hwide, -, -⟩ := hfilled.same hlabelled
    refine ⟨j.item (b.sizeBefore n), ?_, rfl, hopcode, hwide, fun hplain => ?_, fun hbranch => ?_⟩
    · rw [Instruction.getElem?_itemsAt, Array.getElem?_toList, hj, hc.offsetOf_eq h.labelled,
        Nat.zero_add, sizeBefore_eq, Option.map_some]
    · have hnone : i.target? = none := by
        rw [← Option.not_isSome_iff_eq_none, hlabelled.target, hplain]
        decide
      cases hfilled with
      | plain => rfl
      | branch ht => rw [hnone] at ht; cases ht
    · obtain ⟨target, ht⟩ := Option.isSome_iff_exists.1 (hlabelled.target.trans hbranch)
      obtain ⟨index, hindex, hlt⟩ := h.placed i hmem target ht
      refine ⟨target, index, ht, hindex, hlt, ?_⟩
      rw [sizeBefore_eq, sizeBefore_eq, hfilled.destination? hlabelled, ht, Option.bind_some,
        hindex, Option.map_some]

/-- **Offsets are exact from end to end.**  Take any operations that succeed, with
instructions from the constructors, and the body that they end in.  If its code is
stored, the bytes are read back as its instructions, and every branch goes to the
instruction at its label.  If it is short enough, laying it out fails for the distance
of a branch just if some branch is too far from its destination, and names the first
such branch. -/
theorem offsets_exact {os : List Operation} {pool : ConstantPool} {entry : Frame} {a : Assembler}
    {b : Body} (hos : ∀ o ∈ os, o.Constructed)
    (hrun : Operation.runAll os (Assembler.start pool entry) = .ok () a)
    (hfinish : a.finish = .ok b) :
    (∀ p code q, b.store p = .ok code q →
      ∃ items, Disassembly.items code.code = .ok items ∧ b.ReadsBack items) ∧
    (b.sizeBefore b.instructions.size ≤ 65535 →
      ((∃ origin destination c, Body.resolve b = .error (.branchTooFar origin destination) c) ↔
        ∃ n destination, b.MissesAt n destination) ∧
      ∀ origin destination c, Body.resolve b = .error (.branchTooFar origin destination) c →
        ∃ n, origin = b.sizeBefore n ∧ b.MissesAt n destination ∧
          ∀ m < n, ∀ d, ¬ b.MissesAt m d) := by
  have hclosed := closed_of_finish (.of_constructed hos hrun) hfinish
  refine ⟨fun p code q hstore => ?_, fun hlength => ?_⟩
  · obtain ⟨-, hstored⟩ := b.yields_store p code q hstore
    obtain ⟨c, length, entry', frames, hresolved, hstored⟩ := hstored q (.refl q)
    refine ⟨_, ?_, hclosed.readsBack hresolved⟩
    rw [hstored.bytes]
    exact hresolved.items hclosed.labelled
  · rcases hclosed.resolve hlength with ⟨length, c, hok, hnear⟩ | ⟨n, d, c, herror, hfar, hfirst⟩
    · refine ⟨⟨?_, fun ⟨n, d, hfar⟩ => absurd hfar (hnear n d)⟩, ?_⟩
      · rintro ⟨origin, destination, c', herror⟩
        rw [hok] at herror
        cases herror
      · intro origin destination c' herror
        rw [hok] at herror
        cases herror
    · refine ⟨⟨fun _ => ⟨n, d, hfar⟩, fun _ => ⟨_, d, c, herror⟩⟩, ?_⟩
      intro origin destination c' herror'
      rw [herror] at herror'
      cases herror'
      exact ⟨n, rfl, hfar, hfirst⟩

/-- A loop that counts down by a thousand, which takes a `wide`; the branch behind
its end is dropped. -/
def steepCountdown : List Operation :=
  [.label none, .label none, .place ⟨0⟩, .push (.load .int 0) .none, .branch .ifle ⟨1⟩,
    .push (.increment 0 (-1000)) .none, .branch .goto ⟨0⟩,
    .push (.branch .goto ⟨0⟩ .empty) .none, .place ⟨1⟩, .push (.simple .returnVoid) .none]

/-- The sample operations are all made by the constructors of instructions. -/
theorem steepCountdown_constructed : ∀ o ∈ steepCountdown, o.Constructed := by
  intro o ho
  simp only [steepCountdown, List.mem_cons, List.not_mem_nil, or_false] at ho
  rcases ho with rfl | rfl | rfl | rfl | rfl | rfl | rfl | rfl | rfl | rfl
  case inr.inr.inr.inl => exact .load .int 0
  case inr.inr.inr.inr.inl => rfl
  case inr.inr.inr.inr.inr.inl => exact .increment 0 (-1000)
  case inr.inr.inr.inr.inr.inr.inl => rfl
  case inr.inr.inr.inr.inr.inr.inr.inl => exact .branch rfl _ _
  case inr.inr.inr.inr.inr.inr.inr.inr.inr => exact .make rfl
  all_goals trivial

/-- The code of the loop is stored and read back; no branch of it is too far. -/
theorem steepCountdown_offsets :
    ∃ a b code q items,
      (∀ o ∈ steepCountdown, o.Constructed) ∧
      Operation.runAll steepCountdown (Assembler.start .empty counterFrame) = .ok () a ∧
      a.finish = .ok b ∧ b.store .empty = .ok code q ∧
      code.code = [0x1A, 0x9E, 0, 12, 0xC4, 0x84, 0, 0, 0xFC, 0x18, 0xA7, 0xFF, 0xF6, 0xB1] ∧
      Disassembly.items code.code = .ok items ∧ b.ReadsBack items ∧
      b.sizeBefore b.instructions.size = 14 ∧ ∀ n d, ¬ b.MissesAt n d := by
  have h : (outcome? (Operation.runAll steepCountdown (Assembler.start .empty counterFrame))).any
      (fun r => r.2.finish.toOption.any fun b => (outcome? (Body.resolve b)).any fun c =>
        (outcome? (c.2.entry.store c.2.originOffset .empty)).any fun entry =>
          (outcome? (c.2.frames.toList.mapM (c.2.storeFrame c.1) entry.2)).any fun frames =>
            (StackMap.compress entry.1 frames.1).write.toOption.any fun _ => decide (
              c.2.maxStack < 65536 ∧ c.2.maxLocals < 65536 ∧ frames.2.size = 0 ∧
              b.sizeBefore b.instructions.size = 14 ∧
              c.2.code = [0x1A, 0x9E, 0, 12, 0xC4, 0x84, 0, 0, 0xFC, 0x18, 0xA7, 0xFF, 0xF6,
                0xB1])) = true := by decide +kernel
  obtain ⟨a, b, hrun, hfinish, h⟩ := exists_finish h
  obtain ⟨length, c, hresolve, h⟩ := exists_of_outcome h
  obtain ⟨entry, p₁, hentry, h⟩ := exists_of_outcome h
  obtain ⟨frames, p₂, hframes, h⟩ := exists_of_outcome h
  obtain ⟨info, hwrite, h⟩ := exists_of_toOption h
  obtain ⟨hstack, hlocals, hsize, hlength, hcode⟩ := of_decide_eq_true h
  have hroom : p₂.size < ConstantPool.capacity := by
    rw [hsize]
    decide
  obtain ⟨code, q, hstore, -⟩ := store_of_ok hresolve hstack hlocals hentry hframes hwrite hroom
  obtain ⟨hback, hfar⟩ := offsets_exact steepCountdown_constructed hrun hfinish
  obtain ⟨items, hitems, hreads⟩ := hback .empty code q hstore
  refine ⟨a, b, code, q, items, steepCountdown_constructed, hrun, hfinish, hstore, ?_, hitems,
    hreads, hlength, fun n d hmiss => ?_⟩
  · unfold store at hstore
    rw [hresolve] at hstore
    obtain ⟨-, hstored⟩ := c.yields_storeResolved length .empty code q hstore
    obtain ⟨entry', frames', hstored⟩ := hstored q (.refl q)
    rw [hstored.bytes, hcode]
  · obtain ⟨origin, destination, c', herror⟩ := (hfar (by omega)).1.2 ⟨n, d, hmiss⟩
    rw [hresolve] at herror
    cases herror

end Body
end ClassForge
