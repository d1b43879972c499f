/-
# The machine that runs code

A machine for the instructions over integers.  Its memory is the local slots and
the operand stack; each instruction either goes on with the next one, jumps to its
destination, or leaves the method, and one whose operands are not there is stuck.

Where instructions come from is left open (`Fetch`): the machine runs alike over
the instructions of a method body, with their numbers as addresses, and over the
bytes of its code, with offsets as addresses.

| bytes | meaning |
| --- | --- |
| one operand byte of a slot, two after `wide` | the number of the slot |
| one or two operand bytes of an amount | a number in two's complement |
| operand bytes of a constant | the number itself, or an index |
-/

import ClassForge.Disassembly

namespace ClassForge
namespace Machine

variable {n : Int} {v : Option Int32}

/-- The local slots and the operand stack, top first. -/
structure Memory where
  locals : Nat → Option Int32
  stack : List Int32

/-- What an instruction does. -/
inductive Action where
  /-- Control goes on with the next instruction. -/
  | go (m : Memory)
  /-- Control goes to the destination of the instruction. -/
  | jump (m : Memory)
  /-- The method is left, with a value or without. -/
  | leave (value : Option Int32)

/-- The integer constants of a class by their indices. -/
abbrev Constants := UInt16 → Option Int32

/-- A number of two bytes. -/
def word (high low : UInt8) : UInt16 := UInt16.ofNat (high.toNat * 256 + low.toNat)

/-- The memory with a value on top of the stack. -/
def Memory.push (m : Memory) (v : Int32) : Memory := { m with stack := v :: m.stack }

/-- The memory with a slot replaced, and another stack. -/
def Memory.store (m : Memory) (slot : Nat) (v : Int32) (stack : List Int32) : Memory where
  locals n := if n = slot then some v else m.locals n
  stack

/-- The constant that an instruction pushes. -/
def constant? (k : Constants) : Opcode → Bytes → Option Int32
  | .iconstM1, _ => some (-1)
  | .iconst0, _ => some 0
  | .iconst1, _ => some 1
  | .iconst2, _ => some 2
  | .iconst3, _ => some 3
  | .iconst4, _ => some 4
  | .iconst5, _ => some 5
  | .bipush, [b] => some b.toInt8.toInt32
  | .sipush, [high, low] => some (word high low).toInt16.toInt32
  | .ldc, [b] => k (UInt16.ofNat b.toNat)
  | .ldcW, [high, low] => k (word high low)
  | _, _ => none

/-- The slot that an instruction uses: part of its opcode, or its first operand. -/
def slot? (op : Opcode) (wide : Bool) (operands : Bytes) : Option Nat :=
  match op.implicitSlot, wide, operands with
  | some slot, _, _ => some slot.toNat
  | none, false, b :: _ => some b.toNat
  | none, true, high :: low :: _ => some (word high low).toNat
  | _, _, _ => none

/-- The amount of an increment, behind the slot. -/
def amount? : Bool → Bytes → Option Int32
  | false, [_, b] => some b.toInt8.toInt32
  | true, [_, _, high, low] => some (word high low).toInt16.toInt32
  | _, _ => none

/-- The result of an instruction with two operands, of which `b` is on top. -/
def binary? (op : Opcode) (a b : Int32) : Option Int32 :=
  match op with
  | .iadd => some (a + b)
  | .isub => some (a - b)
  | .imul => some (a * b)
  | .idiv => if b = 0 then none else some (a / b)
  | .irem => if b = 0 then none else some (a % b)
  | .iand => some (a &&& b)
  | .ior => some (a ||| b)
  | .ixor => some (a ^^^ b)
  | .ishl => some (a <<< (b &&& 31))
  | .ishr => some (a >>> (b &&& 31))
  | .iushr => some (a.toUInt32 >>> (b &&& 31).toUInt32).toInt32
  | _ => none

/-- Is a branch taken, and what is left of the stack? -/
def branch? : Opcode → List Int32 → Option (Bool × List Int32)
  | .goto, s => some (true, s)
  | .ifeq, a :: s => some (a = 0, s)
  | .ifne, a :: s => some (a ≠ 0, s)
  | .iflt, a :: s => some (a < 0, s)
  | .ifge, a :: s => some (0 ≤ a, s)
  | .ifgt, a :: s => some (0 < a, s)
  | .ifle, a :: s => some (a ≤ 0, s)
  | .ifIcmpeq, b :: a :: s => some (a = b, s)
  | .ifIcmpne, b :: a :: s => some (a ≠ b, s)
  | .ifIcmplt, b :: a :: s => some (a < b, s)
  | .ifIcmpge, b :: a :: s => some (b ≤ a, s)
  | .ifIcmpgt, b :: a :: s => some (b < a, s)
  | .ifIcmple, b :: a :: s => some (a ≤ b, s)
  | _, _ => none

/-- What an instruction does in a memory; none if it is stuck. -/
def exec (k : Constants) (op : Opcode) (wide : Bool) (operands : Bytes) (m : Memory) :
    Option Action :=
  match op with
  | .nop => some (.go m)
  | .iconstM1 | .iconst0 | .iconst1 | .iconst2 | .iconst3 | .iconst4 | .iconst5 | .bipush
  | .sipush | .ldc | .ldcW => do
    let v ← constant? k op operands
    some (.go (m.push v))
  | .iload | .iload0 | .iload1 | .iload2 | .iload3 => do
    let slot ← slot? op wide operands
    let v ← m.locals slot
    some (.go (m.push v))
  | .istore | .istore0 | .istore1 | .istore2 | .istore3 => do
    let slot ← slot? op wide operands
    match m.stack with
    | v :: rest => some (.go (m.store slot v rest))
    | [] => none
  | .iinc => do
    let slot ← slot? op wide operands
    let amount ← amount? wide operands
    let v ← m.locals slot
    some (.go (m.store slot (v + amount) m.stack))
  | .pop =>
    match m.stack with
    | _ :: rest => some (.go { m with stack := rest })
    | [] => none
  | .dup =>
    match m.stack with
    | v :: rest => some (.go { m with stack := v :: v :: rest })
    | [] => none
  | .ineg =>
    match m.stack with
    | v :: rest => some (.go { m with stack := -v :: rest })
    | [] => none
  | .iadd | .isub | .imul | .idiv | .irem | .iand | .ior | .ixor | .ishl | .ishr | .iushr =>
    match m.stack with
    | b :: a :: rest => do
      let v ← binary? op a b
      some (.go { m with stack := v :: rest })
    | _ => none
  | .goto | .ifeq | .ifne | .iflt | .ifge | .ifgt | .ifle | .ifIcmpeq | .ifIcmpne | .ifIcmplt
  | .ifIcmpge | .ifIcmpgt | .ifIcmple => do
    let (taken, rest) ← branch? op m.stack
    some (if taken then .jump { m with stack := rest } else .go { m with stack := rest })
  | .ireturn =>
    match m.stack with
    | v :: _ => some (.leave (some v))
    | [] => none
  | .returnVoid => some (.leave none)
  | _ => none

/-! ### Runs -/

/-- An instruction at an address. -/
structure Fetched where
  opcode : Opcode
  wide : Bool
  operands : Bytes
  /-- The address of the next instruction. -/
  next : Nat
  /-- The address that a branch goes to. -/
  destination : Option Nat

/-- The instructions by their addresses. -/
abbrev Fetch := Nat → Option Fetched

/-- The address of the current instruction, and the memory. -/
structure Config where
  pc : Nat
  memory : Memory

/-- One instruction that does not leave the method. -/
inductive Step (fetch : Fetch) (k : Constants) : Config → Config → Prop where
  | go {pc : Nat} {m m' : Memory} {i : Fetched} (hi : fetch pc = some i)
    (h : exec k i.opcode i.wide i.operands m = some (.go m')) : Step fetch k ⟨pc, m⟩ ⟨i.next, m'⟩
  | jump {pc n : Nat} {m m' : Memory} {i : Fetched} (hi : fetch pc = some i)
    (h : exec k i.opcode i.wide i.operands m = some (.jump m')) (hn : i.destination = some n) :
    Step fetch k ⟨pc, m⟩ ⟨n, m'⟩

/-- Instructions one after the other. -/
inductive Steps (fetch : Fetch) (k : Constants) : Config → Config → Prop where
  | refl (c : Config) : Steps fetch k c c
  | head {c d e : Config} (h : Step fetch k c d) (hs : Steps fetch k d e) : Steps fetch k c e

/-- The machine leaves the method, with a value or without. -/
inductive Returns (fetch : Fetch) (k : Constants) : Config → Option Int32 → Prop where
  | leave {pc : Nat} {m : Memory} {i : Fetched} {v : Option Int32} (hi : fetch pc = some i)
    (h : exec k i.opcode i.wide i.operands m = some (.leave v)) : Returns fetch k ⟨pc, m⟩ v
  | step {c d : Config} {v : Option Int32} (h : Step fetch k c d) (hs : Returns fetch k d v) :
    Returns fetch k c v

variable {fetch : Fetch} {k : Constants} {c d e : Config}

theorem Steps.single (h : Step fetch k c d) : Steps fetch k c d := .head h (.refl d)

/-- Runs one after the other are a run. -/
theorem Steps.trans (hcd : Steps fetch k c d) (hde : Steps fetch k d e) : Steps fetch k c e := by
  induction hcd with
  | refl => exact hde
  | head h _ ih => exact .head h (ih hde)

theorem Steps.returns (h : Steps fetch k c d) (hv : Returns fetch k d v) : Returns fetch k c v := by
  induction h with
  | refl => exact hv
  | head h _ ih => exact .step h (ih hv)

/-- The machine does one thing at a time. -/
theorem Step.unique (hd : Step fetch k c d) (he : Step fetch k c e) : d = e := by
  cases hd with
  | go hi h =>
    cases he with
    | go hi' h' =>
      cases hi.symm.trans hi'
      cases h.symm.trans h'
      rfl
    | jump hi' h' _ =>
      cases hi.symm.trans hi'
      cases h.symm.trans h'
  | jump hi h hn =>
    cases he with
    | go hi' h' =>
      cases hi.symm.trans hi'
      cases h.symm.trans h'
    | jump hi' h' hn' =>
      cases hi.symm.trans hi'
      cases h.symm.trans h'
      cases hn.symm.trans hn'
      rfl

/-- An instruction that leaves the method does not go on. -/
theorem Step.not_leave {pc : Nat} {m : Memory} {i : Fetched} (h : Step fetch k ⟨pc, m⟩ d)
    (hi : fetch pc = some i) :
    exec k i.opcode i.wide i.operands m ≠ some (.leave v) := by
  intro hleave
  cases h with
  | go hi' h =>
    cases hi.symm.trans hi'
    cases hleave.symm.trans h
  | jump hi' h =>
    cases hi.symm.trans hi'
    cases hleave.symm.trans h

/-- **A run has one result.** -/
theorem Returns.unique {w : Option Int32} (hv : Returns fetch k c v) (hw : Returns fetch k c w) :
    v = w := by
  induction hv with
  | leave hi h =>
    cases hw with
    | leave hi' h' =>
      cases hi.symm.trans hi'
      cases h.symm.trans h'
      rfl
    | step hstep _ => exact absurd h (hstep.not_leave hi)
  | step hstep _ ih =>
    cases hw with
    | leave hi' h' => exact absurd h' (hstep.not_leave hi')
    | step hstep' hw => exact ih (hstep.unique hstep' ▸ hw)

/-- The instructions of code, by their offsets. -/
def fetchItem (items : List CodeItem) : Fetch := fun offset =>
  (items.find? fun i => i.offset = offset).map fun i =>
    { opcode := i.opcode, wide := i.wide, operands := i.operands, next := offset + i.size,
      destination := i.destination? }

/-! ### Numbers among the operand bytes -/

/-- A word is read back from its two bytes. -/
theorem word_bytes (n : UInt16) :
    word (UInt8.ofNat (n.toNat / 256)) (UInt8.ofNat n.toNat) = n := by
  have hn := n.toNat_lt
  rw [← UInt16.toNat_inj]
  simp only [word, UInt16.toNat_ofNat', UInt8.toNat_ofNat']
  omega

theorem bmod_emod (size : Nat) (h : -size ≤ 2 * n ∧ 2 * n < size) :
    Int.bmod (n % size).toNat size = n := by
  rw [Int.toNat_of_nonneg (Int.emod_nonneg n (by omega)), Int.emod_bmod]
  exact Int.bmod_eq_of_le_mul_two (by omega) (by omega)

/-- The byte of a small number, read back. -/
theorem toInt_ofInt8 (h : -128 ≤ n ∧ n < 128) : (Bytes.ofInt8 n).toInt8.toInt = n := by
  have hlt : (n % 256).toNat < 256 := by omega
  change (Bytes.ofInt8 n).toBitVec.toInt = n
  rw [BitVec.toInt_eq_toNat_bmod, UInt8.toNat_toBitVec, Bytes.ofInt8, UInt8.toNat_ofNat',
    Nat.mod_eq_of_lt hlt]
  exact bmod_emod (256) (by omega)

/-- The word of a number of 16 bits, read back. -/
theorem toInt_word (h : -32768 ≤ n ∧ n < 32768) :
    (UInt16.ofNat (n % 65536).toNat).toInt16.toInt = n := by
  have hlt : (n % 65536).toNat < 65536 := by omega
  change (UInt16.ofNat (n % 65536).toNat).toBitVec.toInt = n
  rw [BitVec.toInt_eq_toNat_bmod, UInt16.toNat_toBitVec, UInt16.toNat_ofNat', Nat.mod_eq_of_lt hlt]
  exact bmod_emod (65536) (by omega)

/-! ### What the common instructions do

Each instruction does what it was made for: its operand bytes are read back as the numbers that
they were made from. -/

section Exec

variable {m : Memory} {op : Opcode} {slot : UInt16}

theorem effect_of_go {wide : Bool} {operands : Bytes} {m' : Memory}
    (h : exec k op wide operands m = some (.go m')) : op.effect.isUnconditional = false := by
  unfold exec at h
  split at h <;> first | rfl | cases h | (split at h <;> cases h)

/-- **The shortest form of an integer pushes that integer.** Whether the value is in the
opcode, in one byte or in two, it comes out with its sign. -/
theorem exec_pushInt {value : Int32} {i : Instruction}
    (h : Instruction.pushInt? value.toInt = some i) :
    exec k i.opcode i.wide i.operands m = some (.go (m.push value)) := by
  unfold Instruction.pushInt? at h
  -- the numbers that have an opcode of their own
  iterate 7
    split at h
    · rename_i hn
      cases h
      rw [← Int32.ofInt_toInt value, hn]
      rfl
  split at h
  · rename_i hn
    cases h
    have hv : (Bytes.ofInt8 value.toInt).toInt8.toInt32 = value :=
      Int32.toInt_inj.1 ((Int8.toInt_toInt32 _).trans (toInt_ofInt8 hn))
    change some (Action.go (m.push (Bytes.ofInt8 value.toInt).toInt8.toInt32)) = _
    rw [hv]
  split at h
  · rename_i hn
    cases h
    have hv : (UInt16.ofNat (value.toInt % 65536).toNat).toInt16.toInt32 = value :=
      Int32.toInt_inj.1 ((Int16.toInt_toInt32 _).trans (toInt_word hn))
    change some (Action.go (m.push (word _ _).toInt16.toInt32)) = _
    rw [word_bytes, hv]
  · cases h

/-- An integer among the constants is pushed from there. -/
theorem exec_loadConstant {index : UInt16} {v : Int32} (h : k index = some v) :
    exec k (Instruction.loadConstant index).opcode (Instruction.loadConstant index).wide
        (Instruction.loadConstant index).operands m = some (.go (m.push v)) := by
  unfold Instruction.loadConstant
  split
  · rename_i hlt
    have hindex : UInt16.ofNat (UInt8.ofNat index.toNat).toNat = index := by
      rw [UInt8.toNat_ofNat', Nat.mod_eq_of_lt hlt, UInt16.ofNat_toNat]
    change (k (UInt16.ofNat (UInt8.ofNat index.toNat).toNat)).bind _ = _
    rw [hindex, h]
    rfl
  · change (k (word _ _)).bind _ = _
    rw [word_bytes, h]
    rfl

/-- The slot of an access is the one that it was made for. -/
theorem slot?_slotAccess (short : List Opcode) (general : Opcode) (slot : UInt16)
    (hshort : ∀ (n : Nat) (h : n < short.length), short[n].implicitSlot = some (UInt16.ofNat n))
    (hgeneral : general.implicitSlot = none) :
    slot? (Instruction.slotAccess short general slot).opcode
      (Instruction.slotAccess short general slot).wide
      (Instruction.slotAccess short general slot).operands = some slot.toNat := by
  unfold Instruction.slotAccess
  split
  · rename_i op hop
    obtain ⟨hlt, rfl⟩ := List.getElem?_eq_some_iff.1 hop
    unfold slot?
    rw [hshort _ hlt, UInt16.ofNat_toNat]
  · split
    · rename_i hlt
      unfold slot?
      rw [hgeneral]
      exact congrArg some (UInt8.toNat_ofNat'.trans (Nat.mod_eq_of_lt hlt))
    · unfold slot?
      rw [hgeneral]
      exact congrArg (some ·.toNat) (word_bytes slot)

/-- The opcode of an access is one of the given ones. -/
theorem opcode_slotAccess (short : List Opcode) (general : Opcode) (slot : UInt16) :
    (Instruction.slotAccess short general slot).opcode ∈ general :: short := by
  unfold Instruction.slotAccess
  split
  · rename_i op hop
    exact List.mem_cons_of_mem _ (List.mem_of_getElem? hop)
  · split <;> exact List.mem_cons_self

/-- What the forms of a load do. -/
theorem exec_of_load (h : op ∈ [.iload, .iload0, .iload1, .iload2, .iload3]) (wide : Bool)
    (operands : Bytes) :
    exec k op wide operands m =
      (slot? op wide operands).bind fun slot =>
        (m.locals slot).bind fun v => some (.go (m.push v)) := by
  simp only [List.mem_cons, List.not_mem_nil, or_false] at h
  rcases h with rfl | rfl | rfl | rfl | rfl <;> rfl

/-- What the forms of a store do. -/
theorem exec_of_store (h : op ∈ [.istore, .istore0, .istore1, .istore2, .istore3]) (wide : Bool)
    (operands : Bytes) {v : Int32} {rest : List Int32} (hm : m.stack = v :: rest) :
    exec k op wide operands m =
      (slot? op wide operands).bind fun slot => some (.go (m.store slot v rest)) := by
  simp only [List.mem_cons, List.not_mem_nil, or_false] at h
  rcases h with rfl | rfl | rfl | rfl | rfl <;> simp only [exec, hm] <;> rfl

/-- **The value of a slot is pushed** -/
theorem exec_load {v : Int32} (h : m.locals slot.toNat = some v) :
    exec k (Instruction.load .int slot).opcode (Instruction.load .int slot).wide
        (Instruction.load .int slot).operands m = some (.go (m.push v)) := by
  have hop := opcode_slotAccess [.iload0, .iload1, .iload2, .iload3] .iload slot
  have hslot := slot?_slotAccess [.iload0, .iload1, .iload2, .iload3] .iload slot (by decide) rfl
  unfold Instruction.load
  rw [exec_of_load hop, hslot, Option.bind_some, h]
  rfl

/-- **A value is popped into a slot** -/
theorem exec_store {v : Int32} {rest : List Int32} (h : m.stack = v :: rest) :
    exec k (Instruction.store .int slot).opcode (Instruction.store .int slot).wide
        (Instruction.store .int slot).operands m = some (.go (m.store slot.toNat v rest)) := by
  have hop := opcode_slotAccess [.istore0, .istore1, .istore2, .istore3] .istore slot
  have hslot :=
    slot?_slotAccess [.istore0, .istore1, .istore2, .istore3] .istore slot (by decide) rfl
  unfold Instruction.store
  rw [exec_of_store hop _ _ h, hslot, Option.bind_some]

/-- The slot and the amount of an increment are those that it was made for. -/
theorem operands_increment (slot : UInt16) (amount : Int16) :
    (Instruction.increment slot amount).opcode = .iinc ∧
      slot? .iinc (Instruction.increment slot amount).wide
        (Instruction.increment slot amount).operands = some slot.toNat ∧
      amount? (Instruction.increment slot amount).wide
        (Instruction.increment slot amount).operands = some amount.toInt32 := by
  unfold Instruction.increment
  split
  · rename_i hsmall
    have hslot : (UInt8.ofNat slot.toNat).toNat = slot.toNat := by
      rw [UInt8.toNat_ofNat', Nat.mod_eq_of_lt hsmall.1]
    have hamount : (Bytes.ofInt8 amount.toInt).toInt8.toInt32 = amount.toInt32 := by
      rw [← Int32.toInt_inj, Int8.toInt_toInt32, Int16.toInt_toInt32, toInt_ofInt8 hsmall.2]
    exact ⟨rfl, congrArg some hslot, congrArg some hamount⟩
  · have hamount : (UInt16.ofNat (amount.toInt % 65536).toNat).toInt16.toInt32 =
        amount.toInt32 := by
      rw [← Int32.toInt_inj, Int16.toInt_toInt32, Int16.toInt_toInt32,
        toInt_word ⟨amount.le_toInt, amount.toInt_lt⟩]
    refine ⟨rfl, congrArg (fun n : UInt16 => some n.toNat) (word_bytes slot), ?_⟩
    change some (word _ _).toInt16.toInt32 = _
    rw [word_bytes, hamount]

/-- **An amount is added to a slot.** -/
theorem exec_increment {amount : Int16} {v : Int32} (h : m.locals slot.toNat = some v) :
    exec k (Instruction.increment slot amount).opcode (Instruction.increment slot amount).wide
        (Instruction.increment slot amount).operands m =
      some (.go (m.store slot.toNat (v + amount.toInt32) m.stack)) := by
  obtain ⟨hop, hslot, hamount⟩ := operands_increment slot amount
  rw [hop, exec, hslot, hamount]
  dsimp only [Option.bind_eq_bind, Option.bind_some]
  rw [h, Option.bind_some]

end Exec

end Machine
end ClassForge
