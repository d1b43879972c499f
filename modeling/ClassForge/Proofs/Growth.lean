/-
# Code only grows

Whatever operations are run, what is there stays there (`Assembler.Grows`):

| part | what stays |
| --- | --- |
| instructions | every one, with its number |
| constants | every one, with its index |
| labels | where they stand, that they are branched to, that an edge leads to them |

A computation that makes code does so by operations, each of which is regular: an
instruction has as many operand bytes as its opcode takes, and only branches have
labels (`Built`).
-/

import ClassForge.Disassembly
import ClassForge.Proofs.Operation

namespace ClassForge

/-! ### Constants -/

namespace ConstantPool

/-- The constants of one pool are those of another, with the same indices. -/
def Grows (p q : ConstantPool) : Prop :=
  ∀ (index : UInt16) (c : Constant), p.get? index = some c → q.get? index = some c

theorem Grows.refl (p : ConstantPool) : p.Grows p := fun _ _ h => h

theorem Grows.trans {p q r : ConstantPool} (hpq : p.Grows q) (hqr : q.Grows r) : p.Grows r :=
  fun index c h => hqr index c (hpq index c h)

/-- **The index of a constant is that of the constant**, and the other constants
keep theirs. -/
theorem intern_eq_ok {c : Constant} {p q : ConstantPool} {index : UInt16}
    (h : intern c p = .ok index q) : p.Grows q ∧ q.get? index = some c := by
  unfold intern at h
  split at h
  · rename_i known
    cases h
    exact ⟨.refl p, (p.indexed c index).1 known⟩
  · rename_i known
    split at h
    · cases h
    · rename_i full
      obtain ⟨entries, indices, bounded, indexed⟩ := p
      cases h
      have room : entries.size + 1 ≤ capacity := Nat.le_of_not_lt full
      refine ⟨fun other d hd => ?_, ?_⟩
      · unfold get? at *
        rw [constantAt?_push entries c room]
        split
        · rename_i hnew
          dsimp only at hd
          rw [hnew, constantAt?_next entries room] at hd
          cases hd
        · exact hd
      · unfold get?
        rw [constantAt?_push entries c room, if_pos rfl]

end ConstantPool

/-! ### Instructions and labels

Nothing that is there is lost: instructions, constants and labels are only added, and a label that
is placed stays where it is. -/

/-- What is known about a label stays known. -/
structure LabelState.Grows (s t : LabelState) : Prop where
  placed : ∀ n, s.placed = some n → t.placed = some n
  frame : s.frame.isSome = true → t.frame.isSome = true
  jumpedTo : s.jumpedTo = true → t.jumpedTo = true

theorem LabelState.Grows.refl (s : LabelState) : s.Grows s := ⟨fun _ h => h, id, id⟩

namespace Assembler

/-- What is there stays there. -/
structure Grows (a b : Assembler) : Prop where
  instructions : ∀ (n : Nat) (i : Instruction), a.instructions[n]? = some i →
    b.instructions[n]? = some i
  size_le : a.instructions.size ≤ b.instructions.size
  labels : ∀ (n : Nat) (state : LabelState), a.labels[n]? = some state →
    ∃ state', b.labels[n]? = some state' ∧ state.Grows state'
  pool : a.pool.Grows b.pool

theorem Grows.refl (a : Assembler) : a.Grows a :=
  ⟨fun _ _ h => h, Nat.le.refl, fun _ s h => ⟨s, h, .refl s⟩, .refl a.pool⟩

theorem Grows.trans {a b c : Assembler} (hab : a.Grows b) (hbc : b.Grows c) : a.Grows c where
  instructions n i h := hbc.instructions n i (hab.instructions n i h)
  size_le := Nat.le_trans hab.size_le hbc.size_le
  labels n s h := by
    obtain ⟨t, ht, hst⟩ := hab.labels n s h
    obtain ⟨u, hu, htu⟩ := hbc.labels n t ht
    exact ⟨u, hu, fun m h => htu.placed m (hst.placed m h), fun h => htu.frame (hst.frame h),
      fun h => htu.jumpedTo (hst.jumpedTo h)⟩
  pool := hab.pool.trans hbc.pool

variable {a b : Assembler}

/-- The labels stay the same. -/
theorem grows_labels_of_eq (h : b.labels = a.labels) (n : Nat) (state : LabelState)
    (hn : a.labels[n]? = some state) : ∃ state', b.labels[n]? = some state' ∧ state.Grows state' :=
  ⟨state, h ▸ hn, .refl state⟩

/-- A label that is replaced. -/
theorem getElem?_setLabel {l : Label} {state : LabelState}
    (hl : a.labels[l.index]? = some state) (new : LabelState) :
    (a.labels.setIfInBounds l.index new)[l.index]? = some new := by
  rw [Array.getElem?_setIfInBounds, if_pos rfl, if_pos (Array.getElem?_eq_some_iff.1 hl).1]

/-- One label comes to be known better. -/
theorem grows_labels_of_set {target : Label} {old new : LabelState}
    (hold : a.labels[target.index]? = some old)
    (h : b.labels = a.labels.setIfInBounds target.index new) (hgrows : old.Grows new) (n : Nat)
    (state : LabelState) (hn : a.labels[n]? = some state) :
    ∃ state', b.labels[n]? = some state' ∧ state.Grows state' := by
  rw [h]
  by_cases heq : target.index = n
  · subst heq
    rw [hold] at hn
    cases hn
    exact ⟨new, getElem?_setLabel hold new, hgrows⟩
  · rw [Array.getElem?_setIfInBounds, if_neg heq]
    exact ⟨state, hn, .refl state⟩

/-- An instruction is added behind the others. -/
theorem getElem?_push_of_some {xs : Array Instruction} {i j : Instruction} {n : Nat}
    (h : xs[n]? = some i) : (xs.push j)[n]? = some i := by
  rw [Array.getElem?_push, if_neg]
  · exact h
  · have := (Array.getElem?_eq_some_iff.1 h).1
    omega

/-- **Every operation lets the code grow.** Instructions keep their numbers, labels their
places and constants their indices; new ones come behind. -/
theorem Grows.of_advances {o : Operation} (h : Advances o a b) : a.Grows b := by
  cases h with
  | label limit =>
    refine ⟨fun _ _ h => h, Nat.le.refl, fun n s hn => ⟨s, ?_, .refl s⟩, .refl _⟩
    have := (Array.getElem?_eq_some_iff.1 hn).1
    rw [Array.getElem?_push, if_neg (by omega)]
    exact hn
  | constant h =>
    exact ⟨fun _ _ h => h, Nat.le.refl, grows_labels_of_eq rfl, (ConstantPool.intern_eq_ok h).1⟩
  | drop => exact .refl a
  | push =>
    exact ⟨fun _ _ => getElem?_push_of_some, by simp, grows_labels_of_eq rfl, .refl _⟩
  | jumpBack hc hs hl hp ht ha =>
    refine ⟨fun _ _ => getElem?_push_of_some, by simp [pushJump], ?_, .refl _⟩
    exact grows_labels_of_set hl rfl ⟨fun _ h => h, id, fun _ => rfl⟩
  | jumpAhead hc hs hl hp hj =>
    refine ⟨fun _ _ => getElem?_push_of_some, by simp [pushJump], ?_, .refl _⟩
    exact grows_labels_of_set hl rfl ⟨fun _ h => h, fun _ => rfl, fun _ => rfl⟩
  | place hl hp hj =>
    refine ⟨fun _ _ h => h, Nat.le.refl, ?_, .refl _⟩
    refine grows_labels_of_set hl rfl ⟨fun n hn => ?_, fun h => ?_, id⟩
    · rw [hp] at hn
      cases hn
    · exact hj.isSome_iff.2 (.inr h)
  | killLocals => exact ⟨fun _ _ h => h, Nat.le.refl, grows_labels_of_eq rfl, .refl _⟩
  | noteLocals => exact ⟨fun _ _ h => h, Nat.le.refl, grows_labels_of_eq rfl, .refl _⟩
  | generalize => exact ⟨fun _ _ h => h, Nat.le.refl, grows_labels_of_eq rfl, .refl _⟩

/-- The number of the instruction at a label. -/
def position (a : Assembler) (l : Label) : Option Nat := a.labels[l.index]?.bind (·.placed)

/-- A label keeps its place once it has one. -/
theorem position_grows {l : Label} {n : Nat} (h : a.position l = some n) (hab : a.Grows b) :
    b.position l = some n := by
  obtain ⟨state, hl, hn⟩ := Option.bind_eq_some_iff.1 h
  obtain ⟨state', hl', hgrows⟩ := hab.labels l.index state hl
  exact Option.bind_eq_some_iff.2 ⟨state', hl', hgrows.placed n hn⟩

/-- Where a label is placed. -/
theorem position_settle {l : Label} {state : LabelState} (hl : a.labels[l.index]? = some state)
    (frame : Option Frame) : (a.settle l state frame).position l = some a.instructions.size := by
  unfold position settle
  rw [getElem?_setLabel hl]
  rfl

/-- A label is replaced by one at the same place. -/
theorem position_setLabel {target : Label} {old new : LabelState}
    (hold : a.labels[target.index]? = some old)
    (hlabels : b.labels = a.labels.setIfInBounds target.index new)
    (hplaced : new.placed = old.placed) (l : Label) : b.position l = a.position l := by
  unfold position
  rw [hlabels, Array.getElem?_setIfInBounds]
  split
  · rename_i heq
    rw [← heq, hold, if_pos (Array.getElem?_eq_some_iff.1 hold).1, Option.bind_some,
      Option.bind_some, hplaced]
  · rfl

/-- Placing one label moves no other. -/
theorem position_settle_of_ne {label l : Label} (h : label ≠ l) (state : LabelState)
    (frame : Option Frame) : (a.settle label state frame).position l = a.position l := by
  have hne : label.index ≠ l.index := fun heq => h (by cases label; cases l; exact congrArg _ heq)
  unfold position settle
  rw [Array.getElem?_setIfInBounds, if_neg hne]

/-- The frames of the labels that are placed stay. -/
theorem isSome_placedFrames_settle (l : Label) (state : LabelState) (frame : Option Frame)
    (n : Nat) (hn : (a.placedFrames[n]?).isSome = true) :
    ((a.settle l state frame).placedFrames[n]?).isSome = true := by
  unfold settle
  cases frame with
  | none => exact hn
  | some f =>
    rw [Std.TreeMap.getElem?_insert]
    split
    · rfl
    · exact hn

end Assembler

/-! ### Regular operations -/

/-- The operand bytes are as many as the opcode takes, and `wide` stands only where
it may. -/
structure Instruction.Regular (i : Instruction) : Prop where
  operands : i.operands.length = Disassembly.operandCount i.wide i.opcode
  wide : i.wide = true → i.opcode.hasSlotOperand = true

/-- A regular instruction without a label. -/
structure Instruction.Plain (i : Instruction) : Prop extends i.Regular where
  target : i.target? = none

/-- An operation adds only regular instructions, and only branches have labels. -/
def Operation.Regular : Operation → Prop
  | .push i _ => i.Plain
  | .branch op _ => op.effect.isBranch = true
  | _ => True

/-- Code is added by regular operations. -/
def Built (a b : Assembler) : Prop :=
  ∃ os : List Operation, (∀ o ∈ os, o.Regular) ∧ Operation.runAll os a = .ok () b

namespace Built

variable {a b c : Assembler}

theorem refl (a : Assembler) : Built a a := ⟨[], by simp, rfl⟩

/-- Operations behind other operations build code together. -/
theorem trans (hab : Built a b) (hbc : Built b c) : Built a c := by
  obtain ⟨os, hos, hrun⟩ := hab
  obtain ⟨ps, hps, hrun'⟩ := hbc
  refine ⟨os ++ ps, fun o ho => ?_, Operation.runAll_append.2 ⟨b, hrun, hrun'⟩⟩
  rcases List.mem_append.1 ho with h | h
  · exact hos o h
  · exact hps o h

/-- One regular operation. -/
theorem single {o : Operation} (ho : o.Regular) (h : Advances o a b) : Built a b := by
  refine ⟨[o], fun p hp => ?_, Operation.runAll_cons.2 ⟨b, h, rfl⟩⟩
  rw [List.mem_singleton] at hp
  exact hp ▸ ho

theorem induct {P : Assembler → Prop} (h : Built a b) (ha : P a)
    (hstep : ∀ o x y, o.Regular → Advances o x y → P x → P y) : P b := by
  obtain ⟨os, hos, hrun⟩ := h
  exact Operation.runAll_induct hrun ha fun o ho x y => hstep o x y (hos o ho)

/-- **Code that is added leaves what is there.** -/
theorem grows (h : Built a b) : a.Grows b :=
  h.induct (.refl a) fun _ _ _ _ hstep hgrows => hgrows.trans (.of_advances hstep)

end Built
end ClassForge
