/-
# The control flow of finished code

Specification, section 10.6, *unreachable emission*: all code that is kept is reached.

Control goes from an instruction to the next one, unless the instruction never lets
it, and from a branch to the instruction at its label (`Edge`).  A finished body has
no dead code and no edge that leads out of it, and it records a frame just where a
branch arrives (`Body.Connected`).  That holds because of what is true of a body while
it is put together (`Assembler.Connected`):

| part | what is true of it |
| --- | --- |
| an instruction | control can get to it from the entry |
| the current point | control can get there, or the last instruction lets it go no further |
| a label | it is marked as branched to just if there is a branch to it |
| a label ahead, with a frame | there is a branch to it |
| a point behind an unconditional instruction | a label that is branched to stands there |

All this is for code in which branches have the opcodes of branches
(`Operation.hasBranchOpcode`); a return with a target, say, would be taken for an
instruction that lets control go on.  Nothing is asked of branches that are dropped
(`Operation.kept`).
-/

import ClassForge.Proofs.FrameSoundness
import ClassForge.Proofs.Growth
import Mathlib.Logic.Relation

namespace ClassForge

/-! ### Edges -/

/-- Control can go from one instruction to another, by their numbers. -/
inductive Edge (is : Array Instruction) (position : Label → Option Nat) : Nat → Nat → Prop where
  | next {n : Nat} {i : Instruction} (hi : is[n]? = some i)
    (hu : i.opcode.effect.isUnconditional = false) : Edge is position n (n + 1)
  | jump {n m : Nat} {i : Instruction} {target : Label} (hi : is[n]? = some i)
    (hb : i.opcode.effect.isBranch = true) (ht : i.target? = some target)
    (hm : position target = some m) : Edge is position n m

/-- Control can get from the first instruction to the one with the given number. -/
def Reached (is : Array Instruction) (position : Label → Option Nat) (n : Nat) : Prop :=
  Relation.ReflTransGen (Edge is position) 0 n

/-- Some branch goes to the label. -/
def BranchTo (is : Array Instruction) (l : Label) : Prop :=
  ∃ i ∈ is, i.opcode.effect.isBranch = true ∧ i.target? = some l

/-- Is a branch made from the opcode of one? -/
def Operation.hasBranchOpcode : Operation → Bool
  | .branch op _ => op.effect.isBranch
  | _ => true

theorem Effect.isUnconditional_of_isBranch {e : Effect} (h : e.isBranch = true) :
    e.isUnconditional = true ↔ e = .goto := by
  cases e <;> simp_all [Effect.isBranch, Effect.isUnconditional]

/-- One more instruction. -/
theorem branchTo_push {is : Array Instruction} {i : Instruction} {l : Label} :
    BranchTo (is.push i) l ↔
      BranchTo is l ∨ i.opcode.effect.isBranch = true ∧ i.target? = some l := by
  constructor
  · rintro ⟨j, hj, hbranch⟩
    rcases Array.mem_push.1 hj with hj | rfl
    · exact .inl ⟨j, hj, hbranch⟩
    · exact .inr hbranch
  · rintro (⟨j, hj, hbranch⟩ | hbranch)
    · exact ⟨j, Array.mem_push.2 (.inl hj), hbranch⟩
    · exact ⟨i, Array.mem_push.2 (.inr rfl), hbranch⟩

namespace Assembler

variable {a b : Assembler}

/-- The label with the given number is branched to. -/
def isTarget (a : Assembler) (n : Nat) : Prop :=
  ∃ state, a.labels[n]? = some state ∧ state.jumpedTo = true

/-- One label comes to be known better. -/
theorem isTarget_set {target : Label} {old new : LabelState} {n : Nat}
    (hold : a.labels[target.index]? = some old)
    (h : b.labels = a.labels.setIfInBounds target.index new) :
    b.isTarget n ↔ if target.index = n then new.jumpedTo = true else a.isTarget n := by
  unfold isTarget
  rw [h]
  split
  · rename_i heq
    rw [← heq, getElem?_setLabel hold new]
    simp
  · rename_i hne
    rw [Array.getElem?_setIfInBounds, if_neg hne]

/-- A new label is not branched to. -/
theorem isTarget_label (limit : Option Nat) (n : Nat) :
    { a with labels := a.labels.push { limit } }.isTarget n ↔ a.isTarget n := by
  unfold isTarget
  simp only [Array.getElem?_push]
  constructor
  · rintro ⟨state, hstate, hjumped⟩
    split at hstate
    · cases hstate
      cases hjumped
    · exact ⟨state, hstate, hjumped⟩
  · rintro ⟨state, hstate, hjumped⟩
    have := (Array.getElem?_eq_some_iff.1 hstate).1
    exact ⟨state, by rw [if_neg (by omega)]; exact hstate, hjumped⟩

/-- A label that is replaced, or one that is as it was. -/
theorem eq_or_of_setLabel {l : Label} {new state : LabelState} {n : Nat}
    (h : (a.labels.setIfInBounds l.index new)[n]? = some state) :
    state = new ∨ a.labels[n]? = some state := by
  rw [Array.getElem?_setIfInBounds] at h
  split at h
  · split at h
    · cases h
      exact .inl rfl
    · cases h
  · exact .inr h

/-- Where control could get, it can get when there is more code. -/
theorem reached_grows {n : Nat} (h : Reached a.instructions a.position n) (hab : a.Grows b) :
    Reached b.instructions b.position n := by
  refine Relation.ReflTransGen.mono (fun m k hedge => ?_) _ _ h
  cases hedge with
  | next hi hu => exact .next (hab.instructions _ _ hi) hu
  | jump hi hb ht hm => exact .jump (hab.instructions _ _ hi) hb ht (position_grows hm hab)

/-! ### Code without dead ends -/

/-- A label that is branched to stands at the point. -/
def Resumes (a : Assembler) (n : Nat) : Prop :=
  ∃ (l : Nat) (state : LabelState),
    a.labels[l]? = some state ∧ state.jumpedTo = true ∧ state.placed = some n

theorem Resumes.grows {n : Nat} (h : a.Resumes n) (hab : a.Grows b) : b.Resumes n := by
  obtain ⟨l, state, hl, hjumped, hplaced⟩ := h
  obtain ⟨state', hl', hgrows⟩ := hab.labels l state hl
  exact ⟨l, state', hl', hgrows.jumpedTo hjumped, hgrows.placed n hplaced⟩

/-- Control can get to every instruction and to the current point, and wherever an
instruction does not let it go on it is resumed at a label. -/
structure Connected (a : Assembler) : Prop where
  labelled : ∀ i ∈ a.instructions, i.opcode.effect.isBranch = true → i.target?.isSome = true
  targets : ∀ l : Label, a.isTarget l.index ↔ BranchTo a.instructions l
  awaited : ∀ (n : Nat) (state : LabelState), a.labels[n]? = some state → state.placed = none →
    state.frame.isSome = true → state.jumpedTo = true
  reached : ∀ n < a.instructions.size, Reached a.instructions a.position n
  current : a.current.isSome = true → Reached a.instructions a.position a.instructions.size
  ended : a.current = none →
    ∃ i, a.instructions.back? = some i ∧ i.opcode.effect.isUnconditional = true
  resumed : ∀ n i, a.instructions[n]? = some i → i.opcode.effect.isUnconditional = true →
    a.current.isSome = true ∨ n + 1 < a.instructions.size → a.Resumes (n + 1)

theorem connected_start (pool : ConstantPool) (entry : Frame) : (start pool entry).Connected where
  labelled i h := by simp [start] at h
  targets l := by simp [isTarget, BranchTo, start]
  awaited n state h := by simp [start] at h
  reached n h := by simp [start] at h
  current _ := .refl
  ended h := nomatch h
  resumed n i h := by simp [start] at h

/-- Neither an instruction nor a label is added, and control stays where it is. -/
theorem Connected.congr (h : a.Connected) (hinstructions : b.instructions = a.instructions)
    (hlabels : b.labels = a.labels) (hcurrent : b.current.isSome = a.current.isSome) :
    b.Connected := by
  have hposition : b.position = a.position := by
    unfold position
    rw [hlabels]
  constructor
  · rw [hinstructions]
    exact h.labelled
  · intro l
    unfold isTarget
    rw [hinstructions, hlabels]
    exact h.targets l
  · rw [hlabels]
    exact h.awaited
  · rw [hinstructions, hposition]
    exact h.reached
  · rw [hinstructions, hposition, hcurrent]
    exact h.current
  · intro hc
    rw [hinstructions]
    refine h.ended (Option.not_isSome_iff_eq_none.1 ?_)
    rw [← hcurrent, hc]
    decide
  · unfold Resumes
    rw [hinstructions, hlabels, hcurrent]
    exact h.resumed

/-- A label without a place is no point of the code yet. -/
theorem Connected.label (h : a.Connected) (limit : Option Nat) :
    { a with labels := a.labels.push { limit } }.Connected := by
  have hgrows := Grows.of_advances (.label limit a)
  refine ⟨h.labelled, fun l => (isTarget_label limit l.index).trans (h.targets l),
    fun n state hn => ?_, fun n hn => reached_grows (h.reached n hn) hgrows,
    fun hc => reached_grows (h.current hc) hgrows, h.ended,
    fun n i hi hu hcontrol => (h.resumed n i hi hu hcontrol).grows hgrows⟩
  rw [Array.getElem?_push] at hn
  split at hn
  · cases hn
    exact nofun
  · exact h.awaited n state hn

/-- A new instruction at a point that control can get to. -/
theorem Connected.concat (h : a.Connected) {i : Instruction} (hc : a.current.isSome = true)
    (hgrows : a.Grows b) (hinstructions : b.instructions = a.instructions.push i)
    (hcurrent : b.current.isSome = !i.opcode.effect.isUnconditional)
    (hlabelled : i.opcode.effect.isBranch = true → i.target?.isSome = true)
    (htargets : ∀ l : Label, b.isTarget l.index ↔ BranchTo b.instructions l)
    (hawaited : ∀ (n : Nat) (state : LabelState), b.labels[n]? = some state → state.placed = none →
      state.frame.isSome = true → state.jumpedTo = true) : b.Connected := by
  have hsize : b.instructions.size = a.instructions.size + 1 := by
    rw [hinstructions, Array.size_push]
  have hlast : Reached b.instructions b.position a.instructions.size :=
    reached_grows (h.current hc) hgrows
  have hi : b.instructions[a.instructions.size]? = some i := by
    rw [hinstructions]
    exact Array.getElem?_push_size
  refine ⟨fun j hj hbranch => ?_, htargets, hawaited, fun n hn => ?_, fun hc' => ?_,
    fun hc' => ?_, ?_⟩
  · rw [hinstructions] at hj
    rcases Array.mem_push.1 hj with hj | rfl
    · exact h.labelled j hj hbranch
    · exact hlabelled hbranch
  · rcases Nat.lt_or_eq_of_le (Nat.lt_succ_iff.1 (hsize ▸ hn)) with hlt | rfl
    · exact reached_grows (h.reached n hlt) hgrows
    · exact hlast
  · rw [hcurrent, Bool.not_eq_true'] at hc'
    rw [hsize]
    exact hlast.tail (.next hi hc')
  · rw [hc', Option.isSome_none, eq_comm, Bool.not_eq_false'] at hcurrent
    exact ⟨i, by rw [hinstructions, Array.back?_push], hcurrent⟩
  · intro n j hj hu hcontrol
    rw [hinstructions, Array.getElem?_push] at hj
    split at hj
    · -- behind the new instruction control cannot be, if it is unconditional
      rename_i hn
      cases hj
      rw [hcurrent, hu] at hcontrol
      rcases hcontrol with hcontrol | hcontrol
      · cases hcontrol
      · omega
    · exact (h.resumed n j hj hu (.inl hc)).grows hgrows

/-- A branch, together with the mark on its label. -/
theorem Connected.pushJump (h : a.Connected) {op : Opcode} {target : Label} {old new : LabelState}
    {next arriving : Frame} (hop : op.effect.isBranch = true) (hc : a.current.isSome = true)
    (hold : a.labels[target.index]? = some old) (hnew : new.jumpedTo = true)
    (hgrows : a.Grows (pushJump op target next arriving
      { a with current := some next, labels := a.labels.setIfInBounds target.index new })) :
    (pushJump op target next arriving
      { a with
        current := some next
        labels := a.labels.setIfInBounds target.index new }).Connected := by
  refine h.concat hc hgrows rfl ?_ (fun _ => rfl) (fun l => ?_) fun n state hn hplaced hframe => ?_
  · have hgoto := Effect.isUnconditional_of_isBranch hop
    by_cases heq : op.effect = .goto
    · simp [Assembler.pushJump, Instruction.branch, heq, Effect.isUnconditional]
    · have hnot : op.effect.isUnconditional = false :=
        Bool.eq_false_iff.2 fun hu => heq (hgoto.1 hu)
      simp [Assembler.pushJump, Instruction.branch, heq, hnot]
  · have htarget : (Instruction.branch op target arriving).target? = some l ↔
        target.index = l.index := by
      change some target = some l ↔ _
      rw [Option.some.injEq, Label.mk.injEq]
    rw [isTarget_set hold rfl]
    change _ ↔ BranchTo (a.instructions.push _) l
    rw [branchTo_push, ← h.targets l, htarget]
    split
    · rename_i heq
      exact iff_of_true hnew (.inr ⟨hop, heq⟩)
    · rename_i hne
      exact (or_iff_left fun hbranch => hne hbranch.2).symm
  · rcases eq_or_of_setLabel hn with rfl | hn
    · exact hnew
    · exact h.awaited n state hn hplaced hframe

/-- A label: where control could not be, it is resumed by the branches to the
label. -/
theorem Connected.settle (h : a.Connected) {label : Label} {state : LabelState}
    {frame : Option Frame} (hl : a.labels[label.index]? = some state) (hp : state.placed = none)
    (hj : Joins (a.current.map state.restrict) state.frame frame) :
    (a.settle label state frame).Connected := by
  have hgrows : a.Grows (a.settle label state frame) := .of_advances (.place hl hp hj)
  have hposition := position_settle hl frame
  -- control comes from above, or from a branch to the label
  have hcases : frame.isSome = true → a.current.isSome = true ∨ state.jumpedTo = true := by
    intro hframe
    rcases hj.isSome_iff.1 hframe with habove | hahead
    · exact .inl (by simpa using habove)
    · exact .inr (h.awaited _ _ hl hp hahead)
  refine ⟨h.labelled, fun l => ?_, fun n other hn hplaced hframe => ?_,
    fun n hn => reached_grows (h.reached n hn) hgrows, fun hc => ?_, fun hc => ?_, ?_⟩
  · rw [isTarget_set hl rfl]
    change _ ↔ BranchTo a.instructions l
    rw [← h.targets l]
    split
    · rename_i heq
      rw [← heq]
      unfold isTarget
      rw [hl]
      simp
    · exact .rfl
  · rcases eq_or_of_setLabel hn with rfl | hn
    · cases hplaced
    · exact h.awaited n other hn hplaced hframe
  · rcases hcases hc with habove | hjumped
    · exact reached_grows (h.current habove) hgrows
    · obtain ⟨i, hi, hbranch, htarget⟩ := (h.targets label).1 ⟨state, hl, hjumped⟩
      obtain ⟨n, hn, rfl⟩ := Array.mem_iff_getElem.1 hi
      refine (reached_grows (h.reached n hn) hgrows).tail (.jump ?_ hbranch htarget hposition)
      exact Array.getElem?_eq_getElem hn
  · refine h.ended ?_
    cases habove : a.current with
    | none => rfl
    | some f =>
      have hsome := hj.isSome_iff.2 (.inl (by rw [habove]; rfl))
      change frame = none at hc
      rw [hc] at hsome
      cases hsome
  · intro n i hi hu hcontrol
    have hold (hcontrol : a.current.isSome = true ∨ n + 1 < a.instructions.size) :
        (a.settle label state frame).Resumes (n + 1) :=
      (h.resumed n i hi hu hcontrol).grows hgrows
    rcases hcontrol with hc | hlt
    · rcases hcases hc with habove | hjumped
      · exact hold (.inl habove)
      · have hn : n < a.instructions.size := (Array.getElem?_eq_some_iff.1 hi).1
        rcases Nat.lt_or_eq_of_le hn with hlt | heq
        · exact hold (.inr hlt)
        · refine ⟨label.index, _, getElem?_setLabel hl _, hjumped, ?_⟩
          rw [← Nat.succ_eq_add_one, heq]
    · exact hold (.inr hlt)

/-- **What one operation keeps.** An instruction is kept only at a point that control comes
to, and from there it is reached as well. -/
theorem Connected.advances (h : a.Connected) {o : Operation} (ho : o.hasBranchOpcode = true)
    (hstep : Advances o a b) : b.Connected := by
  cases hstep with
  | label limit => exact h.label limit
  | constant => exact h.congr rfl rfl rfl
  | drop => exact h
  | push hc hi hs =>
    have hgrows := Grows.of_advances (.push hc hi hs)
    refine h.concat (by rw [hc]; rfl) hgrows rfl ?_ (fun hbranch => ?_) (fun l => ?_) h.awaited
    · split <;> simp_all
    · rw [hi] at hbranch
      cases hbranch
    · rw [branchTo_push, ← h.targets l, hi]
      simp [isTarget]
  | jumpBack hc hs hl hp ht ha =>
    exact h.pushJump ho (by rw [hc]; rfl) hl rfl (.of_advances (.jumpBack hc hs hl hp ht ha))
  | jumpAhead hc hs hl hp hj =>
    exact h.pushJump ho (by rw [hc]; rfl) hl rfl (.of_advances (.jumpAhead hc hs hl hp hj))
  | place hl hp hj => exact h.settle hl hp hj
  | killLocals => exact h.congr rfl rfl (Option.isSome_map ..)
  | noteLocals => exact h.congr rfl rfl rfl
  | generalize hc => exact h.congr rfl rfl (by rw [hc]; rfl)

/-- **What a sequence of operations keeps.** -/
theorem connected_of_runAll {pool : ConstantPool} {entry : Frame} {os : List Operation}
    (hos : ∀ o ∈ Operation.kept (start pool entry) os, o.hasBranchOpcode = true)
    (hrun : Operation.runAll os (start pool entry) = .ok () a) : a.Connected :=
  Operation.runAll_induct_kept hrun (connected_start pool entry) fun o ho _ _ hstep h =>
    h.advances (hos o ho) hstep

end Assembler

/-- A regular branch has the opcode of a branch. -/
theorem Operation.Regular.hasBranchOpcode {o : Operation} (ho : o.Regular) :
    o.hasBranchOpcode = true := by
  cases o with
  | branch op target => exact ho
  | _ => rfl

/-- **Code that is built is connected**, whatever the regular operations are: no instruction
is left that control cannot come to. -/
theorem Built.connected {pool : ConstantPool} {entry : Frame} {a : Assembler}
    (h : Built (Assembler.start pool entry) a) : a.Connected := by
  obtain ⟨os, hos, hrun⟩ := h
  refine Assembler.connected_of_runAll (fun o ho => ?_) hrun
  exact (hos o (Operation.mem_of_mem_kept ho)).hasBranchOpcode

/-! ### Finished bodies -/

namespace Body

/-- The number of the instruction at a label. -/
def position (b : Body) (l : Label) : Option Nat := b.labels[l.index]?

/-- A body ends where control cannot go on, all of it can be reached, every branch
leads into it, and frames are recorded just where branches arrive, which includes
every point behind an unconditional instruction. -/
structure Connected (b : Body) : Prop where
  ends : ∃ i, b.instructions.back? = some i ∧ i.opcode.effect.isUnconditional = true
  reached : ∀ n < b.instructions.size, Reached b.instructions b.position n
  resumed : ∀ n i, b.instructions[n]? = some i → i.opcode.effect.isUnconditional = true →
    n + 1 < b.instructions.size → n + 1 ∈ b.frames
  lands : ∀ i ∈ b.instructions, i.opcode.effect.isBranch = true →
    ∃ target n, i.target? = some target ∧ b.position target = some n ∧ n < b.instructions.size
  frames : ∀ n, n ∈ b.frames ↔ ∃ l, BranchTo b.instructions l ∧ b.position l = some n

variable {a : Assembler} {b : Body}

/-- A label stands where it was placed. -/
theorem position_of_finish (hb : a.finish = .ok b) (l : Label) : b.position l = a.position l := by
  obtain ⟨-, hdescribes, -⟩ := Assembler.finish_eq_ok hb
  have hposition := hdescribes.positions l.index
  rwa [Array.getElem?_toList] at hposition

theorem exists_frame_of_finish (hb : a.finish = .ok b) {n : Nat} {state : LabelState}
    (hn : a.labels[n]? = some state) (hjumped : state.jumpedTo = true) :
    ∃ index, state.placed = some index ∧ index < a.instructions.size ∧ index ∈ b.frames := by
  obtain ⟨-, hdescribes, -⟩ := Assembler.finish_eq_ok hb
  have hmem : state ∈ a.labels.toList := Array.mem_toList_iff.2 (Array.mem_of_getElem? hn)
  obtain ⟨index, f, hplaced, hlt, -, hf⟩ := hdescribes.branched state hmem hjumped
  exact ⟨index, hplaced, hlt, Std.TreeMap.mem_iff_isSome_getElem?.2 (hf ▸ rfl)⟩

theorem exists_frame_of_branchTo (h : a.Connected) (hb : a.finish = .ok b) {l : Label}
    (hl : BranchTo a.instructions l) :
    ∃ n, a.position l = some n ∧ n < a.instructions.size ∧ n ∈ b.frames := by
  obtain ⟨state, hstate, hjumped⟩ := (h.targets l).2 hl
  obtain ⟨n, hplaced, hlt, hn⟩ := exists_frame_of_finish hb hstate hjumped
  exact ⟨n, Option.bind_eq_some_iff.2 ⟨state, hstate, hplaced⟩, hlt, hn⟩

/-- **Finished code is connected**, whatever operations it is put together by: it
ends with an unconditional instruction, no part of it is dead, every branch leads to
an instruction, and frames are recorded just where branches arrive.  The branches that
are kept have the opcodes of branches; those that are dropped may have any. -/
theorem connected_of_finish {os : List Operation} {pool : ConstantPool} {entry : Frame}
    (hos : ∀ o ∈ Operation.kept (Assembler.start pool entry) os, o.hasBranchOpcode = true)
    (hrun : Operation.runAll os (Assembler.start pool entry) = .ok () a)
    (hb : a.finish = .ok b) : b.Connected := by
  have h := Assembler.connected_of_runAll hos hrun
  obtain ⟨hc, hdescribes, hinstructions, -⟩ := Assembler.finish_eq_ok hb
  have hposition : b.position = a.position := funext (position_of_finish hb)
  constructor
  · rw [hinstructions]
    exact h.ended hc
  · rw [hinstructions, hposition]
    exact h.reached
  · intro n i hi hu hlt
    rw [hinstructions] at hi hlt
    obtain ⟨l, state, hl, hjumped, hplaced⟩ := h.resumed n i hi hu (.inr hlt)
    obtain ⟨m, hm, -, hframe⟩ := exists_frame_of_finish hb hl hjumped
    rw [hplaced] at hm
    cases hm
    exact hframe
  · intro i hi hbranch
    rw [hinstructions] at hi ⊢
    obtain ⟨target, ht⟩ := Option.isSome_iff_exists.1 (h.labelled i hi hbranch)
    obtain ⟨n, hn, hlt, -⟩ := exists_frame_of_branchTo h hb ⟨i, hi, hbranch, ht⟩
    exact ⟨target, n, ht, hposition ▸ hn, hlt⟩
  · intro n
    rw [hinstructions, hposition]
    constructor
    · intro hn
      obtain ⟨f, hf⟩ := Option.isSome_iff_exists.1 (Std.TreeMap.mem_iff_isSome_getElem?.1 hn)
      obtain ⟨-, state, hmem, hjumped, hplaced⟩ := hdescribes.frames n f hf
      obtain ⟨l, hl, rfl⟩ := Array.mem_iff_getElem.1 (Array.mem_toList_iff.1 hmem)
      have hstate : a.labels[l]? = some a.labels[l] := Array.getElem?_eq_getElem hl
      refine ⟨⟨l⟩, (h.targets ⟨l⟩).1 ⟨_, hstate, hjumped⟩, ?_⟩
      exact Option.bind_eq_some_iff.2 ⟨_, hstate, hplaced⟩
    · rintro ⟨l, hl, hn⟩
      obtain ⟨m, hm, -, hframe⟩ := exists_frame_of_branchTo h hb hl
      rw [hm] at hn
      cases hn
      exact hframe

/-- A loop whose way out ends in a jump to itself.  Behind the loop there is a label in
dead code, with a jump to it that is dropped, and at the jump to itself stand two
labels. -/
def tangle : List Operation :=
  [.label none, .label none, .label none, .label none, .place ⟨0⟩, .push (.load .int 0) .none,
    .branch .ifeq ⟨1⟩, .branch .goto ⟨0⟩, .push (.simple .returnVoid) .none, .place ⟨2⟩,
    .branch .goto ⟨2⟩, .place ⟨1⟩, .place ⟨3⟩, .branch .goto ⟨3⟩]

/-- Four instructions of it are left, and frames at two of them. -/
theorem tangle_connected :
    ∃ a b, (∀ o ∈ Operation.kept (Assembler.start .empty counterFrame) tangle,
        o.hasBranchOpcode = true) ∧
      Operation.runAll tangle (Assembler.start .empty counterFrame) = .ok () a ∧
      a.finish = .ok b ∧
      b.instructions = #[.load .int 0, .branch .ifeq ⟨1⟩ counterFrame,
        .branch .goto ⟨0⟩ counterFrame, .branch .goto ⟨3⟩ counterFrame] ∧
      b.frames.keys = [0, 3] ∧ b.Connected := by
  have h : (outcome? (Operation.runAll tangle (Assembler.start .empty counterFrame))).any (fun r =>
      r.2.finish.toOption.any fun b => decide (
        b.instructions = #[.load .int 0, .branch .ifeq ⟨1⟩ counterFrame,
          .branch .goto ⟨0⟩ counterFrame, .branch .goto ⟨3⟩ counterFrame] ∧
        b.frames.keys = [0, 3])) = true := by decide +kernel
  have hos : ∀ o ∈ Operation.kept (Assembler.start .empty counterFrame) tangle,
      o.hasBranchOpcode = true := by decide +kernel
  obtain ⟨a, b, ha, hb, h⟩ := exists_finish h
  obtain ⟨hinstructions, hframes⟩ := of_decide_eq_true h
  exact ⟨a, b, hos, ha, hb, hinstructions, hframes, connected_of_finish hos ha hb⟩

end Body
end ClassForge
