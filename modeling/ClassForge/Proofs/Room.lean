/-
# The room that finished code takes

Specification, section 8, *max-stack/max-locals soundness*.

A body says how deep the stack gets and how many locals there are.  That is enough on
every execution path, however long (`Body.Suffices`), and the depth is reached on one
(`Body.room_of_finish`).  The assembler counts along its own frames, one for each
instruction, and paths have other frames:

| part of a frame | on a path |
| --- | --- |
| the stack | the one that the assembler has there |
| the locals | those of the assembler, and more where edges that meet lost some |

So the depth carries over from the frames of the assembler, while the locals have to be
followed along the path: no instruction makes them more than the slot needs that it
uses (`Frame.length_locals_of_step`), and that was counted.
-/

import ClassForge.Proofs.FrameSizes

namespace ClassForge

theorem Frame.depth_of_accepts {f g : Frame} (h : f.accepts g = true) :
    g.stack.length = f.stack.length :=
  congrArg List.length ((Frame.accepts_iff f g).1 h).1.symm

namespace Assembler

/-- The frame behind an instruction that runs in the frame that is kept for it. -/
def Leaves (a : Assembler) (types : List OperandTypes) (frames : List Frame) (n : Nat)
    (next : Frame) : Prop :=
  ∃ i t f, a.instructions[n]? = some i ∧ types[n]? = some t ∧ frames[n]? = some f ∧
    f.step n i t = .ok next

/-- The frames before and behind all instructions fit in the room that is counted, and the
depth is that of the stack behind one of them. -/
structure Measured (a : Assembler) (types : List OperandTypes) (frames : List Frame) : Prop where
  sound : a.Sound types frames
  roomy : a.Roomy
  entry : a.entry.Within a.maxLocals a.maxStack
  before : ∀ f ∈ frames, f.Within a.maxLocals a.maxStack
  behind : ∀ n next, a.Leaves types frames n next → next.Within a.maxLocals a.maxStack
  peak : a.maxStack = 0 ∨
    ∃ n next, a.Leaves types frames n next ∧ next.stack.length = a.maxStack

variable {a b : Assembler} {types : List OperandTypes} {frames : List Frame}

/-- At the start, the room is that of the entry frame. -/
theorem measured_start (pool : ConstantPool) {entry : Frame} (h : entry.stack = []) :
    (start pool entry).Measured [] [] where
  sound := sound_start pool entry
  roomy := roomy_start pool h
  entry := (roomy_start pool h).current entry rfl
  before f hf := nomatch hf
  behind n next := by
    rintro ⟨i, t, f, hi, -⟩
    simp [start] at hi
  peak := .inl rfl

/-- No instruction is added, and the depth is as before. -/
theorem Measured.keep (h : a.Measured types frames) (hsound : b.Sound types frames)
    (hroomy : b.Roomy) (hinstructions : b.instructions = a.instructions)
    (hentry : b.entry = a.entry) (hstack : b.maxStack = a.maxStack)
    (hlocals : a.maxLocals ≤ b.maxLocals) : b.Measured types frames := by
  have hmono {f : Frame} (hf : f.Within a.maxLocals a.maxStack) :
      f.Within b.maxLocals b.maxStack := hf.mono hlocals (Nat.le_of_eq hstack.symm)
  have hleaves (n : Nat) (next : Frame) :
      b.Leaves types frames n next ↔ a.Leaves types frames n next := by
    unfold Leaves
    rw [hinstructions]
  refine ⟨hsound, hroomy, hentry ▸ hmono h.entry, fun f hf => hmono (h.before f hf),
    fun n next hnext => hmono (h.behind n next ((hleaves n next).1 hnext)), ?_⟩
  rw [hstack]
  refine h.peak.imp id ?_
  rintro ⟨n, next, hnext, hdepth⟩
  exact ⟨n, next, (hleaves n next).2 hnext, hdepth⟩

section Concat

variable {i : Instruction} {t : OperandTypes} {f next g : Frame} {n : Nat}

/-- The frames behind the instructions so far are still those. -/
theorem Leaves.concat (h : a.Leaves types frames n g)
    (hinstructions : b.instructions = a.instructions.push i) :
    b.Leaves (types ++ [t]) (frames ++ [f]) n g := by
  obtain ⟨j, u, k, hj, hu, hk, hstep⟩ := h
  refine ⟨j, u, k, ?_, ?_, ?_, hstep⟩
  · rw [hinstructions]
    exact getElem?_push_of_some hj
  · rwa [List.getElem?_append_left (List.getElem?_eq_some_iff.1 hu).1]
  · rwa [List.getElem?_append_left (List.getElem?_eq_some_iff.1 hk).1]

/-- The frame behind a new instruction. -/
theorem Sound.leaves_new (hs : a.Sound types frames)
    (hinstructions : b.instructions = a.instructions.push i)
    (hstep : f.step a.instructions.size i t = .ok next) :
    b.Leaves (types ++ [t]) (frames ++ [f]) a.instructions.size next := by
  refine ⟨i, t, f, ?_, ?_, ?_, hstep⟩
  · rw [hinstructions, Array.getElem?_push_size]
  · rw [← hs.types_length, List.getElem?_concat_length]
  · rw [← hs.frames_length, List.getElem?_concat_length]

/-- There are no others. -/
theorem Sound.of_leaves_concat (hs : a.Sound types frames)
    (hinstructions : b.instructions = a.instructions.push i)
    (hstep : f.step a.instructions.size i t = .ok next)
    (h : b.Leaves (types ++ [t]) (frames ++ [f]) n g) :
    g = next ∨ a.Leaves types frames n g := by
  obtain ⟨j, u, k, hj, hu, hk, hg⟩ := h
  rw [hinstructions, Array.getElem?_push] at hj
  split at hj
  · rename_i hn
    subst hn
    cases hj
    rw [← hs.types_length, List.getElem?_concat_length] at hu
    rw [← hs.frames_length, List.getElem?_concat_length] at hk
    cases hu
    cases hk
    rw [hstep] at hg
    cases hg
    exact .inl rfl
  · have hlt := (Array.getElem?_eq_some_iff.1 hj).1
    rw [List.getElem?_append_left (hs.types_length ▸ hlt)] at hu
    rw [List.getElem?_append_left (hs.frames_length ▸ hlt)] at hk
    exact .inr ⟨j, u, k, hj, hu, hk, hg⟩

/-- A new instruction in the current frame, with the frame behind it counted. -/
theorem Measured.concat (h : a.Measured types frames) (hc : a.current = some f)
    (hstep : f.step a.instructions.size i t = .ok next)
    (hsound : b.Sound (types ++ [t]) (frames ++ [f])) (hroomy : b.Roomy)
    (hinstructions : b.instructions = a.instructions.push i) (hentry : b.entry = a.entry)
    (hstack : b.maxStack = max a.maxStack next.stack.length)
    (hlocals : b.maxLocals = max a.maxLocals next.locals.length) :
    b.Measured (types ++ [t]) (frames ++ [f]) := by
  have hmono {k : Frame} (hk : k.Within a.maxLocals a.maxStack) :
      k.Within b.maxLocals b.maxStack :=
    hk.mono (hlocals ▸ Nat.le_max_left _ _) (hstack ▸ Nat.le_max_left _ _)
  refine ⟨hsound, hroomy, hentry ▸ hmono h.entry, fun k hk => ?_, fun n g hg => ?_, ?_⟩
  · rcases List.mem_append.1 hk with hk | hk
    · exact hmono (h.before k hk)
    · obtain rfl := List.mem_singleton.1 hk
      exact hmono (h.roomy.current k hc)
  · rcases h.sound.of_leaves_concat hinstructions hstep hg with rfl | hg
    · exact ⟨hlocals ▸ Nat.le_max_right _ _, hstack ▸ Nat.le_max_right _ _⟩
    · exact hmono (h.behind n g hg)
  · rcases Nat.le_total a.maxStack next.stack.length with hle | hle
    · rw [Nat.max_eq_right hle] at hstack
      exact .inr ⟨_, next, h.sound.leaves_new hinstructions hstep, hstack.symm⟩
    · rw [Nat.max_eq_left hle] at hstack
      rw [hstack]
      refine h.peak.imp id ?_
      rintro ⟨n, g, hg, hdepth⟩
      exact ⟨n, g, hg.concat hinstructions, hdepth⟩

/-- A branch, which leaves the number of locals as it is. -/
theorem Measured.pushJump (h : a.Measured types frames) {op : Opcode} {target : Label}
    {arriving : Frame} {labels : Array LabelState} (hop : op.effect.isBranch = true)
    (hc : a.current = some f)
    (hstep : f.step a.instructions.size (.branch op target .empty) .none = .ok next)
    (hb : b = Assembler.pushJump op target next arriving
      { a with current := some next, labels := labels })
    (hsound : b.Sound (types ++ [.none]) (frames ++ [f])) (hroomy : b.Roomy) :
    b.Measured (types ++ [.none]) (frames ++ [f]) := by
  have hlocals : next.locals.length ≤ a.maxLocals := by
    rw [Frame.length_locals_of_step hstep, Instruction.room_branch hop, Nat.max_zero]
    exact (h.roomy.current f hc).locals
  refine h.concat (i := .branch op target arriving) hc (step_branch .. ▸ hstep) hsound hroomy
    (by rw [hb]; rfl) (by rw [hb]; rfl) (by rw [hb]; rfl) ?_
  rw [Nat.max_eq_left hlocals, hb]
  rfl

end Concat

/-- **One operation keeps the room measured.** The frame of an instruction that it adds fits
in the room, and if it raises the depth, then the stack behind this instruction is that
deep. -/
theorem Measured.advances (h : a.Measured types frames) {o : Operation}
    (htypes : o.keepsTypes = true) (hbranch : o.hasBranchOpcode = true) (hstep : Advances o a b) :
    b.Measured (types ++ o.operandTypes a) (frames ++ o.addedFrames a) := by
  have hsound := h.sound.advances htypes hstep
  have hroomy := h.roomy.advances hbranch hstep
  have hkeep (hnothing : o.operandTypes a = [] ∧ o.addedFrames a = [])
      (hinstructions : b.instructions = a.instructions) (hentry : b.entry = a.entry)
      (hstack : b.maxStack = a.maxStack) (hlocals : a.maxLocals ≤ b.maxLocals) :
      b.Measured (types ++ o.operandTypes a) (frames ++ o.addedFrames a) := by
    rw [hnothing.1, hnothing.2, List.append_nil, List.append_nil] at hsound ⊢
    exact h.keep hsound hroomy hinstructions hentry hstack hlocals
  cases hstep with
  | label | constant | place | killLocals =>
    exact hkeep ⟨rfl, rfl⟩ rfl rfl rfl Nat.le.refl
  | noteLocals => exact hkeep ⟨rfl, rfl⟩ rfl rfl rfl (Nat.le_max_left _ _)
  | drop ho hc => exact hkeep (o.adds_nothing hc) rfl rfl rfl Nat.le.refl
  | generalize => cases htypes
  | @push i t _ f next hc hi hs =>
    obtain ⟨htypes, hframes⟩ := Operation.push_adds hc i t
    rw [htypes, hframes] at hsound ⊢
    exact h.concat hc hs hsound hroomy rfl rfl rfl rfl
  | @jumpBack op target _ f next there state index hc hs =>
    obtain ⟨htypes, hframes⟩ := Operation.branch_adds hc op target
    rw [htypes, hframes] at hsound ⊢
    exact h.pushJump hbranch hc hs rfl hsound hroomy
  | @jumpAhead op target _ f next there state hc hs =>
    obtain ⟨htypes, hframes⟩ := Operation.branch_adds hc op target
    rw [htypes, hframes] at hsound ⊢
    exact h.pushJump hbranch hc hs rfl hsound hroomy

/-- **A sequence of operations keeps the room measured.** -/
theorem measured_of_runAll {pool : ConstantPool} {entry : Frame} {os : List Operation}
    (hentry : entry.stack = [])
    (hos : ∀ o ∈ Operation.kept (start pool entry) os,
      o.keepsTypes = true ∧ o.hasBranchOpcode = true)
    (hrun : Operation.runAll os (start pool entry) = .ok () a) :
    ∃ frames, a.Measured (Operation.allOperandTypes (start pool entry) os) frames := by
  obtain ⟨frames, h⟩ := Operation.runAll_induct_frames hrun (measured_start pool hentry)
    fun o ho x y ts fs hstep hx => hx.advances (hos o ho).1 (hos o ho).2 hstep
  rw [List.nil_append, List.nil_append] at h
  exact ⟨frames, h⟩

theorem Measured.room_le (h : a.Measured types frames) {n : Nat} {i : Instruction}
    (hi : a.instructions[n]? = some i) : i.room ≤ a.maxLocals := by
  obtain ⟨t, f, next, ht, hf, hstep, -⟩ := h.sound.runs n i hi
  have hlocals := (h.behind n next ⟨i, t, f, hi, ht, hf, hstep⟩).locals
  rw [Frame.length_locals_of_step hstep] at hlocals
  exact Nat.le_trans (Nat.le_max_right _ _) hlocals

/-- The slot that an instruction uses is below the number of locals. -/
theorem Measured.slot_lt (h : a.Measured types frames) {n : Nat} {i : Instruction}
    (hi : a.instructions[n]? = some i) (huses : i.opcode.effect.usesLocal = true) :
    ∃ slot, i.slot? = some slot ∧ slot.toNat < a.maxLocals := by
  obtain ⟨t, f, next, -, -, hstep, -⟩ := h.sound.runs n i hi
  obtain ⟨slot, hslot⟩ := Frame.exists_slot_of_step huses hstep
  have hroom := h.room_le hi
  rw [Instruction.room, if_pos huses, hslot] at hroom
  exact ⟨slot, hslot, hroom⟩

end Assembler

/-! ### Paths through the finished body -/

namespace Body

open Assembler

/-- What a body says of its room is enough: for the frames that a path arrives with at
instructions, for those that it leaves them with, for the slots that they use, and for the
frames that are recorded. -/
structure Suffices (b : Body) (types : List OperandTypes) : Prop where
  arrives : ∀ n f, b.Arrives types n f → f.Within b.maxLocals b.maxStack
  leaves : ∀ n f, b.Arrives types n f → ∃ i t next, b.instructions[n]? = some i ∧
    types[n]? = some t ∧ f.step n i t = .ok next ∧ next.Within b.maxLocals b.maxStack
  slots : ∀ i ∈ b.instructions, i.opcode.effect.usesLocal = true →
    ∃ slot, i.slot? = some slot ∧ slot.toNat < b.maxLocals
  recorded : ∀ (n : Nat) f, b.frames[n]? = some f → f.Within b.maxLocals b.maxStack

/-- Some path has a stack of the given depth behind an instruction. -/
def Attains (b : Body) (types : List OperandTypes) (depth : Nat) : Prop :=
  ∃ n f i t next, b.Arrives types n f ∧ b.instructions[n]? = some i ∧ types[n]? = some t ∧
    f.step n i t = .ok next ∧ next.stack.length = depth

variable {a : Assembler} {b : Body} {types : List OperandTypes} {frames : List Frame}

theorem Arrives.runs (hs : a.Sound types frames) (hb : a.finish = .ok b) {n : Nat} {f g : Frame}
    (h : b.Arrives types n f) (hg : a.Leaves types frames n g) :
    ∃ i t next, b.instructions[n]? = some i ∧ types[n]? = some t ∧ f.step n i t = .ok next ∧
      next.stack.length = g.stack.length := by
  obtain ⟨-, -, hinstructions, -⟩ := finish_eq_ok hb
  obtain ⟨i, t, k, hi, ht, hk, hstep⟩ := hg
  obtain ⟨⟨k', hk', haccepts⟩, -⟩ := h.admits hs hb
  rw [points, List.getElem?_append_left (List.getElem?_eq_some_iff.1 hk).1, hk] at hk'
  cases hk'
  obtain ⟨next, hnext, hdepth⟩ := Frame.step_mono haccepts hstep
  exact ⟨i, t, next, hinstructions ▸ hi, ht, hnext, Frame.depth_of_accepts hdepth⟩

/-- A path arrives at instructions only, with the stack that the assembler has there. -/
theorem Arrives.exists_frame (hs : a.Sound types frames) (hb : a.finish = .ok b) {n : Nat}
    {f : Frame} (h : b.Arrives types n f) :
    ∃ g next, frames[n]? = some g ∧ f.stack.length = g.stack.length ∧
      a.Leaves types frames n next := by
  obtain ⟨hc, -⟩ := finish_eq_ok hb
  obtain ⟨⟨g, hg, haccepts⟩, -⟩ := h.admits hs hb
  rw [points, hc, Option.toList_none, List.append_nil] at hg
  have hlt : n < a.instructions.size := hs.frames_length ▸ (List.getElem?_eq_some_iff.1 hg).1
  have hi : a.instructions[n]? = some a.instructions[n] := Array.getElem?_eq_getElem hlt
  obtain ⟨t, f', next, ht, hf', hstep, -⟩ := hs.runs n _ hi
  exact ⟨g, next, hg, Frame.depth_of_accepts haccepts, _, t, f', hi, ht, hf', hstep⟩

/-- Along a path there are no more locals than are counted. -/
theorem Arrives.locals_le (h : a.Measured types frames) (hb : a.finish = .ok b) {n : Nat}
    {f : Frame} (harrives : b.Arrives types n f) : f.locals.length ≤ a.maxLocals := by
  obtain ⟨-, -, hinstructions, hentry, -⟩ := finish_eq_ok hb
  -- the frames of the assembler do not bound these: where edges met, they may have fewer locals
  induction harrives with
  | entry => exact hentry ▸ h.entry.locals
  | next _ hi _ hstep _ ih =>
    rw [Frame.length_locals_of_step hstep]
    exact Nat.max_le.2 ⟨ih, h.room_le (hinstructions ▸ hi)⟩
  | jump _ hi _ hstep _ _ _ ih =>
    rw [Frame.length_locals_of_step hstep]
    exact Nat.max_le.2 ⟨ih, h.room_le (hinstructions ▸ hi)⟩

/-- A path arrives wherever control can get. -/
theorem exists_arrives (hs : a.Sound types frames) (hb : a.finish = .ok b) {n : Nat}
    (h : Reached a.instructions a.position n) : ∃ f, b.Arrives types n f := by
  obtain ⟨-, -, hinstructions, -⟩ := finish_eq_ok hb
  induction h with
  | refl => exact ⟨b.entry, .entry⟩
  | tail _ hedge ih =>
    obtain ⟨f, hf⟩ := ih
    have hadmits := hf.admits hs hb
    cases hedge with
    | next hi hu =>
      obtain ⟨t, f', ht, hstep, -⟩ := runs_of_admits hs hi hadmits
      exact ⟨f', hf.next (hinstructions ▸ hi) ht hstep hu⟩
    | jump hi hbranch hl hm =>
      obtain ⟨t, f', ht, hstep, -⟩ := runs_of_admits hs hi hadmits
      rw [← position_of_finish hb] at hm
      exact ⟨f', hf.jump (hinstructions ▸ hi) ht hstep hbranch hl hm⟩

/-- What is counted is enough on every path. -/
theorem suffices_of_measured (h : a.Measured types frames) (hb : a.finish = .ok b) :
    b.Suffices types := by
  obtain ⟨-, hdescribes, hinstructions, -, hstack, hlocals⟩ := finish_eq_ok hb
  constructor
  · intro n f hf
    obtain ⟨g, -, hg, hdepth, -⟩ := hf.exists_frame h.sound hb
    refine ⟨hlocals ▸ hf.locals_le h hb, ?_⟩
    rw [hstack, hdepth]
    exact (h.before g (List.mem_of_getElem? hg)).stack
  · intro n f hf
    obtain ⟨-, g, -, -, hg⟩ := hf.exists_frame h.sound hb
    obtain ⟨i, t, next, hi, ht, hstep, hdepth⟩ := hf.runs h.sound hb hg
    refine ⟨i, t, next, hi, ht, hstep, ?_, ?_⟩
    · rw [Frame.length_locals_of_step hstep, hlocals]
      exact Nat.max_le.2 ⟨hf.locals_le h hb, h.room_le (hinstructions ▸ hi)⟩
    · rw [hstack, hdepth]
      exact (h.behind n g hg).stack
  · intro i hi huses
    obtain ⟨n, hn, rfl⟩ := Array.mem_iff_getElem.1 (hinstructions ▸ hi)
    rw [hlocals]
    exact h.slot_lt (Array.getElem?_eq_getElem hn) huses
  · intro n f hf
    rw [hstack, hlocals]
    exact h.roomy.placed n f (hdescribes.frames n f hf).1

/-- **The room of finished code is enough, and the depth of its stack is reached.**  Take
any operations that succeed from an entry with an empty stack and end in a finished body.
Those that are not dropped do not make types more general and branch by the opcodes of
branches.  On every path from
the entry the stack is never deeper and there are never more locals than the body says, and
neither instructions nor recorded frames go beyond that; and some path has a stack of just
that depth, unless the depth is zero. -/
theorem room_of_finish {os : List Operation} {pool : ConstantPool} {entry : Frame}
    (hentry : entry.stack = [])
    (hos : ∀ o ∈ Operation.kept (start pool entry) os,
      o.keepsTypes = true ∧ o.hasBranchOpcode = true)
    (hrun : Operation.runAll os (start pool entry) = .ok () a) (hb : a.finish = .ok b) :
    b.Suffices (Operation.allOperandTypes (start pool entry) os) ∧
      (b.maxStack = 0 ∨
        b.Attains (Operation.allOperandTypes (start pool entry) os) b.maxStack) := by
  obtain ⟨frames, h⟩ := measured_of_runAll hentry hos hrun
  obtain ⟨-, -, -, -, hstack, -⟩ := finish_eq_ok hb
  refine ⟨suffices_of_measured h hb, ?_⟩
  rw [hstack]
  refine h.peak.imp id ?_
  rintro ⟨n, g, hg, hdepth⟩
  have hlt : n < a.instructions.size := by
    obtain ⟨i, -, -, hi, -⟩ := hg
    exact (Array.getElem?_eq_some_iff.1 hi).1
  have hconnected := connected_of_runAll (fun o ho => (hos o ho).2) hrun
  obtain ⟨f, hf⟩ := exists_arrives h.sound hb (hconnected.reached n hlt)
  obtain ⟨i, t, next, hi, ht, hstep, hnext⟩ := hf.runs h.sound hb hg
  exact ⟨n, f, i, t, next, hf, hi, ht, hstep, hnext.trans hdepth⟩

/-- A local that is stored on one of two ways, which then meet. -/
def skippedStore : List Operation :=
  [.label none, .push (.load .int 0) .none, .branch .ifeq ⟨0⟩, .push (.simple .iconst1) .none,
    .push (.store .int 1) .none, .place ⟨0⟩, .push (.simple .returnVoid) .none]

/-- One way arrives at the end with two locals, where a frame with one is recorded, and there
is room for two. -/
theorem skippedStore_room :
    ∃ a b, counterFrame.stack = [] ∧
      (∀ o ∈ Operation.kept (start .empty counterFrame) skippedStore,
        o.keepsTypes = true ∧ o.hasBranchOpcode = true) ∧
      Operation.runAll skippedStore (start .empty counterFrame) = .ok () a ∧
      a.finish = .ok b ∧ b.maxStack = 1 ∧ b.maxLocals = 2 ∧ b.frames[4]? = some counterFrame ∧
      b.Arrives (Operation.allOperandTypes (start .empty counterFrame) skippedStore) 4
        ⟨[.integer, .integer], []⟩ ∧
      b.Suffices (Operation.allOperandTypes (start .empty counterFrame) skippedStore) ∧
      (b.maxStack = 0 ∨
        b.Attains (Operation.allOperandTypes (start .empty counterFrame) skippedStore)
          b.maxStack) := by
  have h : (outcome? (Operation.runAll skippedStore (start .empty counterFrame))).any (fun r =>
      r.2.finish.toOption.any fun b => decide (b.entry = counterFrame ∧
        b.instructions = #[.load .int 0, .branch .ifeq ⟨0⟩ counterFrame, .simple .iconst1,
          .store .int 1, .simple .returnVoid] ∧
        b.maxStack = 1 ∧ b.maxLocals = 2 ∧ b.frames[4]? = some counterFrame)) = true := by
    decide +kernel
  obtain ⟨a, b, ha, hb, h⟩ := exists_finish h
  obtain ⟨hentry, hinstructions, hstack, hlocals, hframe⟩ := of_decide_eq_true h
  have hos : ∀ o ∈ Operation.kept (start .empty counterFrame) skippedStore,
      o.keepsTypes = true ∧ o.hasBranchOpcode = true := by decide +kernel
  have htypes : Operation.allOperandTypes (start .empty counterFrame) skippedStore =
      [.none, .none, .none, .none, .none] := by decide +kernel
  have hpath : b.Arrives (Operation.allOperandTypes (start .empty counterFrame) skippedStore) 4
      ⟨[.integer, .integer], []⟩ := by
    rw [htypes]
    have h₀ : b.Arrives [.none, .none, .none, .none, .none] 0 counterFrame := hentry ▸ .entry
    have h₁ := h₀.next (by rw [hinstructions]; rfl) rfl rfl rfl
    have h₂ := h₁.next (by rw [hinstructions]; rfl) rfl rfl rfl
    have h₃ := h₂.next (by rw [hinstructions]; rfl) rfl rfl rfl
    exact h₃.next (by rw [hinstructions]; rfl) rfl rfl rfl
  exact ⟨a, b, rfl, hos, ha, hb, hstack, hlocals, hframe, hpath, room_of_finish rfl hos ha hb⟩

end Body
end ClassForge
