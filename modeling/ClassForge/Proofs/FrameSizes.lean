/-
# Frames fit in the room that a method takes

Specification, section 8, *max-stack/max-locals soundness*, for the frames that are
recorded.

The greatest depth of the stack and the number of locals are kept while code is
made, so that no frame at any point of it has more of either (`Assembler.Roomy`).

| operation | locals | stack |
| --- | --- | --- |
| an instruction | counted | counted |
| a branch | stay the same | counted |
| a label | no more than on either edge | the same on all edges |
| the end of a block | fewer | stays the same |

What an instruction does to the number of locals depends on the slot that it uses alone
(`Frame.length_locals_of_step`).
-/

import ClassForge.Proofs.Flow

namespace ClassForge

/-- Does the instruction read, write or increment a local? -/
def Effect.usesLocal : Effect → Bool
  | .loadLocal _ | .storeLocal _ | .incrementLocal => true
  | _ => false

/-- How many locals there are at least, if the slot that the instruction uses is one of
them. -/
def Instruction.room (i : Instruction) : Nat :=
  if i.opcode.effect.usesLocal then i.slot?.elim 0 (·.toNat + 1) else 0

/-- A branch uses no local. -/
theorem Instruction.room_branch {op : Opcode} (h : op.effect.isBranch = true) {target : Label}
    {arriving : Frame} : (Instruction.branch op target arriving).room = 0 := by
  have huses : op.effect.usesLocal = false := by
    cases heffect : op.effect with
    | loadLocal | storeLocal | incrementLocal =>
      rw [heffect] at h
      cases h
    | _ => rfl
  exact if_neg (Bool.eq_false_iff.1 huses)

/-- A frame has at most so many locals, and its stack is at most so deep. -/
structure Frame.Within (f : Frame) (locals depth : Nat) : Prop where
  locals : f.locals.length ≤ locals
  stack : f.stack.length ≤ depth

namespace Frame

variable {f g m : Frame} {locals depth : Nat}

theorem Within.mono {locals' depth' : Nat} (h : f.Within locals depth) (hl : locals ≤ locals')
    (hd : depth ≤ depth') : f.Within locals' depth' :=
  ⟨Nat.le_trans h.locals hl, Nat.le_trans h.stack hd⟩

theorem length_trim_le (ts : List FrameType) : (trim ts).length ≤ ts.length :=
  (isPrefix_trim ts).length_le

/-- Fewer locals need no more room. -/
theorem Within.killLocals (h : f.Within locals depth) (first : Nat) :
    (f.killLocals first).Within locals depth := by
  have htrim := length_trim_le (f.locals.take first)
  have htake : (f.locals.take first).length ≤ f.locals.length := by
    rw [List.length_take]
    exact Nat.min_le_right _ _
  exact ⟨Nat.le_trans htrim (Nat.le_trans htake h.locals), h.stack⟩

theorem Within.restrict (h : f.Within locals depth) (state : LabelState) :
    (state.restrict f).Within locals depth := by
  unfold LabelState.restrict
  split
  · exact h
  · exact h.killLocals _

theorem Within.merge (hf : f.Within locals depth) (h : f.merge g = some m) :
    m.Within locals depth := by
  unfold Frame.merge at h
  split at h
  · cases h
    have htrim := length_trim_le (List.zipWith meet f.locals g.locals)
    have hzip : (List.zipWith meet f.locals g.locals).length ≤ f.locals.length := by
      rw [List.length_zipWith]
      exact Nat.min_le_left _ _
    exact ⟨Nat.le_trans htrim (Nat.le_trans hzip hf.locals), hf.stack⟩
  · cases h

/-- A more general type needs the room of the other. -/
theorem Within.generalizeTop {type : FrameType} (hf : f.Within locals depth)
    (h : f.generalizeTop type = .ok g) : g.Within locals depth := by
  unfold Frame.generalizeTop at h
  split at h
  · cases h
  rename_i specific rest hstack
  repeat' split at h
  · cases h
  · cases h
  · cases h
    refine ⟨hf.locals, ?_⟩
    have hdepth := hf.stack
    rw [hstack] at hdepth
    exact hdepth

/-! ### The locals behind an instruction -/

theorem length_setLocal (ts : List FrameType) (slot : Nat) (t : FrameType) :
    (setLocal ts slot t).length = max ts.length (slot + 1) := by
  unfold setLocal
  rw [List.length_set, List.length_append, List.length_replicate]
  omega

/-- An outcome that has so many locals, unless it is a fault. -/
def HasLocals (count : Nat) (x : Except StepFault Frame) : Prop :=
  ∀ f, x = .ok f → f.locals.length = count

theorem hasLocals_error (count : Nat) (e : StepFault) : HasLocals count (.error e) :=
  fun _ h => nomatch h

theorem hasLocals_ok {count : Nat} (h : f.locals.length = count) : HasLocals count (.ok f) := by
  rintro _ ⟨⟩
  exact h

theorem hasLocals_bind {α : Type} {count : Nat} {x : Except StepFault α}
    {k : α → Except StepFault Frame} (h : ∀ v, x = .ok v → HasLocals count (k v)) :
    HasLocals count (x >>= k) := by
  cases x with
  | error e => exact hasLocals_error count e
  | ok v => exact h v rfl

/-- A step that finds a slot finds the one that the instruction names. -/
theorem slot?_of_slotOf {i : Instruction} {slot : UInt16} (h : slotOf i = .ok slot) :
    i.slot? = some slot := by
  unfold slotOf at h
  split at h
  · rename_i hslot
    cases h
    exact hslot
  · cases h

/-- Behind a load, a store or an increment the slot that it uses is among the locals, and
nothing else makes their number change. -/
theorem hasLocals_step (L : List FrameType) (S : Stack) (n : Nat) (i : Instruction)
    (types : OperandTypes) :
    HasLocals (max L.length i.room) (step ⟨L, S⟩ n i types) := by
  have hroom {slot : UInt16} (huses : i.opcode.effect.usesLocal = true)
      (hslot : slotOf i = .ok slot) : i.room = slot.toNat + 1 := by
    rw [Instruction.room, if_pos huses, slot?_of_slotOf hslot, Option.elim_some]
  -- a slot that is there already asks for no more locals
  have hused {slot : UInt16} {t : FrameType} (s : Stack)
      (huses : i.opcode.effect.usesLocal = true) (hslot : slotOf i = .ok slot)
      (ht : L[slot.toNat]? = some t) : HasLocals (max L.length i.room) (.ok ⟨L, s⟩) := by
    have hlt := (List.getElem?_eq_some_iff.1 ht).1
    refine hasLocals_ok (Nat.max_eq_left ?_).symm
    rw [hroom huses hslot]
    exact hlt
  have hnone (huses : i.opcode.effect.usesLocal = false) : max L.length i.room = L.length := by
    rw [Instruction.room, huses]
    exact Nat.max_zero _
  unfold step
  cases heffect : i.opcode.effect with
  | loadLocal kind =>
    have huses : i.opcode.effect.usesLocal = true := by rw [heffect]; rfl
    refine hasLocals_bind fun slot hslot => ?_
    dsimp only
    split
    · exact hasLocals_error _ _
    · exact hasLocals_error _ _
    · rename_i ht
      split
      · exact hused _ huses hslot ht
      · exact hasLocals_error _ _
  | storeLocal kind =>
    have huses : i.opcode.effect.usesLocal = true := by rw [heffect]; rfl
    refine hasLocals_bind fun slot hslot => hasLocals_bind fun popped _ => ?_
    have hstore (t : FrameType) :
        HasLocals (max L.length i.room) (.ok ⟨setLocal L slot.toNat t, popped.2⟩) := by
      refine hasLocals_ok ?_
      rw [length_setLocal, hroom huses hslot]
    cases types with
    | value declared =>
      dsimp only
      split
      · exact hstore declared
      · exact hasLocals_error _ _
    | _ => exact hstore popped.1
  | incrementLocal =>
    have huses : i.opcode.effect.usesLocal = true := by rw [heffect]; rfl
    refine hasLocals_bind fun slot hslot => ?_
    dsimp only
    split
    · rename_i ht
      exact hused _ huses hslot ht
    · exact hasLocals_error _ _
  | invokeSpecial =>
    rw [hnone (by rw [heffect]; rfl)]
    cases types with
    | constructor arguments type =>
      refine hasLocals_bind fun below _ => hasLocals_bind fun popped _ => ?_
      obtain ⟨receiver, rest⟩ := popped
      cases receiver with
      | uninitializedThis => exact hasLocals_ok (List.length_map _)
      | uninitialized origin => exact hasLocals_ok (List.length_map _)
      | _ => exact hasLocals_error _ _
    | _ => exact hasLocals_bind fun _ _ => hasLocals_ok rfl
  | _ =>
    -- what is left only takes types off the stack and puts types on it
    rw [hnone (by rw [heffect]; rfl)]
    dsimp only
    repeat' first
      | exact hasLocals_ok rfl
      | exact hasLocals_error _ _
      | refine hasLocals_bind fun _ _ => ?_
      | split

/-- An instruction that uses a local runs only if it names the slot. -/
theorem exists_slot_of_step {n : Nat} {i : Instruction} {types : OperandTypes}
    (huses : i.opcode.effect.usesLocal = true) (h : f.step n i types = .ok g) :
    ∃ slot, i.slot? = some slot := by
  cases hslot : slotOf i with
  | ok slot => exact ⟨slot, slot?_of_slotOf hslot⟩
  | error e =>
    unfold step at h
    rw [hslot] at h
    cases heffect : i.opcode.effect with
    | loadLocal | storeLocal | incrementLocal =>
      rw [heffect] at h
      cases h
    | _ =>
      rw [heffect] at huses
      cases huses

/-- **The locals behind an instruction**: those before it, and as many as the slot needs
that it uses. -/
theorem length_locals_of_step {n : Nat} {i : Instruction} {types : OperandTypes}
    (h : f.step n i types = .ok g) : g.locals.length = max f.locals.length i.room :=
  hasLocals_step f.locals f.stack n i types g h

end Frame

/-- What the edges agree on needs no more room than they do. -/
theorem Joins.within {x y : Option Frame} {z : Option Frame} {locals depth : Nat}
    (h : Joins x y z) (hx : ∀ f, x = some f → f.Within locals depth)
    (hy : ∀ f, y = some f → f.Within locals depth) {f : Frame} (hf : z = some f) :
    f.Within locals depth := by
  cases h with
  | right => exact hy f hf
  | left => exact hx f hf
  | both hm =>
    cases hf
    exact (hx _ rfl).merge hm

namespace Assembler

variable {a b : Assembler}

/-- Every frame that is known fits in the room that is counted. -/
structure Roomy (a : Assembler) : Prop where
  current : ∀ f, a.current = some f → f.Within a.maxLocals a.maxStack
  labels : ∀ state ∈ a.labels, ∀ f, state.frame = some f → f.Within a.maxLocals a.maxStack
  placed : ∀ (n : Nat) (f : Frame), a.placedFrames[n]? = some f → f.Within a.maxLocals a.maxStack

theorem roomy_start (pool : ConstantPool) {entry : Frame} (h : entry.stack = []) :
    (start pool entry).Roomy where
  current f hf := by
    cases hf
    exact ⟨Nat.le_refl _, by simp [h]⟩
  labels state hstate := by simp [start] at hstate
  placed n f hf := by simp [start] at hf

/-- More room does for the same labels. -/
theorem Roomy.mono (ha : a.Roomy) (hlocals : a.maxLocals ≤ b.maxLocals)
    (hstack : a.maxStack ≤ b.maxStack) (hlabels : b.labels = a.labels)
    (hplaced : b.placedFrames = a.placedFrames)
    (hcurrent : ∀ f, b.current = some f → f.Within b.maxLocals b.maxStack) : b.Roomy where
  current := hcurrent
  labels state hstate f hf := (ha.labels state (hlabels ▸ hstate) f hf).mono hlocals hstack
  placed n f hf := (ha.placed n f (hplaced ▸ hf)).mono hlocals hstack

/-- A branch behind which and to which control goes on with the same locals. -/
theorem Roomy.pushJump (ha : a.Roomy) {op : Opcode} {target : Label} {f next : Frame}
    {state new : LabelState} (hop : op.effect.isBranch = true) (hc : a.current = some f)
    (hs : f.step a.instructions.size (.branch op target .empty) .none = .ok next)
    (hnew : (state.restrict next).Within a.maxLocals (max a.maxStack next.stack.length) →
      ∀ g, new.frame = some g → g.Within a.maxLocals (max a.maxStack next.stack.length)) :
    (Assembler.pushJump op target next (state.restrict next)
      { a with
        current := some next
        labels := a.labels.setIfInBounds target.index new }).Roomy := by
  have hnext : next.Within a.maxLocals (max a.maxStack next.stack.length) := by
    refine ⟨?_, Nat.le_max_right _ _⟩
    rw [Frame.length_locals_of_step hs, Instruction.room_branch hop, Nat.max_zero]
    exact (ha.current f hc).locals
  refine ⟨fun g hg => ?_, fun s hs g hg => ?_, fun n g hg => ?_⟩
  · unfold Assembler.pushJump at hg
    dsimp only at hg
    split at hg
    · cases hg
    · cases hg
      exact hnext
  · rcases Array.mem_or_eq_of_mem_setIfInBounds hs with hs | rfl
    · exact (ha.labels s hs g hg).mono Nat.le.refl (Nat.le_max_left _ _)
    · exact hnew (hnext.restrict state) g hg
  · exact (ha.placed n g hg).mono Nat.le.refl (Nat.le_max_left _ _)

/-- **Every operation counts the room that it takes.** The frames at the current point, at
labels and at instructions stay within what is counted, since no frame is recorded that was
not counted before. -/
theorem Roomy.advances {o : Operation} (ho : o.hasBranchOpcode = true) (ha : a.Roomy)
    (h : Advances o a b) : b.Roomy := by
  cases h with
  | label limit =>
    refine ⟨ha.current, fun state hstate f hf => ?_, ha.placed⟩
    rcases Array.mem_push.1 hstate with hstate | rfl
    · exact ha.labels state hstate f hf
    · cases hf
  | constant => exact ⟨ha.current, ha.labels, ha.placed⟩
  | drop => exact ha
  | push hc hi hs =>
    refine ha.mono (Nat.le_max_left _ _) (Nat.le_max_left _ _) rfl rfl fun f hf => ?_
    dsimp only at hf
    split at hf
    · cases hf
    · cases hf
      exact ⟨Nat.le_max_right _ _, Nat.le_max_right _ _⟩
  | jumpBack hc hs hl hp ht haccepts =>
    refine ha.pushJump ho hc hs fun _ g hg => ?_
    exact (ha.labels _ (Array.mem_of_getElem? hl) g hg).mono Nat.le.refl (Nat.le_max_left _ _)
  | jumpAhead hc hs hl hp hj =>
    refine ha.pushJump ho hc hs fun harriving g hg => ?_
    refine hj.within (fun f hf => ?_) (fun f hf => ?_) hg
    · exact (ha.labels _ (Array.mem_of_getElem? hl) f hf).mono Nat.le.refl (Nat.le_max_left _ _)
    · cases hf
      exact harriving
  | place hl hp hj =>
    rename_i label state frame
    have hframe : ∀ f, frame = some f → f.Within a.maxLocals a.maxStack := by
      intro f hf
      refine hj.within (fun g hg => ?_) (ha.labels state (Array.mem_of_getElem? hl)) hf
      obtain ⟨above, habove, rfl⟩ := Option.map_eq_some_iff.1 hg
      exact (ha.current above habove).restrict state
    refine ⟨hframe, fun s hs f hf => ?_, fun n f hf => ?_⟩
    · rcases Array.mem_or_eq_of_mem_setIfInBounds hs with hs | rfl
      · exact ha.labels s hs f hf
      · exact hframe f hf
    · rw [getElem?_placedFrames_settle] at hf
      split at hf
      · cases frame with
        | none => exact ha.placed n f hf
        | some m =>
          cases hf
          exact hframe f rfl
      · exact ha.placed n f hf
  | killLocals first =>
    refine ha.mono Nat.le.refl Nat.le.refl rfl rfl fun f hf => ?_
    obtain ⟨g, hg, rfl⟩ := Option.map_eq_some_iff.1 hf
    exact (ha.current g hg).killLocals first
  | noteLocals count =>
    refine ha.mono (Nat.le_max_left _ _) Nat.le.refl rfl rfl fun f hf => ?_
    exact (ha.current f hf).mono (Nat.le_max_left _ _) Nat.le.refl
  | generalize hc hg =>
    refine ha.mono Nat.le.refl Nat.le.refl rfl rfl fun f hf => ?_
    cases hf
    exact (ha.current _ hc).generalizeTop hg

end Assembler

/-- **No frame of a finished body needs more room than the body says.** -/
theorem Body.frames_within {pool : ConstantPool} {entry : Frame} {a : Assembler} {b : Body}
    (hentry : entry.stack = []) (h : Built (Assembler.start pool entry) a)
    (hfinish : a.finish = .ok b) {n : Nat} {f : Frame} (hf : b.frames[n]? = some f) :
    f.Within b.maxLocals b.maxStack := by
  have hroomy : a.Roomy := h.induct (Assembler.roomy_start pool hentry)
    fun o x y ho hstep hx => hx.advances ho.hasBranchOpcode hstep
  obtain ⟨-, hplacement, -, -, hstack, hlocals⟩ := Assembler.finish_eq_ok hfinish
  rw [hstack, hlocals]
  exact hroomy.placed n f (hplacement.frames n f hf).1

end ClassForge
