/-
# Locals that end in something known

A slot of which nothing is known is `top`, and a `top` behind the last known slot says
nothing: a frame with it and one without it mean the same but differ as lists.  Frames are
compared and compressed as lists, so none that is recorded ends in a `top`
(`recorded_trimmed`).

Not every operation trims.  Two edges that meet and locals that go out of scope are trimmed;
a store beyond the last slot fills the slots between with `top`s, but ends in the value that
is stored, and a constructor renames types without touching a `top`.

That every recorded frame has a property is shown once, for any property that survives the
ways in which frames are made from others (`Frame.Kept`, `Assembler.Records`).
-/

import ClassForge.Proofs.Kinds
import ClassForge.Proofs.Meets

namespace ClassForge

/-! ### Properties of all recorded frames -/

/-- A property of frames that every way to make a frame from others keeps. -/
structure Frame.Kept (P : Frame → Prop) : Prop where
  step {f g : Frame} {n : Nat} {i : Instruction} {types : OperandTypes} :
    f.step n i types = .ok g → P f → P g
  merge {f g m : Frame} : f.merge g = some m → P f → P g → P m
  killLocals {f : Frame} (first : Nat) : P f → P (f.killLocals first)
  generalize {f g : Frame} {type : FrameType} : f.generalizeTop type = .ok g → P f → P g

/-- Every frame that an assembler records has a property: on entry, at the current point, at
labels, and those that branches carry to them. -/
structure Assembler.Records (P : Frame → Prop) (a : Assembler) : Prop where
  entry : P a.entry
  current : ∀ f, a.current = some f → P f
  labels : ∀ state ∈ a.labels, ∀ f, state.frame = some f → P f
  placed : ∀ (n : Nat) (f : Frame), a.placedFrames[n]? = some f → P f
  branches : ∀ i ∈ a.instructions, i.opcode.effect.isBranch = true →
    ∀ target f, i.referent = .jump target f → P f

namespace Frame.Kept

variable {P : Frame → Prop} (hP : Frame.Kept P)
include hP

/-- What arrives at a label has a property that is kept. -/
theorem restrict {f : Frame} (hf : P f) (state : LabelState) : P (state.restrict f) := by
  unfold LabelState.restrict
  split
  · exact hf
  · exact hP.killLocals _ hf

theorem joins {x y z : Option Frame} (h : Joins x y z) (hx : ∀ f, x = some f → P f)
    (hy : ∀ f, y = some f → P f) : ∀ f, z = some f → P f := by
  intro f hf
  cases h with
  | right => exact hy f hf
  | left => exact hx f hf
  | both hmerge =>
    cases hf
    exact hP.merge hmerge (hx _ rfl) (hy _ rfl)

end Frame.Kept

namespace Assembler.Records

variable {P : Frame → Prop} {a b : Assembler}

/-- At the start the only frame is the one on entry. -/
theorem start {entry : Frame} (h : P entry) (pool : ConstantPool) :
    (Assembler.start pool entry).Records P where
  entry := h
  current f hf := by
    cases hf
    exact h
  labels state hstate := absurd hstate (Array.not_mem_empty state)
  placed n f hf := by
    rw [Assembler.start, Std.TreeMap.getElem?_emptyc] at hf
    cases hf
  branches i hi := absurd hi (Array.not_mem_empty i)

/-- A branch records the frame that it carries, behind it and at its label. -/
theorem pushJump (ha : a.Records P) {op : Opcode} {target : Label} {next arriving : Frame}
    {new : LabelState} (hnext : P next) (harriving : P arriving)
    (hnew : ∀ f, new.frame = some f → P f) :
    (Assembler.pushJump op target next arriving
      { a with
        current := some next
        labels := a.labels.setIfInBounds target.index new }).Records P where
  entry := ha.entry
  current f hf := by
    unfold Assembler.pushJump at hf
    dsimp only at hf
    split at hf
    · cases hf
    · cases hf
      exact hnext
  labels state hstate f hf := by
    rcases Array.mem_or_eq_of_mem_setIfInBounds hstate with hstate | rfl
    · exact ha.labels state hstate f hf
    · exact hnew f hf
  placed := ha.placed
  branches i hi hbranch l f hf := by
    rcases Array.mem_push.1 hi with hi | rfl
    · exact ha.branches i hi hbranch l f hf
    · cases hf
      exact harriving

/-- A label that is placed records the frame there. -/
theorem settle (ha : a.Records P) {label : Label} {state : LabelState} {frame : Option Frame}
    (hframe : ∀ f, frame = some f → P f) : (a.settle label state frame).Records P where
  entry := ha.entry
  current := hframe
  labels s hs f hf := by
    rcases Array.mem_or_eq_of_mem_setIfInBounds hs with hs | rfl
    · exact ha.labels s hs f hf
    · exact hframe f hf
  placed n f hf := by
    rw [getElem?_placedFrames_settle] at hf
    split at hf
    · rcases Option.or_eq_some_iff.1 hf with hf | ⟨-, hf⟩
      · exact hframe f hf
      · exact ha.placed n f hf
    · exact ha.placed n f hf
  branches := ha.branches

/-- **Every operation records frames with the property only**, if the property is kept by
all ways to make a frame from others. So an invariant of frames is shown without looking at
operations. -/
theorem advances (hP : Frame.Kept P) {o : Operation} (ha : a.Records P) (h : Advances o a b) :
    b.Records P := by
  cases h with
  | label limit =>
    refine ⟨ha.entry, ha.current, fun state hstate f hf => ?_, ha.placed, ha.branches⟩
    rcases Array.mem_push.1 hstate with hstate | rfl
    · exact ha.labels state hstate f hf
    · cases hf
  | constant => exact ⟨ha.entry, ha.current, ha.labels, ha.placed, ha.branches⟩
  | drop => exact ha
  | push hc hi hs =>
    refine ⟨ha.entry, fun f hf => ?_, ha.labels, ha.placed, fun j hj hbranch => ?_⟩
    · dsimp only at hf
      split at hf
      · cases hf
      · cases hf
        exact hP.step hs (ha.current _ hc)
    · rcases Array.mem_push.1 hj with hj | rfl
      · exact ha.branches j hj hbranch
      · rw [hi] at hbranch
        cases hbranch
  | @jumpBack _ _ _ _ _ _ state _ hc hs hl =>
    have hnext := hP.step hs (ha.current _ hc)
    exact ha.pushJump hnext (hP.restrict hnext state) (ha.labels state (Array.mem_of_getElem? hl))
  | @jumpAhead _ _ _ _ _ _ state hc hs hl _ hj =>
    have hnext := hP.step hs (ha.current _ hc)
    have harriving := hP.restrict hnext state
    refine ha.pushJump hnext harriving (hP.joins hj ?_ ?_)
    · exact ha.labels state (Array.mem_of_getElem? hl)
    · rintro f ⟨⟩
      exact harriving
  | @place _ _ state _ hl _ hj =>
    refine ha.settle (hP.joins hj (fun f hf => ?_) (ha.labels state (Array.mem_of_getElem? hl)))
    obtain ⟨above, habove, rfl⟩ := Option.map_eq_some_iff.1 hf
    exact hP.restrict (ha.current above habove) state
  | killLocals first =>
    refine ⟨ha.entry, fun f hf => ?_, ha.labels, ha.placed, ha.branches⟩
    obtain ⟨g, hg, rfl⟩ := Option.map_eq_some_iff.1 hf
    exact hP.killLocals first (ha.current g hg)
  | noteLocals => exact ⟨ha.entry, ha.current, ha.labels, ha.placed, ha.branches⟩
  | generalize hc hg =>
    refine ⟨ha.entry, fun f hf => ?_, ha.labels, ha.placed, ha.branches⟩
    cases hf
    exact hP.generalize hg (ha.current _ hc)

/-- **A property of the entry frame that is kept holds of all frames of a run.** -/
theorem runAll (hP : Frame.Kept P) {os : List Operation} {pool : ConstantPool} {entry : Frame}
    (hentry : P entry) (hrun : Operation.runAll os (.start pool entry) = .ok () a) :
    a.Records P :=
  Operation.runAll_induct hrun (.start hentry pool) fun _ _ _ _ h ha => ha.advances hP h

end Assembler.Records

/-! ### Trimmed locals -/

namespace Frame

/-- What is of some kind is known. -/
theorem ne_top_of_hasKind {t : FrameType} {kind : ValueKind} (h : hasKind t kind = true) :
    t ≠ .top := by
  rintro rfl
  cases kind <;> cases h

/-- **A store of something known leaves trimmed locals trimmed** -/
theorem getLast?_setLocal {locals : List FrameType} {slot : Nat} {t : FrameType}
    (hlocals : locals.getLast? ≠ some .top) (ht : t ≠ .top) :
    (setLocal locals slot t).getLast? ≠ some .top := by
  rw [List.getLast?_eq_getElem?] at hlocals ⊢
  rw [length_setLocal, getElem?_setLocal]
  split
  · exact fun h => ht (Option.some.inj h)
  · -- the slot is not the last one, so there was one behind it
    have hlength : max locals.length (slot + 1) = locals.length := by omega
    rw [hlength, if_pos (by omega)]
    exact hlocals

/-- A constructor makes nothing unknown. -/
theorem constructed_eq_top {receiver t : FrameType} {type : RefType}
    (h : constructed receiver (.object type) t = .top) : t = .top := by
  unfold constructed at h
  split at h
  · cases h
  · exact h

/-- **Every instruction leaves trimmed locals trimmed.** -/
theorem Trimmed.step {f g : Frame} {n : Nat} {i : Instruction} {types : OperandTypes}
    (h : f.step n i types = .ok g) (hf : f.Trimmed) : g.Trimmed := by
  cases effects_of_step h with
  | work => exact hf
  | store hi hslot hstack =>
    exact getLast?_setLocal hf (ne_top_of_hasKind (hasKind_stored h hi hstack))
  | construct =>
    intro hlast
    rw [List.getLast?_map] at hlast
    obtain ⟨t, ht, htop⟩ := Option.map_eq_some_iff.1 hlast
    exact hf (ht.trans (congrArg some (constructed_eq_top htop)))

/-- A more general type on the stack leaves the locals. -/
theorem Trimmed.generalizeTop {f g : Frame} {type : FrameType}
    (h : f.generalizeTop type = .ok g) (hf : f.Trimmed) : g.Trimmed := by
  unfold Frame.generalizeTop at h
  split at h
  · cases h
  · split at h
    · cases h
    · split at h <;> cases h
      exact hf

/-- **Every way to make a frame from others keeps locals trimmed.** -/
theorem trimmed_kept : Kept Trimmed where
  step := .step
  merge h _ _ := .of_merge h
  killLocals _ _ := getLast?_trim _
  generalize := .generalizeTop

end Frame

/-- **No recorded frame ends in a `top`.**  Take any entry frame that does not, and any
operations that all succeed.  Then neither the frame at the current point, nor that of any
label, nor any that a branch carries ends in a `top`; and when the body can be finished, no
frame of the body does. -/
theorem recorded_trimmed {os : List Operation} {pool : ConstantPool} {entry : Frame}
    {a : Assembler} (hentry : entry.Trimmed)
    (hrun : Operation.runAll os (.start pool entry) = .ok () a) :
    (∀ f, a.current = some f → f.Trimmed) ∧
    (∀ state ∈ a.labels, ∀ f, state.frame = some f → f.Trimmed) ∧
    (∀ (n : Nat) (f : Frame), a.placedFrames[n]? = some f → f.Trimmed) ∧
    (∀ i ∈ a.instructions, i.opcode.effect.isBranch = true →
      ∀ target f, i.referent = .jump target f → f.Trimmed) ∧
    ∀ b, a.finish = .ok b → b.entry.Trimmed ∧
      (∀ (n : Nat) (f : Frame), b.frames[n]? = some f → f.Trimmed) ∧
      ∀ i ∈ b.instructions, i.opcode.effect.isBranch = true →
        ∀ target f, i.referent = .jump target f → f.Trimmed := by
  have ha := Assembler.Records.runAll Frame.trimmed_kept hentry hrun
  refine ⟨ha.current, ha.labels, ha.placed, ha.branches, fun b hb => ?_⟩
  obtain ⟨-, hframes, hinstructions, hbody, -⟩ := Assembler.finish_eq_ok hb
  rw [hinstructions, hbody]
  exact ⟨ha.entry, fun n f hf => ha.placed n f (hframes.frames n f hf).1, ha.branches⟩

/-- A float is stored behind two unused slots, a branch carries it to a label, and the code
above the label has lost it. -/
def slotsSkipped : List Operation :=
  [.label none, .push (.simple .fconst0) .none, .push (.store .float 3) .none,
    .push (.simple .iconst0) .none, .branch .ifeq ⟨0⟩, .killLocals 3, .place ⟨0⟩,
    .push (.simple .returnVoid) .none]

/-- A store beyond the last slot leaves two unknown slots in between, and the frame at the
label, where another edge comes in, is cut back to what is known. -/
theorem slotsSkipped_trimmed :
    ∃ a b, Operation.runAll slotsSkipped (.start .empty ⟨[.integer], []⟩) = .ok () a ∧
      a.finish = .ok b ∧ b.jumps = [(3, ⟨0⟩, ⟨[.integer, .top, .top, .float], []⟩)] ∧
      b.frames[4]? = some ⟨[.integer], []⟩ ∧
      ∀ (n : Nat) (f : Frame), b.frames[n]? = some f → f.Trimmed := by
  have hevaluated : (outcome? (Operation.runAll slotsSkipped
      (.start .empty ⟨[.integer], []⟩))).any (fun r => r.2.finish.toOption.any fun b =>
        decide (b.jumps = [(3, ⟨0⟩, ⟨[.integer, .top, .top, .float], []⟩)] ∧
          b.frames[4]? = some ⟨[.integer], []⟩)) = true := by decide +kernel
  obtain ⟨_, a, hrun, ha⟩ := exists_of_outcome hevaluated
  obtain ⟨b, hb, hfacts⟩ := exists_of_toOption ha
  obtain ⟨hjumps, hframe⟩ := of_decide_eq_true hfacts
  obtain ⟨-, -, -, -, hbody⟩ := recorded_trimmed (by decide) hrun
  exact ⟨a, b, hrun, hb, hjumps, hframe, (hbody b hb).2.1⟩

end ClassForge
