/-
# How heavy frames can get

The length of a stack map is written in four bytes, and nothing looks at it when code is
assembled.  It need not: a frame with many types has to be made by many instructions, and a
body has 65535 bytes at most.

A stored type takes one byte, and two more if it names a class or the place where an object
was made.  `Frame.weight` counts those two bytes for each local that has or can come to have
such a type, and three bytes for each value on the stack:

| operation | weight |
| --- | --- |
| an instruction that is no branch | at most six more |
| a branch | no more |
| a label, the end of a block, a more general type | no more |

A store moves a value from the stack to a local, which never makes a frame heavier, and two
more values are the most that an instruction leaves.  So a frame of a finished body is at most
as heavy as the frame on entry, and six for each instruction that is no branch
(`Body.weight_frames_le`).
-/

import ClassForge.Proofs.Compression
import ClassForge.Proofs.Storage
import ClassForge.Proofs.Trimming

namespace ClassForge

/-- Is the type stored with two bytes more than its tag, or can it become one that is?  What
is known of an object under construction changes when its constructor was called. -/
def VerificationType.isHeavy {C U : Type} : VerificationType C U → Bool
  | .top | .integer | .float => false
  | _ => true

/-- The bytes that the types of a frame take beside one byte for each local. -/
def Frame.weight (f : Frame) : Nat :=
  2 * f.locals.countP VerificationType.isHeavy + 3 * f.stack.length

/-- The number of instructions that are no branches. -/
def Instruction.work (is : List Instruction) : Nat :=
  is.countP fun i => !i.opcode.effect.isBranch

namespace Frame

variable {f g m : Frame}

/-! ### Ways to make a frame from others -/

theorem countP_trim_le (ts : List FrameType) :
    (trim ts).countP VerificationType.isHeavy ≤ ts.countP VerificationType.isHeavy :=
  (isPrefix_trim ts).sublist.countP_le

/-- Locals that go out of scope make a frame lighter. -/
theorem weight_killLocals_le (f : Frame) (first : Nat) :
    (f.killLocals first).weight ≤ f.weight := by
  have htrim := countP_trim_le (f.locals.take first)
  have htake := (List.take_sublist first f.locals).countP_le (p := VerificationType.isHeavy)
  unfold weight killLocals
  dsimp only
  omega

theorem weight_restrict_le (f : Frame) (state : LabelState) :
    (state.restrict f).weight ≤ f.weight := by
  unfold LabelState.restrict
  split
  · exact Nat.le_refl _
  · exact weight_killLocals_le f _

theorem isHeavy_of_meet {t u : FrameType} (h : (meet t u).isHeavy = true) :
    t.isHeavy = true := by
  unfold meet at h
  split at h
  · exact h
  · cases h

/-- What two edges agree on has no more heavy locals than the first of them. -/
theorem countP_zipWith_meet_le (ts us : List FrameType) :
    (List.zipWith meet ts us).countP VerificationType.isHeavy ≤
      ts.countP VerificationType.isHeavy := by
  induction ts generalizing us with
  | nil => exact Nat.le_refl _
  | cons t ts ih =>
    cases us with
    | nil => exact Nat.zero_le _
    | cons u us =>
      have hrest := ih us
      rw [List.zipWith_cons_cons, List.countP_cons, List.countP_cons]
      split
      · rename_i hmeet
        rw [if_pos (isHeavy_of_meet hmeet)]
        omega
      · omega

/-- Where two edges meet, the frame is no heavier than on the first. -/
theorem weight_merge_le (h : f.merge g = some m) : m.weight ≤ f.weight := by
  unfold merge at h
  split at h
  · cases h
    have htrim := countP_trim_le (List.zipWith meet f.locals g.locals)
    have hmeet := countP_zipWith_meet_le f.locals g.locals
    unfold weight
    dsimp only
    omega
  · cases h

/-- A more general type on top of the stack takes the room of the other. -/
theorem weight_generalizeTop {type : FrameType} (h : f.generalizeTop type = .ok g) :
    g.weight = f.weight := by
  unfold generalizeTop at h
  split at h
  · cases h
  rename_i specific rest hstack
  repeat' split at h
  · cases h
  · cases h
  · cases h
    unfold weight
    rw [hstack]
    rfl

/-! ### Instructions -/

/-- A store makes one local heavy at most: the slots that it adds hold nothing. -/
theorem countP_setLocal_le (ts : List FrameType) (slot : Nat) (t : FrameType) :
    (setLocal ts slot t).countP VerificationType.isHeavy ≤
      ts.countP VerificationType.isHeavy + 1 := by
  have hfilled : (ts ++ List.replicate (slot + 1 - ts.length) VerificationType.top).countP
      VerificationType.isHeavy = ts.countP VerificationType.isHeavy := by
    rw [List.countP_append, List.countP_replicate]
    rfl
  have hslot :
      slot < (ts ++ List.replicate (slot + 1 - ts.length) VerificationType.top).length := by
    rw [List.length_append, List.length_replicate]
    omega
  unfold setLocal
  rw [List.countP_set hslot, hfilled]
  split <;> split <;> omega

/-- A constructor makes no local heavy: what it changes is heavy before and after. -/
theorem countP_constructed {receiver : FrameType}
    (h : receiver = .uninitializedThis ∨ ∃ origin, receiver = .uninitialized origin)
    (type : RefType) (ts : List FrameType) :
    (ts.map (constructed receiver (.object type))).countP VerificationType.isHeavy =
      ts.countP VerificationType.isHeavy := by
  have hreceiver : receiver.isHeavy = true := by
    rcases h with rfl | ⟨origin, rfl⟩ <;> rfl
  rw [List.countP_map]
  refine List.countP_congr fun t _ => ?_
  unfold constructed
  rw [Function.comp_apply]
  split
  · rename_i heq
    rw [heq, hreceiver]
    rfl
  · exact Iff.rfl

/-- **No instruction makes a frame heavier by more than two values.** A value on the stack
weighs three, and what an instruction pushes beyond what it pops are two values at most. -/
theorem weight_step_le {n : Nat} {i : Instruction} {types : OperandTypes}
    (h : f.step n i types = .ok g) : g.weight ≤ f.weight + 6 := by
  cases effects_of_step h with
  | work hi htaken hgiven hf =>
    have hgives : i.gives types ≤ i.takes types + 2 := Effect.gives_le _ _ _
    unfold weight
    dsimp only
    rw [hf, List.length_append, List.length_append]
    omega
  | store hi hslot hf =>
    -- two bytes more for the local, three less for the value
    rename_i slot value rest
    have hlocals := countP_setLocal_le f.locals slot.toNat (types.stored value)
    unfold weight
    dsimp only
    rw [hf, List.length_cons]
    omega
  | construct hi htypes hf hreceiver =>
    unfold weight
    dsimp only
    rw [hf, countP_constructed hreceiver, List.length_map, List.length_append, List.length_cons]
    omega

/-- A branch takes values off the stack, and does nothing else. -/
theorem weight_branch_le {n : Nat} {op : Opcode} {target : Label} {arriving : Frame}
    (hop : op.effect.isBranch = true)
    (h : f.step n (.branch op target arriving) .none = .ok g) : g.weight ≤ f.weight := by
  obtain ⟨hstore, hnone⟩ := Effect.gives_of_isBranch hop
  cases effects_of_step h with
  | work _ _ hgiven hf =>
    have hgives : Instruction.gives (.branch op target arriving) .none = 0 := hnone
    unfold weight
    dsimp only
    rw [hf, List.length_append, List.length_append]
    omega
  | store hi =>
    rw [show op.effect = _ from hi] at hstore
    cases hstore
  | construct _ htypes => cases htypes

end Frame

/-! ### Code that is assembled -/

namespace Assembler

variable {a b : Assembler} {start : Nat}

/-- Frames with a property have every weaker property. -/
theorem Records.imp {P Q : Frame → Prop} (ha : a.Records P) (h : ∀ f, P f → Q f) :
    a.Records Q where
  entry := h _ ha.entry
  current f hf := h f (ha.current f hf)
  labels state hstate f hf := h f (ha.labels state hstate f hf)
  placed n f hf := h f (ha.placed n f hf)
  branches i hi hbranch target f hf := h f (ha.branches i hi hbranch target f hf)

/-- No frame that is recorded is heavier than one of the given weight can have become. -/
def Weighed (start : Nat) (a : Assembler) : Prop :=
  a.Records fun f => f.weight ≤ start + 6 * Instruction.work a.instructions.toList

/-- What edges agree on is no heavier than they are. -/
theorem weight_joins_le {x y z : Option Frame} {bound : Nat} (h : Joins x y z)
    (hx : ∀ f, x = some f → f.weight ≤ bound) (hy : ∀ f, y = some f → f.weight ≤ bound) :
    ∀ f, z = some f → f.weight ≤ bound := by
  intro f hf
  cases h with
  | right => exact hy f hf
  | left => exact hx f hf
  | both hmerge =>
    cases hf
    exact Nat.le_trans (Frame.weight_merge_le hmerge) (hx _ rfl)

/-- A branch is no work: what is recorded with it is not heavier than the frame before it. -/
theorem Weighed.pushJump (ha : a.Weighed start) {op : Opcode} {target : Label} {f next : Frame}
    {state new : LabelState} (hop : op.effect.isBranch = true) (hc : a.current = some f)
    (hs : f.step a.instructions.size (.branch op target .empty) .none = .ok next)
    (hnew : ∀ bound, next.weight ≤ bound →
      (∀ g, state.frame = some g → g.weight ≤ bound) → ∀ g, new.frame = some g → g.weight ≤ bound)
    (hstate : state ∈ a.labels) :
    (Assembler.pushJump op target next (state.restrict next)
      { a with
        current := some next
        labels := a.labels.setIfInBounds target.index new }).Weighed start := by
  have hwork : Instruction.work
      (a.instructions.push (.branch op target (state.restrict next))).toList =
        Instruction.work a.instructions.toList := by
    unfold Instruction.work
    rw [Array.toList_push, List.countP_append, List.countP_singleton,
      show (Instruction.branch op target (state.restrict next)).opcode.effect.isBranch = true from
        hop]
    rfl
  have hnext : next.weight ≤ start + 6 * Instruction.work a.instructions.toList :=
    Nat.le_trans (Frame.weight_branch_le hop hs) (ha.current f hc)
  refine Records.imp (Records.pushJump ha hnext
    (Nat.le_trans (next.weight_restrict_le state) hnext) (hnew _ hnext (ha.labels state hstate)))
    fun g hg => ?_
  rwa [← hwork] at hg

/-- **Every operation pays for the weight that it adds**: only instructions that are no
branches add any. -/
theorem Weighed.advances {o : Operation} (ho : o.hasBranchOpcode = true) (ha : a.Weighed start)
    (h : Advances o a b) : b.Weighed start := by
  cases h with
  | label limit =>
    refine ⟨ha.entry, ha.current, fun state hstate f hf => ?_, ha.placed, ha.branches⟩
    rcases Array.mem_push.1 hstate with hstate | rfl
    · exact ha.labels state hstate f hf
    · cases hf
  | constant => exact ⟨ha.entry, ha.current, ha.labels, ha.placed, ha.branches⟩
  | drop => exact ha
  | push hc hi hs =>
    rename_i i types f next
    have hwork : Instruction.work (a.instructions.push i).toList =
        Instruction.work a.instructions.toList + 1 := by
      unfold Instruction.work
      rw [Array.toList_push, List.countP_append, List.countP_singleton, hi]
      rfl
    have hold := ha.imp (Q := fun f => f.weight ≤
      start + 6 * Instruction.work (a.instructions.push i).toList) fun f hf => by omega
    refine ⟨hold.entry, fun g hg => ?_, hold.labels, hold.placed, fun j hj hbranch => ?_⟩
    · dsimp only at hg
      split at hg
      · cases hg
      · cases hg
        have hbefore := ha.current f hc
        have hstep := Frame.weight_step_le hs
        dsimp only at hbefore ⊢
        omega
    · rcases Array.mem_push.1 hj with hj | rfl
      · exact hold.branches j hj hbranch
      · rw [hi] at hbranch
        cases hbranch
  | jumpBack hc hs hl hp ht haccepts =>
    exact ha.pushJump ho hc hs (fun _ _ hold => hold) (Array.mem_of_getElem? hl)
  | jumpAhead hc hs hl hp hj =>
    rename_i op target f next there state
    refine ha.pushJump ho hc hs (fun bound hnext hold => ?_) (Array.mem_of_getElem? hl)
    refine weight_joins_le hj hold ?_
    rintro g ⟨⟩
    exact Nat.le_trans (next.weight_restrict_le state) hnext
  | place hl hp hj =>
    rename_i label state frame
    refine ha.settle (weight_joins_le hj (fun f hf => ?_)
      (ha.labels state (Array.mem_of_getElem? hl)))
    obtain ⟨above, habove, rfl⟩ := Option.map_eq_some_iff.1 hf
    exact Nat.le_trans (above.weight_restrict_le state) (ha.current above habove)
  | killLocals first =>
    refine ⟨ha.entry, fun f hf => ?_, ha.labels, ha.placed, ha.branches⟩
    obtain ⟨g, hg, rfl⟩ := Option.map_eq_some_iff.1 hf
    exact Nat.le_trans (g.weight_killLocals_le first) (ha.current g hg)
  | noteLocals => exact ⟨ha.entry, ha.current, ha.labels, ha.placed, ha.branches⟩
  | generalize hc hg =>
    refine ⟨ha.entry, fun f hf => ?_, ha.labels, ha.placed, ha.branches⟩
    cases hf
    exact Nat.le_trans (Nat.le_of_eq (Frame.weight_generalizeTop hg)) (ha.current _ hc)

end Assembler

/-- **No frame of a finished body is heavier than its instructions can make it**: it has the
weight of the frame on entry, and six for each instruction that is no branch. -/
theorem Body.weight_frames_le {pool : ConstantPool} {entry : Frame} {a : Assembler} {b : Body}
    (h : Built (Assembler.start pool entry) a) (hfinish : a.finish = .ok b) {n : Nat} {f : Frame}
    (hf : b.frames[n]? = some f) :
    f.weight ≤ entry.weight + 6 * Instruction.work b.instructions.toList := by
  have hweighed : a.Weighed entry.weight := by
    refine h.induct ?_ fun o x y ho hstep hx => hx.advances ho.hasBranchOpcode hstep
    exact Assembler.Records.start (Nat.le_add_right _ _) pool
  obtain ⟨-, hplacement, hinstructions, -⟩ := Assembler.finish_eq_ok hfinish
  rw [hinstructions]
  exact hweighed.placed n f (hplacement.frames n f hf).1

/-! ### The frame on entry -/

/-- A reference type is spelled with two characters at least. -/
theorem RefType.two_le_length_chars (t : RefType) : 2 ≤ t.chars.length := by
  cases t with
  | object n =>
    rw [RefType.chars, BinaryName.chars, List.length_append, List.length_cons,
      List.length_singleton]
    omega
  | array extra element =>
    have helement : 1 ≤ element.chars.length := by
      cases element with
      | base type => exact Nat.le_refl 1
      | object n =>
        rw [ElementType.chars, BinaryName.chars, List.length_append, List.length_singleton]
        exact Nat.le_add_left _ _
    rw [RefType.chars, List.length_append, List.length_replicate]
    omega

/-- Parameters that are heavy have long descriptors. -/
theorem FieldType.countP_verification_le (types : List FieldType) :
    2 * (types.map (verification (U := Nat))).countP VerificationType.isHeavy ≤
      (types.flatMap chars).length := by
  induction types with
  | nil => exact Nat.le_refl 0
  | cons t types ih =>
    rw [List.map_cons, List.countP_cons, List.flatMap_cons, List.length_append]
    cases t with
    | base type =>
      have hlight : (verification (U := Nat) (.base type)).isHeavy = false := by
        cases type <;> rfl
      rw [hlight, if_neg Bool.false_ne_true]
      omega
    | ref type =>
      have htwo : 2 ≤ (FieldType.ref type).chars.length := type.two_le_length_chars
      split <;> omega

namespace ModifiedUtf8

theorem length_unitBytes_pos (u : Nat) : 0 < (unitBytes u).length := by
  unfold unitBytes
  repeat' split
  all_goals exact Nat.zero_lt_succ _

theorem length_charUnits_pos (c : Char) : 0 < ((charUnits c).flatMap unitBytes).length := by
  unfold charUnits
  split
  all_goals
    rw [List.flatMap_cons, List.length_append]
    exact Nat.lt_of_lt_of_le (length_unitBytes_pos _) (Nat.le_add_right _ _)

/-- A text takes as many bytes as it has characters, at least. -/
theorem length_le_encode (cs : List Char) :
    cs.length ≤ (encode (String.ofList cs)).length := by
  unfold encode
  rw [String.toList_ofList]
  induction cs with
  | nil => exact Nat.le_refl 0
  | cons c cs ih =>
    have hchar := length_charUnits_pos c
    rw [List.flatMap_cons, List.flatMap_append, List.length_append, List.length_cons]
    omega

end ModifiedUtf8

/-- **The frame on entry is no heavier than the text of the descriptor is long**: each
parameter that is heavy is spelled with two characters, and `this` with the brackets. -/
theorem Frame.weight_entry_le (this : RefType) (isStatic isConstructor : Bool)
    (d : MethodDescriptor) : (Frame.entry this isStatic isConstructor d.parameters).weight ≤
      (ModifiedUtf8.encode d.render).length := by
  have hparameters := FieldType.countP_verification_le d.parameters
  have htext := ModifiedUtf8.length_le_encode d.chars
  have hchars : 2 + (d.parameters.flatMap FieldType.chars).length ≤ d.chars.length := by
    rw [MethodDescriptor.chars, List.cons_append, List.length_cons, List.length_append,
      List.length_cons]
    omega
  have hthis : (if isConstructor then [.uninitializedThis] else if isStatic then []
      else [.object this] : List FrameType).countP VerificationType.isHeavy ≤ 1 := by
    split
    · exact Nat.le_refl 1
    · split
      · exact Nat.zero_le 1
      · exact Nat.le_refl 1
  unfold Frame.weight Frame.entry MethodDescriptor.render
  rw [List.countP_append, List.length_nil]
  omega

/-! ### Stored frames -/

theorem VerificationType.StoredAs.length_write_le {q : ConstantPool} {offsetOf : Nat → UInt16}
    {t : FrameType} {s : StoredType} (h : t.StoredAs q offsetOf s) :
    (StoredType.write s).length ≤ 1 + 2 * [t].countP isHeavy := by
  cases h with
  | object => exact Nat.le_refl 3
  | uninitialized => exact Nat.le_refl 3
  | _ => decide

/-- Locals take a byte each, and two more where they are heavy. -/
theorem length_write_locals_le {q : ConstantPool} {offsetOf : Nat → UInt16}
    {ts : List FrameType} {ss : List StoredType}
    (h : List.Forall₂ (VerificationType.StoredAs q offsetOf) ts ss) :
    (ss.flatMap StoredType.write).length ≤
      ts.length + 2 * ts.countP VerificationType.isHeavy := by
  induction h with
  | nil => exact Nat.zero_le _
  | cons hfirst _ ih =>
    have hone := hfirst.length_write_le
    rw [List.countP_singleton] at hone
    rw [List.flatMap_cons, List.length_append, List.length_cons, List.countP_cons]
    omega

/-- **A frame is stored in its weight** -/
theorem Frame.StoredAs.length_write_le {q : ConstantPool} {offsetOf : Nat → UInt16} {f : Frame}
    {s : StoredFrame} (h : f.StoredAs q offsetOf s) :
    (s.locals.flatMap StoredType.write).length + (s.stack.flatMap StoredType.write).length ≤
      f.locals.length + f.weight := by
  have hlocals := length_write_locals_le h.locals
  have hstack := StackMap.length_types_le s.stack
  rw [← h.stack.length_eq, List.length_reverse] at hstack
  unfold Frame.weight
  omega

end ClassForge
