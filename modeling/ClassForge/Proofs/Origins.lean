/-
# Where unconstructed objects come from

Specification, section 10.6, *uninitialized* verification types.

A frame names an object whose constructor has not run by the number of the `new`
that made it, and a stack map by the offset of that instruction.  Nothing but a
`new` brings such a name into a frame, and the name is that of the instruction just
added.  So the names in a frame are older than the frame:

| frame | the `new`s that it names |
| --- | --- |
| the current one, and that of a label still to be placed | among the instructions so far |
| that of a label that is placed | before the label |
| a recorded one | before the instruction that it is recorded for |

This is `Assembler.Rooted`, which every operation keeps if the types given to it
name no such object (`Rooted.advances`).  Offsets increase with the numbers of the
instructions, so the same holds of the bytes of a method (`Body.origins_precede`).
-/

import ClassForge.Proofs.Recovery
import ClassForge.Proofs.StackEffect

namespace ClassForge

/-! ### The objects that a frame names -/

namespace Frame

/-- Each unconstructed object of the frame was made by an instruction whose number has
the given property. -/
def Origins (f : Frame) (p : Nat → Prop) : Prop :=
  ∀ id, .uninitialized id ∈ f.locals ++ f.stack → p id

variable {f g : Frame} {p : Nat → Prop}

theorem Origins.mono {q : Nat → Prop} (h : f.Origins p) (hpq : ∀ id, p id → q id) : f.Origins q :=
  fun id hid => hpq id (h id hid)

theorem origins_of_known (h : ∀ t ∈ f.locals ++ f.stack, t.isKnown = true) : f.Origins p := by
  intro id hid
  have hknown := h _ hid
  cases hknown

/-- A frame names no objects but those of the frames that it accepts. -/
theorem Origins.of_accepts (h : f.Origins p) (hgf : g.accepts f = true) : g.Origins p := by
  obtain ⟨hstack, hlocals⟩ := (accepts_iff g f).1 hgf
  intro id hid
  rcases List.mem_append.1 hid with hid | hid
  · obtain ⟨n, hn⟩ := List.getElem?_of_mem hid
    have hheld := (hlocals n _ hn).resolve_left (by simp)
    exact h id (List.mem_append_left _ (List.mem_of_getElem? hheld))
  · exact h id (List.mem_append_right _ (hstack ▸ hid))

/-- A more general type that names no object under construction takes the place of another,
so no name is added. -/
theorem Origins.generalizeTop {type : FrameType} (hf : f.Origins p) (htype : type.isKnown = true)
    (h : f.generalizeTop type = .ok g) : g.Origins p := by
  unfold Frame.generalizeTop at h
  split at h
  · cases h
  rename_i specific rest hstack
  repeat' split at h
  · cases h
  · cases h
  · cases h
    intro id hid
    simp only [List.mem_append, List.mem_cons] at hid
    rcases hid with hid | hid | hid
    · exact hf id (List.mem_append_left _ hid)
    · rw [← hid] at htype
      cases htype
    · exact hf id (List.mem_append_right _ (hstack ▸ List.mem_cons_of_mem _ hid))

theorem mem_of_constructed {receiver : FrameType} {type : RefType} {ts : List FrameType} {id : Nat}
    (h : .uninitialized id ∈ ts.map (constructed receiver (.object type))) :
    .uninitialized id ∈ ts := by
  obtain ⟨t, ht, heq⟩ := List.mem_map.1 h
  unfold constructed at heq
  split at heq
  · cases heq
  · exact heq ▸ ht

theorem mem_of_setLocal {ts : List FrameType} {slot : Nat} {new t : FrameType}
    (h : t ∈ setLocal ts slot new) : t = new ∨ t = .top ∨ t ∈ ts := by
  unfold setLocal at h
  rcases List.mem_or_eq_of_mem_set h with h | rfl
  · rcases List.mem_append.1 h with h | h
    · exact .inr (.inr h)
    · exact .inr (.inl (List.eq_of_mem_replicate h))
  · exact .inl rfl

/-- **Only a `new` brings an object that is not yet constructed**, under its own number. All
other instructions pass on those that are in the frame, or construct them. -/
theorem Origins.step {n : Nat} {i : Instruction} {types : OperandTypes} (hf : f.Origins p)
    (htypes : ∀ t ∈ types.types, t.isKnown = true)
    (hnew : i.opcode.effect = .newObject → p n) (h : f.step n i types = .ok g) : g.Origins p := by
  have hlocal {id : Nat} (h : .uninitialized id ∈ f.locals) : p id :=
    hf id (List.mem_append_left _ h)
  have hstack {id : Nat} (h : .uninitialized id ∈ f.stack) : p id :=
    hf id (List.mem_append_right _ h)
  intro id hid
  cases effects_of_step h with
  | work hi htaken hgiven hS hsource =>
    rw [List.mem_append, List.mem_append] at hid
    rcases hid with hid | hid | hid
    · exact hlocal hid
    · cases hsource _ hid with
      | known hknown => cases hknown
      | taken ht => exact hstack (hS ▸ List.mem_append_left _ ht)
      | loaded hl => exact hlocal hl
      | given hg =>
        have hknown := htypes _ hg
        cases hknown
      | new heq hi =>
        cases heq
        exact hnew hi
    · exact hstack (hS ▸ List.mem_append_right _ hid)
  | store hi hslot hS =>
    rcases List.mem_append.1 hid with hid | hid
    · rcases mem_of_setLocal hid with hid | hid | hid
      · cases types with
        | value declared =>
          have hknown := htypes declared (List.mem_singleton_self declared)
          rw [OperandTypes.stored] at hid
          rw [← hid] at hknown
          cases hknown
        | _ => exact hstack (hS ▸ hid ▸ List.mem_cons_self)
      · cases hid
      · exact hlocal hid
    · exact hstack (hS ▸ List.mem_cons_of_mem _ hid)
  | construct hi htypes' hS hreceiver =>
    rcases List.mem_append.1 hid with hid | hid
    · exact hlocal (mem_of_constructed hid)
    · exact hstack (hS ▸ List.mem_append_right _ (List.mem_cons_of_mem _ (mem_of_constructed hid)))

end Frame

/-- What the edges agree on names no object that they do not. -/
theorem Joins.origins {x y z : Option Frame} {p : Nat → Prop} (h : Joins x y z)
    (hx : ∀ f, x = some f → f.Origins p) (hy : ∀ f, y = some f → f.Origins p) {f : Frame}
    (hf : z = some f) : f.Origins p := by
  cases h with
  | right => exact hy f hf
  | left => exact hx f hf
  | both hm =>
    cases hf
    exact (hx _ rfl).of_accepts (Frame.merge_accepts hm).1

/-- The types given to the operation are known: those beside an instruction, and what a
type is generalized to. -/
def Operation.isKnowing : Operation → Bool
  | .push _ types => types.types.all VerificationType.isKnown
  | .generalize type => type.isKnown
  | _ => true

/-! ### Every operation keeps the names in order -/

/-- The instruction with the given number is a `new`. -/
def IsNew (is : Array Instruction) (id : Nat) : Prop :=
  ∃ i, is[id]? = some i ∧ i.opcode = .newObject

theorem IsNew.lt_size {is : Array Instruction} {id : Nat} (h : IsNew is id) : id < is.size := by
  obtain ⟨i, hi, -⟩ := h
  exact (Array.getElem?_eq_some_iff.1 hi).1

theorem IsNew.push {is : Array Instruction} {id : Nat} (h : IsNew is id) (j : Instruction) :
    IsNew (is.push j) id := by
  obtain ⟨i, hi, hop⟩ := h
  exact ⟨i, Assembler.getElem?_push_of_some hi, hop⟩

theorem Opcode.eq_newObject {op : Opcode} (h : op.effect = .newObject) : op = .newObject := by
  cases op <;> first | rfl | cases h

namespace Assembler

/-- Every frame that is known names only `new`s that stand before it. -/
structure Rooted (a : Assembler) : Prop where
  current : ∀ f, a.current = some f → f.Origins (IsNew a.instructions)
  labels : ∀ state ∈ a.labels, ∀ f, state.frame = some f →
    f.Origins fun id => id < state.placed.getD a.instructions.size ∧ IsNew a.instructions id
  placed : ∀ (n : Nat) (f : Frame), a.placedFrames[n]? = some f →
    f.Origins fun id => id < n ∧ IsNew a.instructions id

theorem rooted_start (pool : ConstantPool) {entry : Frame}
    (h : ∀ t ∈ entry.locals ++ entry.stack, t.isKnown = true) : (start pool entry).Rooted where
  current f hf := by
    cases hf
    exact Frame.origins_of_known h
  labels state hstate := by simp [start] at hstate
  placed n f hf := by simp [start] at hf

variable {a b : Assembler}

/-- One more instruction keeps the names in the frames that are there.  The current
frame and the frame of one label may name it. -/
theorem Rooted.concat (ha : a.Rooted) {i : Instruction} {labels : Array LabelState}
    {current : Option Frame} {maxStack maxLocals : Nat}
    (hcurrent : ∀ f, current = some f → f.Origins (IsNew (a.instructions.push i)))
    (hlabels : ∀ state ∈ labels, state ∈ a.labels ∨ ∀ f, state.frame = some f →
      f.Origins fun id => id < state.placed.getD (a.instructions.size + 1) ∧
        IsNew (a.instructions.push i) id) :
    { a with instructions := a.instructions.push i
             labels, current, maxStack, maxLocals : Assembler }.Rooted := by
  refine ⟨hcurrent, fun state hstate f hf => ?_, fun n f hf => ?_⟩
  · rw [Array.size_push]
    rcases hlabels state hstate with hold | hnew
    · refine (ha.labels state hold f hf).mono fun id hid => ⟨?_, hid.2.push i⟩
      cases hp : state.placed with
      | none =>
        have hlt := hid.2.lt_size
        simp only [Option.getD_none]
        omega
      | some index =>
        rw [hp] at hid
        exact hid.1
    · exact hnew f hf
  · exact (ha.placed n f hf).mono fun id hid => ⟨hid.1, hid.2.push i⟩

theorem Rooted.step (ha : a.Rooted) {i j : Instruction} {types : OperandTypes} {f next : Frame}
    (hc : a.current = some f) (htypes : ∀ t ∈ types.types, t.isKnown = true)
    (hs : f.step a.instructions.size i types = .ok next) (hij : j.opcode = i.opcode) :
    next.Origins (IsNew (a.instructions.push j)) := by
  have hf : f.Origins (IsNew (a.instructions.push j)) :=
    (ha.current f hc).mono fun id hid => hid.push j
  refine hf.step htypes (fun hnew => ⟨j, Array.getElem?_push_size, ?_⟩) hs
  rw [hij]
  exact Opcode.eq_newObject hnew

/-- A branch carries the names of the frame behind it to its label. -/
theorem Rooted.pushJump (ha : a.Rooted) {op : Opcode} {target : Label} {next arriving : Frame}
    {new : LabelState}
    (hnext : next.Origins (IsNew (a.instructions.push (.branch op target arriving))))
    (hframe : ∀ g, new.frame = some g → g.Origins fun id =>
      id < new.placed.getD (a.instructions.size + 1) ∧
        IsNew (a.instructions.push (.branch op target arriving)) id) :
    (Assembler.pushJump op target next arriving
      { a with
        current := some next
        labels := a.labels.setIfInBounds target.index new }).Rooted := by
  refine ha.concat (fun f hf => ?_) fun state hstate => ?_
  · split at hf
    · cases hf
    · cases hf
      exact hnext
  · rcases Array.mem_or_eq_of_mem_setIfInBounds hstate with hstate | rfl
    · exact .inl hstate
    · exact .inr hframe

/-- **Every operation keeps the names in order.** A branch to a label that is placed changes
nothing there, so that no name gets to code before its `new`. -/
theorem Rooted.advances {o : Operation} (ha : a.Rooted) (ho : o.isKnowing = true)
    (h : Advances o a b) : b.Rooted := by
  cases h with
  | label limit =>
    refine ⟨ha.current, fun state hstate f hf => ?_, ha.placed⟩
    rcases Array.mem_push.1 hstate with hstate | rfl
    · exact ha.labels state hstate f hf
    · cases hf
  | constant => exact ⟨ha.current, ha.labels, ha.placed⟩
  | drop => exact ha
  | push hc hi hs =>
    rw [Operation.isKnowing, List.all_eq_true] at ho
    refine ha.concat (fun f hf => ?_) fun state hstate => .inl hstate
    split at hf
    · cases hf
    · cases hf
      exact ha.step hc ho hs rfl
  | jumpBack hc hs hl hp ht haccepts =>
    refine ha.pushJump (ha.step hc (fun t ht => absurd ht List.not_mem_nil) hs rfl) fun g hg => ?_
    rename_i state index
    refine (ha.labels _ (Array.mem_of_getElem? hl) g hg).mono fun id hid => ?_
    rw [hp] at hid ⊢
    exact ⟨hid.1, hid.2.push _⟩
  | jumpAhead hc hs hl hp hj =>
    rename_i op target f next there state
    have hnext : next.Origins
        (IsNew (a.instructions.push (.branch op target (state.restrict next)))) :=
      ha.step hc (fun t ht => absurd ht List.not_mem_nil) hs rfl
    refine ha.pushJump hnext fun g hg => ?_
    rw [hp]
    have hjoined : g.Origins (IsNew _) := hj.origins
      (fun f hf => (ha.labels _ (Array.mem_of_getElem? hl) f hf).mono fun id hid => hid.2.push _)
      (fun f hf => by cases hf; exact hnext.of_accepts (state.restrict_accepts next)) hg
    refine hjoined.mono fun id hid => ⟨?_, hid⟩
    have hlt := hid.lt_size
    rwa [Array.size_push] at hlt
  | place hl hp hj =>
    rename_i label state frame
    have hframe (f : Frame) (hf : frame = some f) : f.Origins (IsNew a.instructions) := by
      refine hj.origins (fun g hg => ?_) (fun g hg => ?_) hf
      · obtain ⟨above, habove, rfl⟩ := Option.map_eq_some_iff.1 hg
        exact (ha.current above habove).of_accepts (state.restrict_accepts above)
      · exact (ha.labels state (Array.mem_of_getElem? hl) g hg).mono fun id hid => hid.2
    refine ⟨hframe, fun s hs f hf => ?_, fun n f hf => ?_⟩
    · rcases Array.mem_or_eq_of_mem_setIfInBounds hs with hs | rfl
      · exact ha.labels s hs f hf
      · exact (hframe f hf).mono fun id hid => ⟨hid.lt_size, hid⟩
    · rw [getElem?_placedFrames_settle] at hf
      split at hf
      · rename_i hn
        cases frame with
        | none => exact ha.placed n f hf
        | some m =>
          cases hf
          exact (hframe f rfl).mono fun id hid => ⟨hn ▸ hid.lt_size, hid⟩
      · exact ha.placed n f hf
  | killLocals first =>
    refine ⟨fun f hf => ?_, ha.labels, ha.placed⟩
    obtain ⟨g, hg, rfl⟩ := Option.map_eq_some_iff.1 hf
    exact (ha.current g hg).of_accepts (g.killLocals_accepts first)
  | noteLocals count => exact ⟨ha.current, ha.labels, ha.placed⟩
  | generalize hc hg =>
    refine ⟨fun f hf => ?_, ha.labels, ha.placed⟩
    cases hf
    exact (ha.current _ hc).generalizeTop ho hg

end Assembler

/-- **Names stay in order along a run**: every frame that is known names only instructions
before it that make objects. No type that is given from outside may name one. -/
theorem rooted_of_runAll {pool : ConstantPool} {entry : Frame} {os : List Operation} {a : Assembler}
    (hentry : ∀ t ∈ entry.locals ++ entry.stack, t.isKnown = true)
    (hos : ∀ o ∈ os, o.isKnowing = true)
    (hrun : Operation.runAll os (Assembler.start pool entry) = .ok () a) : a.Rooted :=
  Operation.runAll_induct hrun (Assembler.rooted_start pool hentry)
    fun o ho _ _ hstep hx => hx.advances (hos o ho) hstep

/-! ### Finished and stored code -/

/-- A known type is stored alike, whatever the offsets are. -/
theorem VerificationType.StoredAs.of_known {q : ConstantPool} {offsetOf offsetOf' : Nat → UInt16}
    {t : FrameType} {s : StoredType} (h : t.StoredAs q offsetOf s) (ht : t.isKnown = true) :
    t.StoredAs q offsetOf' s := by
  cases h with
  | top => exact .top
  | integer => exact .integer
  | float => exact .float
  | null => exact .null
  | uninitializedThis => exact .uninitializedThis
  | object h => exact .object h
  | uninitialized => cases ht

/-- A frame without objects under construction is stored in the same way whatever the
offsets are. -/
theorem Frame.StoredAs.of_known {q : ConstantPool} {offsetOf offsetOf' : Nat → UInt16} {f : Frame}
    {s : StoredFrame} (h : f.StoredAs q offsetOf s)
    (hf : ∀ t ∈ f.locals ++ f.stack, t.isKnown = true) : f.StoredAs q offsetOf' s := by
  have hknown {ts : List FrameType} {us : List StoredType}
      (hstored : List.Forall₂ (VerificationType.StoredAs q offsetOf) ts us)
      (hts : ∀ t ∈ ts, t.isKnown = true) :
      List.Forall₂ (VerificationType.StoredAs q offsetOf') ts us := by
    induction hstored with
    | nil => exact .nil
    | cons ht _ ih =>
      exact .cons (ht.of_known (hts _ List.mem_cons_self)) (ih fun t hmem =>
        hts t (List.mem_cons_of_mem _ hmem))
  refine ⟨hknown h.locals fun t ht => hf t (List.mem_append_left _ ht), ?_⟩
  exact hknown h.stack fun t ht => hf t (List.mem_append_right _ (List.mem_reverse.1 ht))

/-- An unconstructed object of a stored frame is one of the frame, under its offset. -/
theorem Frame.StoredAs.exists_origin {q : ConstantPool} {offsetOf : Nat → UInt16} {f : Frame}
    {s : StoredFrame} (h : f.StoredAs q offsetOf s) {offset : UInt16}
    (hmem : .uninitialized offset ∈ s.locals ++ s.stack) :
    ∃ id, .uninitialized id ∈ f.locals ++ f.stack ∧ offset = offsetOf id := by
  have hexists {ts : List FrameType} {us : List StoredType}
      (hstored : List.Forall₂ (VerificationType.StoredAs q offsetOf) ts us)
      (hmem : .uninitialized offset ∈ us) :
      ∃ id, .uninitialized id ∈ ts ∧ offset = offsetOf id := by
    obtain ⟨t, ht, htype⟩ := exists_of_forall₂ hstored hmem
    cases htype with
    | uninitialized origin => exact ⟨origin, ht, rfl⟩
  rcases List.mem_append.1 hmem with hmem | hmem
  · obtain ⟨id, hid, hoffset⟩ := hexists h.locals hmem
    exact ⟨id, List.mem_append_left _ hid, hoffset⟩
  · obtain ⟨id, hid, hoffset⟩ := hexists h.stack hmem
    exact ⟨id, List.mem_append_right _ (List.mem_reverse.1 hid), hoffset⟩

namespace Body

/-- The frame of a stack map names only offsets before its own, and at each of them a
`new` starts. -/
def NamesNews (items : List CodeItem) (s : UInt16 × StoredFrame) : Prop :=
  ∀ origin, .uninitialized origin ∈ s.2.locals ++ s.2.stack →
    origin < s.1 ∧ ∃ item ∈ items, item.offset = origin.toNat ∧ item.opcode = .newObject

/-- The stored form of a frame whose names are in order. -/
theorem namesNews_of_origins {b r : Body} {length number : Nat} {items : List CodeItem}
    {q : ConstantPool} {f : Frame} {s : UInt16 × StoredFrame} (hr : b.Resolved r length)
    (hitems : b.ReadsBack items) (hnumber : number < b.instructions.size)
    (hword : s.1 = offsetWord r length number) (hstored : f.StoredAs q r.originOffset s.2)
    (hf : f.Origins fun id => id < number ∧ IsNew b.instructions id) : NamesNews items s := by
  intro origin hmem
  obtain ⟨id, hid, rfl⟩ := hstored.exists_origin hmem
  obtain ⟨hlt, i, hi, hop⟩ := hf id hid
  have hoffset : (r.originOffset id).toNat = b.sizeBefore id := by
    rw [← toNat_offsetWord hr (IsNew.lt_size ⟨i, hi, hop⟩), originOffset, offsetWord, hr.offset?,
      if_pos (IsNew.lt_size ⟨i, hi, hop⟩)]
    rfl
  obtain ⟨item, hitem, hitemOffset, hopcode, -⟩ := hitems.each id i hi
  refine ⟨?_, item, List.mem_of_getElem? hitem, hitemOffset.trans hoffset.symm, hopcode.trans hop⟩
  rw [UInt16.lt_iff_toNat_lt, hoffset, hword, toNat_offsetWord hr hnumber]
  exact sizeBefore_lt hlt (Nat.le_of_lt hnumber)

/-- Code with a recorded frame has a stack map. -/
theorem attributes_ne_nil {b r : Body} {length n : Nat} {code : CodeAttribute}
    {entry : StoredFrame} {frames : List (UInt16 × StoredFrame)} {q : ConstantPool} {f : Frame}
    (hr : b.Resolved r length) (hs : r.Stored length code entry frames q)
    (hf : b.frames[n]? = some f) : code.attributes ≠ [] := by
  have hmem := Std.TreeMap.mem_toList_iff_getElem?_eq_some.2 hf
  have hlength := hs.each.length_eq
  rw [hr.frames] at hlength
  have hattributes := hs.attributes
  unfold StoredFrames at hattributes
  split at hattributes
  · rename_i hnil
    rw [hnil, List.length_nil, List.length_eq_zero_iff] at hlength
    rw [hlength] at hmem
    cases hmem
  · obtain ⟨name, info, hsingle, -⟩ := hattributes
    rw [hsingle]
    exact List.cons_ne_nil _ _

/-- **Unconstructed objects name a real `new`.**  Take operations that succeed, where
neither the frame on entry nor a type given to an operation names an unconstructed object.
Then every such object in the current frame, in the frame of a label or in a recorded
frame is named after a `new` that stands before.

When the code is stored, the same holds of its bytes: if a frame was recorded there is a
stack map, it is played back, and each offset that names an object lies before the frame
and is that of a `new`.  This half asks in addition that every instruction of the
operations is one that a constructor makes (`Operation.Constructed`), since an instruction
of other operand bytes would not be read back.  That the table itself is read back from
its bytes is said for an empty stack on entry: the largest depth is counted from there, so
only then does it bound the lengths that the table writes as words. -/
theorem origins_precede {os : List Operation} {pool : ConstantPool} {entry : Frame} {a : Assembler}
    (hentry : ∀ t ∈ entry.locals ++ entry.stack, t.isKnown = true)
    (hos : ∀ o ∈ os, o.isKnowing = true)
    (hrun : Operation.runAll os (Assembler.start pool entry) = .ok () a) :
    a.Rooted ∧ ∀ b, a.finish = .ok b →
      (∀ (n : Nat) (f : Frame), b.frames[n]? = some f →
        f.Origins fun id => id < n ∧ IsNew b.instructions id) ∧
      ((∀ o ∈ os, o.Constructed) → ∀ p code q, b.store p = .ok code q →
        ∃ items stored, Disassembly.items code.code = .ok items ∧
          entry.StoredAs q (fun _ => 0) stored ∧
          (∀ (n : Nat) (f : Frame), b.frames[n]? = some f → code.attributes ≠ []) ∧
          ∀ stackMap ∈ code.attributes, ∃ table frames,
            StackMap.Table.write table = .ok stackMap.info ∧
            (entry.stack = [] → StackMap.Table.ofInfo stackMap.info = .ok table) ∧
            StackMap.expand stored table = .ok frames ∧ ∀ s ∈ frames, NamesNews items s) := by
  have hrooted := rooted_of_runAll hentry hos hrun
  refine ⟨hrooted, fun b hfinish => ?_⟩
  obtain ⟨-, hplacement, hinstructions, hbentry, -⟩ := Assembler.finish_eq_ok hfinish
  have hframes (n : Nat) (f : Frame) (hf : b.frames[n]? = some f) :
      f.Origins fun id => id < n ∧ IsNew b.instructions id := by
    rw [hinstructions]
    exact hrooted.placed n f (hplacement.frames n f hf).1
  refine ⟨hframes, fun hconstructed p code q hstore => ?_⟩
  have hbuilt := Built.of_constructed hconstructed hrun
  have hclosed := closed_of_finish hbuilt hfinish
  obtain ⟨-, hstored⟩ := b.yields_store p code q hstore
  obtain ⟨r, length, stored, frames, hr, hs⟩ := hstored q (.refl q)
  have hitems := hclosed.readsBack hr
  refine ⟨_, stored, by rw [hs.bytes]; exact hr.items hclosed.labelled, ?_,
    fun n f hf => attributes_ne_nil hr hs hf, fun stackMap hmem => ?_⟩
  · have hstart := hs.start
    rw [hr.entry, hbentry, hbuilt.entry_eq] at hstart
    exact hstart.of_known hentry
  · have hattributes := hs.attributes
    unfold StoredFrames at hattributes
    split at hattributes
    · rw [hattributes] at hmem
      cases hmem
    obtain ⟨name, info, hsingle, -, hwrite⟩ := hattributes
    rw [hsingle, List.mem_singleton] at hmem
    subst hmem
    refine ⟨StackMap.compress stored frames, frames, hwrite, fun hempty => ?_, ?_,
      fun s hsmem => ?_⟩
    · exact StackMap.ofInfo_compress hwrite (length_frames_lt hbuilt hfinish hr hs)
        (frames_fit hbuilt hfinish hr hs hempty)
    · exact StackMap.expand_compress (offsets_increasing hbuilt hfinish hr hs) stored
    · obtain ⟨number, f, hf, hword, hstored⟩ := recorded_of_mem hr hs hsmem
      exact namesNews_of_origins hr hitems (number_lt hbuilt hfinish hf) hword hstored
        (hframes number f hf)

/-- A new object whose constructor is called with one or zero, whatever the parameter is
not; there are branches between the `new` and the call. -/
def branchyNew : List Operation :=
  [.label none, .label none, .push (.withConstant .newObject 1) .none, .push (.simple .dup) .none,
    .push (.load .int 0) .none, .branch .ifeq ⟨0⟩, .push (.simple .iconst1) .none,
    .branch .goto ⟨1⟩, .place ⟨0⟩, .push (.simple .iconst0) .none, .place ⟨1⟩,
    .push (.withConstant .invokespecial 2) (.constructor 1 (.object .stringBuilder)),
    .push (.simple .pop) .none, .push (.simple .returnVoid) .none]

/-- The sample operations are all made by the constructors of instructions. -/
theorem branchyNew_constructed : ∀ o ∈ branchyNew, o.Constructed := by
  intro o ho
  simp only [branchyNew, List.mem_cons, List.not_mem_nil, or_false] at ho
  rcases ho with rfl | rfl | rfl | rfl | rfl | rfl | rfl | rfl | rfl | rfl | rfl | rfl | rfl | rfl
  · trivial
  · trivial
  · exact .withConstant rfl 1
  · exact .make rfl
  · exact .load .int 0
  · rfl
  · exact .make rfl
  · rfl
  · trivial
  · exact .make rfl
  · trivial
  · exact .withConstant rfl 2
  · exact .make rfl
  · exact .make rfl

/-- Two frames of the code name the object that is made at its start, and so do the
entries of its stack map. -/
theorem branchyNew_origins :
    ∃ a b code q items stored,
      (∀ t ∈ counterFrame.locals ++ counterFrame.stack, t.isKnown = true) ∧
      (∀ o ∈ branchyNew, o.isKnowing = true) ∧
      Operation.runAll branchyNew (Assembler.start .empty counterFrame) = .ok () a ∧ a.Rooted ∧
      a.finish = .ok b ∧
      b.frames[6]? = some ⟨[.integer], [.uninitialized 0, .uninitialized 0]⟩ ∧
      b.frames[7]? = some ⟨[.integer], [.integer, .uninitialized 0, .uninitialized 0]⟩ ∧
      (∀ o ∈ branchyNew, o.Constructed) ∧ b.store .empty = .ok code q ∧
      Disassembly.items code.code = .ok items ∧ code.attributes ≠ [] ∧
      ∀ stackMap ∈ code.attributes, ∃ table frames,
        StackMap.Table.ofInfo stackMap.info = .ok table ∧
        StackMap.expand stored table = .ok frames ∧ ∀ s ∈ frames, NamesNews items s := by
  have h : (outcome? (Operation.runAll branchyNew (Assembler.start .empty counterFrame))).any
      (fun r => r.2.finish.toOption.any fun b => (outcome? (Body.resolve b)).any fun c =>
        (outcome? (c.2.entry.store c.2.originOffset .empty)).any fun entry =>
          (outcome? (c.2.frames.toList.mapM (c.2.storeFrame c.1) entry.2)).any fun frames =>
            (StackMap.compress entry.1 frames.1).write.toOption.any fun _ => decide (
              c.2.maxStack < 65536 ∧ c.2.maxLocals < 65536 ∧ frames.2.size = 0 ∧
              b.frames[6]? = some ⟨[.integer], [.uninitialized 0, .uninitialized 0]⟩ ∧
              b.frames[7]? = some ⟨[.integer], [.integer, .uninitialized 0, .uninitialized 0]⟩))
        = true := by decide +kernel
  obtain ⟨a, b, hrun, hfinish, h⟩ := exists_finish h
  obtain ⟨length, c, hresolve, h⟩ := exists_of_outcome h
  obtain ⟨entry, p₁, hentry, h⟩ := exists_of_outcome h
  obtain ⟨frames, p₂, hframes, h⟩ := exists_of_outcome h
  obtain ⟨info, hwrite, h⟩ := exists_of_toOption h
  obtain ⟨hstack, hlocals, hsize, hsix, hseven⟩ := of_decide_eq_true h
  have hroom : p₂.size < ConstantPool.capacity := by
    rw [hsize]
    decide
  obtain ⟨code, q, hstore, -⟩ := store_of_ok hresolve hstack hlocals hentry hframes hwrite hroom
  have hknown : ∀ t ∈ counterFrame.locals ++ counterFrame.stack, t.isKnown = true := by decide
  have hknowing : ∀ o ∈ branchyNew, o.isKnowing = true := by decide
  obtain ⟨hrooted, hbody⟩ := origins_precede hknown hknowing hrun
  obtain ⟨items, stored, hitems, -, hthere, hmaps⟩ :=
    (hbody b hfinish).2 branchyNew_constructed .empty code q hstore
  refine ⟨a, b, code, q, items, stored, hknown, hknowing, hrun, hrooted, hfinish, hsix, hseven,
    branchyNew_constructed, hstore, hitems, hthere 6 _ hsix, fun stackMap hmem => ?_⟩
  obtain ⟨table, played, -, hofInfo, hexpand, hnews⟩ := hmaps stackMap hmem
  exact ⟨table, played, hofInfo rfl, hexpand, hnews⟩

end Body
end ClassForge
