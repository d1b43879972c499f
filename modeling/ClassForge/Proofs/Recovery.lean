/-
# What is written of a method is recovered

Specification, section 8, *round-trip property*, for method bodies.

From a class that was compiled, the code of a method and its stack map are read back
as they were written (`ClassFile.Recovers`):

| asked for | what is found |
| --- | --- |
| code | the code that the body of the method was stored as |
| frame on entry | the one that the stack map was written against |
| stack map | one just if there is a branch |
| frames, played back | one for each destination of a branch, in order, as recorded |

The frame on entry is not stored: it follows from the descriptor of the method, and
its classes are found by their names.

That the lengths of the attributes can be written is not checked by the compiler, but follows
from the length of the descriptor (`Site.Stored.length_info_lt`): a body has 65535 bytes at
most, and what they do not spend on branches is all that can make frames heavy.
-/

import ClassForge.Proofs.ClassStorage
import ClassForge.Proofs.Compression
import ClassForge.Proofs.FrameSizes
import ClassForge.Proofs.FrameWeight
import ClassForge.Proofs.MethodRun
import ClassForge.Proofs.Offsets
import Mathlib.Algebra.Order.Ring.Nat
import Mathlib.Data.List.Perm.Subperm

namespace ClassForge

/-! ### The frames of a body and their offsets -/

theorem Built.entry_eq {a b : Assembler} (h : Built a b) : b.entry = a.entry := by
  refine h.induct (P := fun x => x.entry = a.entry) rfl fun o x y _ hstep hx => ?_
  cases hstep <;> exact hx

namespace Body

open Instruction (offsetOf)

theorem sizeBefore_lt {b : Body} {m n : Nat} (hmn : m < n) (hn : n ≤ b.instructions.size) :
    b.sizeBefore m < b.sizeBefore n := by
  rw [sizeBefore_eq, sizeBefore_eq]
  exact Instruction.offsetOf_lt hmn (by simpa using hn)

/-- What is read out of the code was an instruction of the body. -/
theorem ReadsBack.exists_instruction {b : Body} {items : List CodeItem} (h : b.ReadsBack items)
    {item : CodeItem} (hmem : item ∈ items) : ∃ i ∈ b.instructions, item.opcode = i.opcode ∧
      (i.opcode.effect.isBranch = false → item.operands = i.operands) ∧
      (i.opcode.effect.isBranch = true → ∃ target index, i.target? = some target ∧
        b.labels[target.index]? = some index ∧ index < b.instructions.size ∧
        item.destination? = some (b.sizeBefore index)) := by
  obtain ⟨n, hn⟩ := List.getElem?_of_mem hmem
  have hlt : n < b.instructions.size := by
    rw [← h.length]
    exact (List.getElem?_eq_some_iff.1 hn).1
  obtain ⟨item', hitem, -, hopcode, -, hplain, hbranch⟩ :=
    h.each n _ (Array.getElem?_eq_getElem hlt)
  rw [hn] at hitem
  cases hitem
  exact ⟨_, Array.getElem_mem hlt, hopcode, hplain, hbranch⟩

/-- What has a destination is a branch. -/
theorem isBranch_of_destination {item : CodeItem} {n : Nat} (h : item.destination? = some n) :
    item.opcode.effect.isBranch = true := by
  unfold CodeItem.destination? at h
  split at h
  · assumption
  · cases h

section Stored

variable {b r : Body} {length : Nat} {code : CodeAttribute} {entry : StoredFrame}
  {frames : List (UInt16 × StoredFrame)} {q : ConstantPool} (hr : b.Resolved r length)
  (hs : r.Stored length code entry frames q)

/-- The word in which the offset of an instruction is stored. -/
def offsetWord (r : Body) (length number : Nat) : UInt16 :=
  UInt16.ofNat ((r.offset? number).getD length)

include hr

/-- Every offset in a body that is laid out fits in a word. -/
theorem sizeBefore_le {n : Nat} (hn : n ≤ b.instructions.size) : b.sizeBefore n ≤ 65535 := by
  have hlength := hr.length_le
  rw [hr.length_eq, ← sizeBefore_eq] at hlength
  rcases Nat.lt_or_eq_of_le hn with hlt | rfl
  · exact Nat.le_trans (Nat.le_of_lt (sizeBefore_lt hlt Nat.le.refl)) hlength
  · exact hlength

theorem toNat_offsetWord {n : Nat} (hn : n < b.instructions.size) :
    (offsetWord r length n).toNat = b.sizeBefore n := by
  have hle := sizeBefore_le hr (Nat.le_of_lt hn)
  rw [offsetWord, hr.offset?, if_pos hn, Option.getD_some, ← sizeBefore_eq, UInt16.toNat_ofNat']
  omega

include hs

/-- The frames are stored under the words of their numbers. -/
theorem map_fst_frames :
    frames.map Prod.fst = b.frames.toList.map fun frame => offsetWord r length frame.1 := by
  have heach := hs.each
  rw [hr.frames] at heach
  clear hs
  generalize b.frames.toList = numbered at heach
  induction heach with
  | nil => rfl
  | cons h _ ih => rw [List.map_cons, List.map_cons, ih, h.1]; rfl

/-- Each frame is stored as it was recorded. -/
theorem recorded_of_mem {s : UInt16 × StoredFrame} (hmem : s ∈ frames) :
    ∃ number f, b.frames[number]? = some f ∧ s.1 = offsetWord r length number ∧
      f.StoredAs q r.originOffset s.2 := by
  have heach := hs.each
  rw [hr.frames] at heach
  obtain ⟨⟨number, f⟩, hframe, hword, hstored⟩ := exists_of_forall₂ heach hmem
  exact ⟨number, f, Std.TreeMap.mem_toList_iff_getElem?_eq_some.1 hframe, hword, hstored⟩

end Stored

/-! ### Finished bodies -/

section Finished

variable {pool : ConstantPool} {start : Frame} {a : Assembler} {b r : Body} {length : Nat}
  {code : CodeAttribute} {entry : StoredFrame} {frames : List (UInt16 × StoredFrame)}
  {q : ConstantPool} (hbuilt : Built (Assembler.start pool start) a) (hfinish : a.finish = .ok b)
  (hr : b.Resolved r length) (hs : r.Stored length code entry frames q)

include hbuilt hfinish

/-- **There is a frame at an instruction just if some branch goes there.** A label alone,
which is placed and not branched to, leaves none. -/
theorem isSome_frames_iff {number : Nat} : (∃ f, b.frames[number]? = some f) ↔
    ∃ i ∈ b.instructions, ∃ target, i.target? = some target ∧
      b.labels[target.index]? = some number := by
  obtain ⟨-, hplacement, hinstructions, -⟩ := Assembler.finish_eq_ok hfinish
  have hposition : ∀ (n : Nat) (state : LabelState), a.labels[n]? = some state →
      b.labels[n]? = state.placed := by
    intro n state hstate
    have hposition := hplacement.positions n
    rw [Array.getElem?_toList, hstate] at hposition
    exact hposition
  constructor
  · rintro ⟨f, hf⟩
    obtain ⟨-, state, hstate, hjumped, hplaced⟩ := hplacement.frames number f hf
    obtain ⟨n, hn⟩ := List.getElem?_of_mem hstate
    rw [Array.getElem?_toList] at hn
    obtain ⟨i, hi, ht⟩ := (hbuilt.isTarget_iff n).1 ⟨state, hn, hjumped⟩
    exact ⟨i, hinstructions ▸ hi, ⟨n⟩, ht, (hposition n state hn).trans hplaced⟩
  · rintro ⟨i, hi, target, ht, hlabel⟩
    obtain ⟨state, hstate, hjumped⟩ :=
      (hbuilt.isTarget_iff target.index).2 ⟨i, hinstructions ▸ hi, ht⟩
    have hmem : state ∈ a.labels.toList := Array.mem_toList_iff.2 (Array.mem_of_getElem? hstate)
    obtain ⟨index, f, hplaced, -, -, hf⟩ := hplacement.branched state hmem hjumped
    rw [hposition target.index state hstate, hplaced] at hlabel
    cases hlabel
    exact ⟨f, hf⟩

/-- A frame stands at an instruction. -/
theorem number_lt {number : Nat} {f : Frame} (hf : b.frames[number]? = some f) :
    number < b.instructions.size := by
  obtain ⟨i, hi, target, ht, hlabel⟩ := (isSome_frames_iff hbuilt hfinish).1 ⟨f, hf⟩
  obtain ⟨index, hindex, hlt⟩ := (closed_of_finish hbuilt hfinish).placed i hi target ht
  rw [hlabel] at hindex
  cases hindex
  exact hlt

include hr hs

/-- **The offsets of the frames increase.** -/
theorem offsets_increasing : (frames.map Prod.fst).Pairwise (· < ·) := by
  rw [map_fst_frames hr hs, List.pairwise_map]
  refine Std.TreeMap.ordered_keys_toList.imp_of_mem fun {x y} hx hy hlt => ?_
  have hx' := number_lt hbuilt hfinish (Std.TreeMap.mem_toList_iff_getElem?_eq_some.1 hx)
  have hy' := number_lt hbuilt hfinish (Std.TreeMap.mem_toList_iff_getElem?_eq_some.1 hy)
  rw [UInt16.lt_iff_toNat_lt, toNat_offsetWord hr hx', toNat_offsetWord hr hy']
  exact sizeBefore_lt (Nat.compare_eq_lt.1 hlt) (Nat.le_of_lt hy')

/-- There are fewer frames than a word can count. -/
theorem length_frames_lt : frames.length < 65536 := by
  have hpairwise := offsets_increasing hbuilt hfinish hr hs
  have hnodup : (frames.map fun s => s.1.toNat).Nodup := by
    rw [List.nodup_iff_pairwise_ne, List.pairwise_map]
    exact (List.pairwise_map.1 hpairwise).imp fun hlt =>
      Nat.ne_of_lt (UInt16.lt_iff_toNat_lt.1 hlt)
  have hbelow : ∀ n ∈ frames.map fun s => s.1.toNat, n ∈ List.range 65535 := by
    intro n hn
    obtain ⟨s, hsmem, rfl⟩ := List.mem_map.1 hn
    obtain ⟨number, f, hf, hword, -⟩ := recorded_of_mem hr hs hsmem
    have hlt := number_lt hbuilt hfinish hf
    have hbound := sizeBefore_le hr Nat.le.refl
    have hbefore := sizeBefore_lt hlt Nat.le.refl
    rw [List.mem_range, hword, toNat_offsetWord hr hlt]
    omega
  have hle := (List.subperm_of_subset hnodup hbelow).length_le
  rw [List.length_map, List.length_range] at hle
  omega

/-- No stored frame needs more room than the body says. -/
theorem stored_within (hentry : start.stack = []) :
    ∀ s ∈ frames, s.2.locals.length ≤ b.maxLocals ∧ s.2.stack.length ≤ b.maxStack := by
  intro s hsmem
  obtain ⟨number, f, hf, -, hstored⟩ := recorded_of_mem hr hs hsmem
  have hwithin := frames_within hentry hbuilt hfinish hf
  rw [← hstored.locals.length_eq, ← hstored.stack.length_eq, List.length_reverse]
  exact ⟨hwithin.locals, hwithin.stack⟩

/-- No frame is longer than a word can count. -/
theorem frames_fit (hentry : start.stack = []) :
    ∀ s ∈ frames, s.2.locals.length < 65536 ∧ s.2.stack.length < 65536 := by
  intro s hsmem
  obtain ⟨hlocals, hstack⟩ := stored_within hbuilt hfinish hr hs hentry s hsmem
  have hmaxLocals := code.maxLocals.toNat_lt
  have hmaxStack := code.maxStack.toNat_lt
  rw [hs.maxLocals, hr.maxLocals] at hmaxLocals
  rw [hs.maxStack, hr.maxStack] at hmaxStack
  exact ⟨Nat.lt_of_le_of_lt hlocals hmaxLocals, Nat.lt_of_le_of_lt hstack hmaxStack⟩

/-- **The frames stand at the destinations of branches**, as they are read from the bytes.
So a verifier finds a frame wherever it needs one, and none besides. -/
theorem mem_offsets_iff {items : List CodeItem} (hitems : b.ReadsBack items) (offset : UInt16) :
    offset ∈ frames.map Prod.fst ↔ ∃ item ∈ items, item.destination? = some offset.toNat := by
  have hclosed := closed_of_finish hbuilt hfinish
  rw [map_fst_frames hr hs, List.mem_map]
  constructor
  · rintro ⟨⟨number, f⟩, hmem, rfl⟩
    have hf := Std.TreeMap.mem_toList_iff_getElem?_eq_some.1 hmem
    obtain ⟨i, hi, target, ht, hlabel⟩ := (isSome_frames_iff hbuilt hfinish).1 ⟨f, hf⟩
    obtain ⟨n, hn⟩ := Array.getElem?_of_mem hi
    have hbranch : i.opcode.effect.isBranch = true := by
      rw [← (hclosed.labelled i hi).target, ht]
      rfl
    obtain ⟨item, hitem, -, -, -, -, hdestination⟩ := hitems.each n i hn
    obtain ⟨target', index, ht', hlabel', -, hdestination⟩ := hdestination hbranch
    rw [ht] at ht'
    cases ht'
    rw [hlabel] at hlabel'
    cases hlabel'
    refine ⟨item, List.mem_of_getElem? hitem, ?_⟩
    rw [hdestination, toNat_offsetWord hr (number_lt hbuilt hfinish hf)]
  · rintro ⟨item, hmem, hdestination⟩
    obtain ⟨i, hi, hopcode, -, hbranch⟩ := hitems.exists_instruction hmem
    obtain ⟨target, index, ht, hlabel, hindex, hoffset⟩ :=
      hbranch (hopcode ▸ isBranch_of_destination hdestination)
    obtain ⟨f, hf⟩ := (isSome_frames_iff hbuilt hfinish).2 ⟨i, hi, target, ht, hlabel⟩
    refine ⟨(index, f), Std.TreeMap.mem_toList_iff_getElem?_eq_some.2 hf, ?_⟩
    rw [hoffset] at hdestination
    refine UInt16.toNat_inj.1 ?_
    rw [toNat_offsetWord hr hindex]
    exact Option.some.inj hdestination

/-- There are no frames just if there is no branch. -/
theorem frames_eq_nil_iff {items : List CodeItem} (hitems : b.ReadsBack items) :
    frames = [] ↔ ∀ item ∈ items, item.opcode.effect.isBranch = false := by
  have hmem := mem_offsets_iff hbuilt hfinish hr hs hitems
  constructor
  · rintro rfl item hitem
    obtain ⟨i, -, hopcode, -, hbranch⟩ := hitems.exists_instruction hitem
    by_contra hisBranch
    rw [Bool.not_eq_false, hopcode] at hisBranch
    obtain ⟨target, index, -, -, hindex, hoffset⟩ := hbranch hisBranch
    rw [← toNat_offsetWord hr hindex] at hoffset
    have hmem' := (hmem (offsetWord r length index)).2 ⟨item, hitem, hoffset⟩
    cases hmem'
  · intro hnone
    rw [List.eq_nil_iff_forall_not_mem]
    intro s hsmem
    obtain ⟨item, hitem, hdestination⟩ := (hmem s.1).1 (List.mem_map_of_mem hsmem)
    exact absurd (isBranch_of_destination hdestination) (by rw [hnone item hitem]; decide)

end Finished
end Body

/-! ### The frame on entry -/

/-- Names are the same just if their texts are. -/
theorem UnqualifiedName.ext_text {m n : UnqualifiedName} : m.text = n.text ↔ m = n := by
  constructor
  · intro h
    cases m
    cases n
    cases h
    rfl
  · rintro rfl
    rfl

namespace ClassDecl.Stored

variable {settings : Settings} {d : ClassDecl} {c : ClassFile} {q : ConstantPool}
  (h : d.Stored settings c q)

include h

/-- The stored types of parameters are found by their names. -/
theorem mapM_parameterType {offsetOf : Nat → UInt16} {types : List FieldType}
    {stored : List StoredType} (hstored : List.Forall₂ (VerificationType.StoredAs q offsetOf)
      (types.map FieldType.verification) stored) : types.mapM c.parameterType = .ok stored := by
  induction types generalizing stored with
  | nil =>
    cases hstored
    rfl
  | cons type types ih =>
    cases hstored with
    | cons hfirst hrest =>
      have hparameter : ∀ s, VerificationType.StoredAs q offsetOf type.verification s →
          c.parameterType type = .ok s := by
        intro s hs
        match type with
        | .base .int | .base .boolean | .base .float =>
          cases hs
          rfl
        | .ref t =>
          cases hs with
          | object hnames => rw [ClassFile.parameterType, h.findClass?_eq hnames]
      rw [List.mapM_cons, hparameter _ hfirst, ih hrest]
      rfl

/-- Whether a method has `this`, and of which kind, is seen from its name and flags. -/
theorem this_eq {m : MethodDecl} {info : MethodInfo} (hm : (Site.mk settings d m).Stored info q)
    {offsetOf : Nat → UInt16} {first : List StoredType}
    (hfirst : List.Forall₂ (VerificationType.StoredAs q offsetOf)
      (if m.isConstructor then [.uninitializedThis]
        else if m.isStatic then [] else [.object d.type]) first) :
    first = if c.utf8? info.name = some UnqualifiedName.init.text then [.uninitializedThis]
      else if info.flags.contains MethodFlags.isStatic then [] else [.object c.thisClass] := by
  have hname : c.utf8? info.name = some UnqualifiedName.init.text ↔ m.isConstructor = true := by
    rw [h.utf8?_eq, hm.name]
    simp [MethodDecl.isConstructor, UnqualifiedName.ext_text]
  have hstatic : info.flags.contains MethodFlags.isStatic = m.isStatic := by
    rw [hm.flags]
    rfl
  simp only [hname, hstatic]
  split at hfirst
  · rename_i hconstructor
    rw [if_pos hconstructor]
    cases hfirst with
    | cons hone hnone =>
      cases hone
      cases hnone
      rfl
  · rename_i hconstructor
    rw [if_neg hconstructor]
    split at hfirst
    · rename_i hs
      rw [if_pos hs]
      cases hfirst
      rfl
    · rename_i hs
      rw [if_neg hs]
      cases hfirst with
      | cons hone hnone =>
        cases hnone
        cases hone with
        | object hnames => rw [hnames.inj h.thisClass]

/-- **The frame on entry follows from the descriptor.** What a reader makes of the name, the
flags and the descriptor of a method is the frame from which its code was made. -/
theorem entryFrame_eq {m : MethodDecl} {info : MethodInfo}
    (hm : (Site.mk settings d m).Stored info q) {offsetOf : Nat → UInt16} {entry : StoredFrame}
    (hentry : (Site.mk settings d m).entry.StoredAs q offsetOf entry) :
    c.entryFrame info = .ok entry := by
  obtain ⟨locals, stack⟩ := entry
  have hstack : stack = [] := by
    cases hentry.stack
    rfl
  let this : List FrameType :=
    if m.isConstructor then [.uninitializedThis] else if m.isStatic then [] else [.object d.type]
  have hlocals : List.Forall₂ (VerificationType.StoredAs q offsetOf)
      (this ++ m.descriptor.parameters.map FieldType.verification) locals := hentry.locals
  have hfirst := List.forall₂_take this.length hlocals
  have hrest := List.forall₂_drop this.length hlocals
  rw [List.take_left] at hfirst
  rw [List.drop_left] at hrest
  unfold ClassFile.entryFrame
  rw [h.utf8?_eq.2 hm.descriptor]
  dsimp only
  rw [MethodDescriptor.parse_render]
  dsimp only
  rw [h.mapM_parameterType hrest]
  dsimp only
  rw [← h.this_eq hm hfirst, List.take_append_drop, hstack]

end ClassDecl.Stored

/-! ### What is recovered of a method -/

namespace ClassFile

variable {c : ClassFile}

/-- The only attribute is found by its name. -/
theorem findAttribute?_single {α : Type} {name : String} {decode : Bytes → Except ReadError α}
    {label : UInt16} {info : Bytes} {value : α} (hlabel : c.utf8? label = some name) :
    c.findAttribute? name decode [⟨label, info⟩] = .ok (some value) ↔
      decode info = .ok value := by
  unfold findAttribute?
  rw [List.find?_cons_of_pos (by simpa using hlabel)]
  dsimp only
  cases decode info <;> simp

/-- What is read back of a method, given its body as it was recorded and laid out, and
the code, the frame on entry and the frames as they were written. -/
structure Recovers (c : ClassFile) (info : MethodInfo) (b r : Body) (code : CodeAttribute)
    (entry : StoredFrame) (frames : List (UInt16 × StoredFrame)) (q : ConstantPool) : Prop where
  methodCode : c.methodCode? info = .ok (some code)
  entryFrame : c.entryFrame info = .ok entry
  /-- There is a stack map just if the code has a branch, and it plays back as the frames. -/
  stackMap : ∃ items, Disassembly.items code.code = .ok items ∧
    ((∀ item ∈ items, item.opcode.effect.isBranch = false) → c.stackMap? code = .ok none) ∧
    ((∃ item ∈ items, item.opcode.effect.isBranch = true) → ∃ table,
      c.stackMap? code = .ok (some table) ∧ StackMap.expand entry table = .ok frames) ∧
    ∀ offset, offset ∈ frames.map Prod.fst ↔
      ∃ item ∈ items, item.destination? = some offset.toNat
  increasing : (frames.map Prod.fst).Pairwise (· < ·)
  /-- Each frame is the one that was recorded for the instruction at its offset. -/
  recorded : ∀ s ∈ frames, ∃ number f, b.frames[number]? = some f ∧
    s.1.toNat = b.sizeBefore number ∧ f.StoredAs q r.originOffset s.2

end ClassFile

namespace Body

variable {r : Body} {length : Nat} {code : CodeAttribute} {entry : StoredFrame}
  {frames : List (UInt16 × StoredFrame)} {q : ConstantPool}

/-- The length of stored code, by the length of its stack map. -/
theorem Stored.length_write_le (hs : r.Stored length code entry frames q) {size : Nat}
    (hsize : ∀ info, (StackMap.compress entry frames).write = .ok info → info.length ≤ size) :
    code.write.length ≤ 18 + r.code.length + size := by
  have hattributes := hs.attributes
  unfold StoredFrames at hattributes
  split at hattributes
  · simp only [CodeAttribute.write, Bytes.list, hs.bytes, hs.handlers, hattributes,
      List.length_append, List.flatMap_nil, List.length_nil, Bytes.length_u16, Bytes.length_u32]
    omega
  · obtain ⟨name, info, hone, -, hwrite⟩ := hattributes
    have hinfo := hsize info hwrite
    simp only [CodeAttribute.write, Attribute.write, Bytes.list, hs.bytes, hs.handlers, hone,
      List.length_append, List.flatMap_nil, List.flatMap_cons, List.length_nil, Bytes.length_u16,
      Bytes.length_u32]
    omega

theorem Resolved.length_code_le {b : Body} (hr : b.Resolved r length) (hclosed : b.Closed) :
    r.code.length ≤ 65535 := by
  have hle := hr.length_le
  unfold maxLength at hle
  rw [hr.length_code hclosed.labelled]
  exact hle

/-- Code takes three bytes for each branch, and one for each other instruction at least. -/
theorem length_ge_work {is : List Instruction} (h : ∀ i ∈ is, i.Labelled) :
    3 * is.countP (·.opcode.effect.isBranch) + Instruction.work is ≤
      Instruction.offsetOf is is.length := by
  unfold Instruction.work
  induction is with
  | nil => exact Nat.le_refl 0
  | cons i is ih =>
    obtain ⟨hi, hrest⟩ := List.forall_mem_cons.1 h
    have hothers := ih hrest
    rw [List.countP_cons, List.countP_cons, List.length_cons, Instruction.offsetOf_cons_succ]
    cases hbranch : i.opcode.effect.isBranch with
    | true =>
      obtain ⟨hoperands, hwide⟩ := hi.of_branch hbranch
      have hsize : i.size = 3 := by rw [Instruction.size, hwide, hoperands]; rfl
      simp only [Bool.not_true, Bool.false_eq_true, if_true, if_false]
      omega
    | false =>
      have hsize := i.size_pos
      simp only [Bool.not_false, Bool.false_eq_true, if_true, if_false]
      omega

/-- **There are no more frames than branches**: a frame stands where one goes, and each
branch goes to one place. -/
theorem length_frames_le {pool : ConstantPool} {start : Frame} {a : Assembler} {b : Body}
    (hbuilt : Built (Assembler.start pool start) a) (hfinish : a.finish = .ok b)
    (hr : b.Resolved r length) (hs : r.Stored length code entry frames q) :
    frames.length ≤ b.instructions.toList.countP (·.opcode.effect.isBranch) := by
  have hlength : frames.length = (b.frames.toList.map Prod.fst).length := by
    rw [List.length_map, ← hr.frames, hs.each.length_eq]
  have hnodup : (b.frames.toList.map Prod.fst).Nodup := by
    rw [List.nodup_iff_pairwise_ne, List.pairwise_map]
    exact Std.TreeMap.ordered_keys_toList.imp fun hlt => Nat.ne_of_lt (Nat.compare_eq_lt.1 hlt)
  -- the number of each frame is where the label of some instruction stands
  have hdestinations : ∀ n ∈ b.frames.toList.map Prod.fst,
      n ∈ b.instructions.toList.filterMap fun i => i.target?.bind (b.labels[·.index]?) := by
    intro n hn
    obtain ⟨⟨n, f⟩, hmem, rfl⟩ := List.mem_map.1 hn
    have hf := Std.TreeMap.mem_toList_iff_getElem?_eq_some.1 hmem
    obtain ⟨i, hi, target, ht, hlabel⟩ := (isSome_frames_iff hbuilt hfinish).1 ⟨f, hf⟩
    refine List.mem_filterMap.2 ⟨i, Array.mem_toList_iff.2 hi, ?_⟩
    rw [ht]
    exact hlabel
  have hle := (List.subperm_of_subset hnodup hdestinations).length_le
  rw [← hlength, List.length_filterMap_eq_countP] at hle
  refine Nat.le_trans hle (List.countP_mono_left fun i hi hsome => ?_)
  have hlabelled := (closed_of_finish hbuilt hfinish).labelled i (Array.mem_toList_iff.1 hi)
  rw [← hlabelled.target]
  cases ht : i.target? with
  | none =>
    rw [ht] at hsome
    cases hsome
  | some target => rfl

theorem frames_mul_weight_lt {branches work weight : Nat} (hcode : 3 * branches + work ≤ 65535)
    (hweight : weight ≤ 65535) :
    branches * (7 + (65535 + (weight + 6 * work))) < 4294000000 := by
  have hsquare := four_mul_le_sq_add (18 * branches) (7 + (65535 + (weight + 6 * work)))
  have hsum : (18 * branches + (7 + (65535 + (weight + 6 * work)))) ^ 2 ≤ 524287 ^ 2 :=
    Nat.pow_le_pow_left (by omega) 2
  have hproduct : 4 * (18 * branches) * (7 + (65535 + (weight + 6 * work))) =
      72 * (branches * (7 + (65535 + (weight + 6 * work)))) := by
    rw [← Nat.mul_assoc 4 18, Nat.mul_assoc]
  omega

/-- **The code of a method has a length that can be written**, unless the frame on entry is
enormous. -/
theorem Stored.length_write_lt {pool : ConstantPool} {start : Frame} {a : Assembler} {b : Body}
    (hbuilt : Built (Assembler.start pool start) a) (hfinish : a.finish = .ok b)
    (hentry : start.stack = []) (hr : b.Resolved r length)
    (hs : r.Stored length code entry frames q) (hweight : start.weight ≤ 65535) :
    code.write.length < 4294967296 := by
  have hclosed := closed_of_finish hbuilt hfinish
  have hcode := hr.length_code_le hclosed
  have hcount := length_frames_le hbuilt hfinish hr hs
  have hbytes : 3 * b.instructions.toList.countP (·.opcode.effect.isBranch) +
      Instruction.work b.instructions.toList ≤ 65535 := by
    have hlength := hr.length_le
    rw [hr.length_eq] at hlength
    refine Nat.le_trans (length_ge_work fun i hi => ?_) hlength
    exact hclosed.labelled i (Array.mem_toList_iff.1 hi)
  have hframe : ∀ s ∈ frames, (s.2.locals.flatMap StoredType.write).length +
      (s.2.stack.flatMap StoredType.write).length ≤
        65535 + (start.weight + 6 * Instruction.work b.instructions.toList) := by
    intro s hsmem
    obtain ⟨number, f, hf, -, hstored⟩ := recorded_of_mem hr hs hsmem
    have hlocals := (frames_fit hbuilt hfinish hr hs hentry s hsmem).1
    rw [← hstored.locals.length_eq] at hlocals
    have hheavy := weight_frames_le hbuilt hfinish hf
    have hsize := hstored.length_write_le
    omega
  have htable : ∀ info, (StackMap.compress entry frames).write = .ok info →
      info.length ≤ 4294000002 := by
    intro info hinfo
    have hframes := StackMap.length_write_compress_le hframe hinfo
    have hproduct := frames_mul_weight_lt hbytes hweight
    have hmore := Nat.mul_le_mul_right
      (7 + (65535 + (start.weight + 6 * Instruction.work b.instructions.toList))) hcount
    omega
  have hle := hs.length_write_le htable
  omega

/-- Stored code has no attribute but its stack map. -/
theorem Stored.length_attributes_le (hs : r.Stored length code entry frames q) :
    code.attributes.length ≤ 1 := by
  have hattributes := hs.attributes
  unfold StoredFrames at hattributes
  split at hattributes
  · rw [hattributes]
    exact Nat.zero_le _
  · obtain ⟨name, info, hone, -⟩ := hattributes
    rw [hone]
    exact Nat.le_refl _

theorem Stored.allFit (hs : r.Stored length code entry frames q)
    (hcode : code.write.length < 4294967296) : Attribute.AllFit code.attributes := by
  have hcount := hs.length_attributes_le
  exact ⟨by omega, fun a ha => Nat.lt_trans (CodeAttribute.length_info_lt ha) hcode⟩

end Body

/-- How the code of a method came about: it was assembled, finished, laid out and
stored. -/
theorem Site.Writes.finished {site : Site} {b : Body} {code : CodeAttribute} {q : ConstantPool}
    (h : site.Writes b code q) : ∃ pool a r length entry frames,
      Built (Assembler.start pool site.entry) a ∧ a.finish = .ok b ∧ a.Linked ∧ a.pool.Grows q ∧
        b.Resolved r length ∧ r.Stored length code entry frames q ∧ r.entry = site.entry := by
  obtain ⟨a, hassembles, hlinked, hgrows⟩ := h.assembles
  obtain ⟨r, length, entry, frames, hr, hs⟩ := h.stored
  obtain ⟨pool, hbuilt⟩ := hassembles.built
  obtain ⟨-, -, -, -, -, hfinish⟩ := hassembles
  refine ⟨pool, a, r, length, entry, frames, hbuilt, hfinish, hlinked, hgrows, hr, hs, ?_⟩
  rw [hr.entry, (Assembler.finish_eq_ok hfinish).2.2.2.1, hbuilt.entry_eq]
  rfl

/-- **The attributes of a method can be written if the text of its descriptor can**, which
bounds the frame on entry. -/
theorem Site.Stored.length_info_lt {site : Site} {info : MethodInfo} {q : ConstantPool}
    (hm : site.Stored info q)
    (htext : (ModifiedUtf8.encode site.method.descriptor.render).length < 65536) :
    ∀ a ∈ info.attributes, a.info.length < 4294967296 := by
  intro stored hstored
  have hattributes := hm.attributes
  unfold Site.StoredAttributes at hattributes
  split at hattributes
  · rw [hattributes] at hstored
    cases hstored
  · obtain ⟨b, code, label, hwrites, hone, -⟩ := hattributes
    obtain ⟨pool, a, r, length, entry, frames, hbuilt, hfinish, -, -, hr, hs, -⟩ :=
      hwrites.finished
    have hentry : site.entry.weight ≤ (ModifiedUtf8.encode site.method.descriptor.render).length :=
      Frame.weight_entry_le ..
    rw [hone, List.mem_singleton] at hstored
    subst hstored
    exact Body.Stored.length_write_lt hbuilt hfinish rfl hr hs (by omega)

namespace ClassDecl.Stored

variable {settings : Settings} {d : ClassDecl} {c : ClassFile} {q : ConstantPool}
  (h : d.Stored settings c q)

include h

/-- **The stack map is found as it was written.** -/
theorem stackMap?_eq {r : Body} {length : Nat} {code : CodeAttribute} {entry : StoredFrame}
    {frames : List (UInt16 × StoredFrame)} (hs : r.Stored length code entry frames q)
    (hlength : frames.length < 65536)
    (hfits : ∀ s ∈ frames, s.2.locals.length < 65536 ∧ s.2.stack.length < 65536) :
    c.stackMap? code =
      .ok (if frames = [] then none else some (StackMap.compress entry frames)) := by
  have hattributes := hs.attributes
  unfold Body.StoredFrames at hattributes
  unfold ClassFile.stackMap?
  split at hattributes
  · rename_i hnil
    rw [hattributes, if_pos hnil]
    rfl
  · rename_i hne
    obtain ⟨name, info, hone, hname, hwrite⟩ := hattributes
    rw [hone, if_neg hne]
    exact (ClassFile.findAttribute?_single (h.utf8?_eq.2 hname)).2
      (StackMap.ofInfo_compress hwrite hlength hfits)

/-- **What was written of a method is recovered**: its code, its frame on entry, its
instructions and its frames, from the bytes of the class and nothing else. -/
theorem recovers {m : MethodDecl} {info : MethodInfo}
    (hm : (Site.mk settings d m).Stored info q) (hcode : m.isAbstract = false)
    (hfits : ∀ a ∈ info.attributes, a.info.length < 4294967296) :
    ∃ b r length code entry frames, (Site.mk settings d m).Writes b code q ∧
      b.Resolved r length ∧ r.Stored length code entry frames q ∧
      c.Recovers info b r code entry frames q := by
  have hattributes := hm.attributes
  unfold Site.StoredAttributes at hattributes
  rw [if_neg (by simp [hcode])] at hattributes
  obtain ⟨b, code, label, hwrites, hone, hlabel⟩ := hattributes
  obtain ⟨pool, a, r, length, entry, frames, hbuilt, hfinish, -, -, hr, hs, hstart⟩ :=
    hwrites.finished
  have hclosed := Body.closed_of_finish hbuilt hfinish
  have hreads := hclosed.readsBack hr
  have hsmall : code.write.length < 4294967296 :=
    hfits ⟨label, code.write⟩ (by rw [hone]; exact List.mem_singleton_self _)
  have hbytes : code.code.length < 4294967296 := by
    have hle := hr.length_code_le hclosed
    rw [hs.bytes]
    omega
  have hincreasing := Body.offsets_increasing hbuilt hfinish hr hs
  have hmap := h.stackMap?_eq hs (Body.length_frames_lt hbuilt hfinish hr hs)
    (Body.frames_fit hbuilt hfinish hr hs rfl)
  have hnil := Body.frames_eq_nil_iff hbuilt hfinish hr hs hreads
  refine ⟨b, r, length, code, entry, frames, hwrites, hr, hs, ?_⟩
  exact
    { methodCode := by
        unfold ClassFile.methodCode?
        rw [hone]
        exact (ClassFile.findAttribute?_single (h.utf8?_eq.2 hlabel)).2
          (CodeAttribute.ofInfo_write hbytes (by simp [hs.handlers]) (hs.allFit hsmall))
      entryFrame := h.entryFrame_eq hm (hstart ▸ hs.start)
      stackMap := by
        refine ⟨_, ?_, fun hnone => ?_, fun ⟨item, hitem, hbranch⟩ => ?_,
          Body.mem_offsets_iff hbuilt hfinish hr hs hreads⟩
        · rw [hs.bytes]
          exact hr.items hclosed.labelled
        · rw [hmap, if_pos (hnil.2 hnone)]
        · have hne : frames ≠ [] := by
            intro hempty
            rw [hnil.1 hempty item hitem] at hbranch
            cases hbranch
          rw [if_neg hne] at hmap
          exact ⟨StackMap.compress entry frames, hmap, StackMap.expand_compress hincreasing entry⟩
      increasing := hincreasing
      recorded := fun s hsmem => by
        obtain ⟨number, f, hf, hword, hstored⟩ := Body.recorded_of_mem hr hs hsmem
        refine ⟨number, f, hf, ?_, hstored⟩
        rw [hword, Body.toNat_offsetWord hr (Body.number_lt hbuilt hfinish hf)] }

end ClassDecl.Stored

/-- **The reader recovers what the writer recorded.**  Take any method with code of a
class that was compiled, whose descriptor is short enough for its length to be written, or at
least its attributes are for theirs; the first implies the second
(`Site.Stored.length_info_lt`), and both hold in every class that can be read back.  Its code
is read back as its body was stored, the frame on entry as the one that its stack map was
written against, and its stack map, which is there just if the code has a branch, plays back
as one frame for each destination of a branch, in the order of their offsets: the stored form
of the frame that was recorded there. -/
theorem ClassDecl.compile_recovered {settings : Settings} {d : ClassDecl} {c : ClassFile}
    (h : d.compile settings = .ok c) {n : Nat} {info : MethodInfo}
    (hinfo : c.methods[n]? = some info)
    (hcode : info.flags.contains MethodFlags.isAbstract = false)
    (hfits : (∀ text, c.utf8? info.descriptor = some text →
      (ModifiedUtf8.encode text).length < 65536) ∨
        ∀ a ∈ info.attributes, a.info.length < 4294967296) :
    ∃ m q b r length code entry frames, d.methods[n]? = some m ∧ q.toList = c.constants ∧
      (Site.mk settings d m).Writes b code q ∧ b.Resolved r length ∧
      r.Stored length code entry frames q ∧ c.Recovers info b r code entry frames q := by
  obtain ⟨q, hstored⟩ := exists_stored h
  obtain ⟨hlength, hmethods⟩ := List.forall₂_iff_get.1 hstored.methods
  obtain ⟨hn, rfl⟩ := List.getElem?_eq_some_iff.1 hinfo
  have hm := hmethods n (by omega) hn
  have habstract : (d.methods.get ⟨n, by omega⟩).isAbstract = false := by
    unfold MethodDecl.isAbstract
    rw [← hm.flags]
    exact hcode
  have hlengths : ∀ a ∈ (c.methods.get ⟨n, hn⟩).attributes, a.info.length < 4294967296 := by
    rcases hfits with htext | hlengths
    · exact hm.length_info_lt (htext _ (hstored.utf8?_eq.2 hm.descriptor))
    · exact hlengths
  obtain ⟨b, r, length, code, entry, frames, hwrites, hr, hs, hrecovers⟩ :=
    hstored.recovers hm habstract hlengths
  exact ⟨_, q, b, r, length, code, entry, frames, List.getElem?_eq_getElem (by omega),
    hstored.constants.symm, hwrites, hr, hs, hrecovers⟩

/-! ### A class with a loop -/

namespace Sample

/-- A class whose only method adds up the odd numbers up to its parameter. -/
def adder : ClassDecl where
  name := ⟨"demo/Adder", by decide⟩
  superClass := .object
  interfaces := []
  flags := ClassFlags.isPublic
  sourceFile := none
  fields := []
  methods := [oddSum]

theorem oddSum_selfContained : (Site.mk {} adder oddSum).isSelfContained = true := by
  decide +kernel

/-- The class is compiled. -/
theorem adder_compiled : ∃ c, adder.compile {} = .ok c := by
  refine ClassDecl.compile_of_methods rfl rfl fun p hp => ?_
  obtain ⟨info, q, hcompile, hq⟩ := Site.compile_of_isSelfContained oddSum_selfContained
    oddSum_integral.hasCode (p := p) (by unfold ConstantPool.capacity; omega)
  refine ⟨[info], q, ?_, by unfold ConstantPool.capacity; omega⟩
  change ClassDecl.compileMethods {} adder [] [] [oddSum] p = _
  unfold ClassDecl.compileMethods
  rw [hcompile]
  rfl

/-- The loop of the class is recovered. -/
theorem adder_recovered : ∃ c info, adder.compile {} = .ok c ∧ c.methods[0]? = some info ∧
    ∃ m q b r length code entry frames, adder.methods[0]? = some m ∧ q.toList = c.constants ∧
      (Site.mk {} adder m).Writes b code q ∧ b.Resolved r length ∧
      r.Stored length code entry frames q ∧ c.Recovers info b r code entry frames q := by
  obtain ⟨c, hc⟩ := adder_compiled
  obtain ⟨q, hstored⟩ := ClassDecl.exists_stored hc
  obtain ⟨hlength, hmethods⟩ := List.forall₂_iff_get.1 hstored.methods
  have hzero : 0 < c.methods.length := hlength ▸ Nat.zero_lt_one
  have hm : (Site.mk {} adder oddSum).Stored c.methods[0] q := hmethods 0 Nat.zero_lt_one hzero
  have hinfo : c.methods[0]? = some c.methods[0] := List.getElem?_eq_getElem hzero
  refine ⟨c, c.methods[0], hc, hinfo, ClassDecl.compile_recovered hc hinfo ?_ (.inl ?_)⟩
  · rw [hm.flags]
    decide
  · -- the text is that of the descriptor of the loop
    intro text htext
    rw [hstored.utf8?_eq.2 hm.descriptor] at htext
    cases htext
    decide

end Sample
end ClassForge
