/-
# A compiled class refers only to what is there

Specification, section 6: indices lead to the constants that they need.

A class file is full of indices of constants.  In a class that was compiled every one
of them is the index of a constant, of the kind that is asked for where it stands, as
`ClassFile.constant?` finds it:

| where the index stands | what is found |
| --- | --- |
| in a constant | what the constant is made of (`Constant.Linked`) |
| this class, the superclass, the interfaces | classes with the declared names |
| in a field or a method | its declared name and its descriptor |
| in an attribute | the text of its name |
| in the source file attribute | the text of the declared file |
| in an instruction | what the instruction works on (`Opcode.Linked`) |
| in a frame of a stack map, as the class of an object | a class |

Constants and instructions are linked while the class is compiled
(`ClassForge.Proofs.Links`), and constants keep their indices until it is stored, so
what is left is to follow them through the finished file.
-/

import ClassForge.Proofs.Recovery

namespace ClassForge

/-! ### What a class file has -/

/-- A stored frame names classes; `has` says which indices are of which kind. -/
def StoredFrame.Linked (has : ConstantKind → UInt16 → Prop) (s : StoredFrame) : Prop :=
  ∀ index, (.object index : StoredType) ∈ s.locals ++ s.stack → has .classRef index

namespace ClassFile

/-- A constant of the given kind is found under the index. -/
def Has (c : ClassFile) (kind : ConstantKind) (index : UInt16) : Prop :=
  ∃ k, c.constant? index = some k ∧ kind.admits k = true

/-- A field or method with the given name and descriptor, whose attributes have
names. -/
structure HasMember (c : ClassFile) {o : FlagOwner} (name descriptor : String)
    (info : MemberInfo o) : Prop where
  name : c.utf8? info.name = some name
  descriptor : c.utf8? info.descriptor = some descriptor
  attributes : ∀ a ∈ info.attributes, c.Has .text a.name

/-- The code of a method can be taken apart, and each of its instructions, attributes
and frames refers to what is there. -/
structure HasCode (c : ClassFile) (info : MethodInfo) (code : CodeAttribute) : Prop where
  handlers : code.handlers = []
  attributes : ∀ a ∈ code.attributes, c.Has .text a.name
  instructions : ∃ items, Disassembly.items code.code = .ok items ∧
    ∀ item ∈ items, item.opcode.Linked c.Has item.operands
  frames : ∃ entry table?, c.entryFrame info = .ok entry ∧ entry.Linked c.Has ∧
    c.stackMap? code = .ok table? ∧ ∀ table ∈ table?, ∃ frames,
      StackMap.expand entry table = .ok frames ∧ ∀ s ∈ frames, s.2.Linked c.Has

/-- A method has no attributes if it is abstract.  Else its only attribute is its code,
and no other code is read from it. -/
def HasBody (c : ClassFile) (info : MethodInfo) : Prop :=
  if info.flags.contains MethodFlags.isAbstract then info.attributes = []
  else ∃ label code, info.attributes = [⟨label, CodeAttribute.write code⟩] ∧
    c.utf8? label = some CodeAttribute.label ∧ c.HasCode info code ∧
    ∀ read, c.methodCode? info = .ok (some read) → read = code

/-- Everything that the class file of a declaration refers to is there. -/
structure Intact (c : ClassFile) (settings : Settings) (d : ClassDecl) : Prop where
  constants : ∀ k ∈ c.constants, k.Linked c.Has
  thisClass : c.className? c.thisClass = some d.name.text
  superClass : c.className? c.superClass = some d.superClass.text
  interfaces : c.interfaces.map c.className? = d.interfaces.map fun name => some name.text
  fields : List.Forall₂ (fun f => c.HasMember (FieldDecl.name f).text f.type.render) d.fields
    c.fields
  methods : List.Forall₂ (fun m => c.HasMember (MethodDecl.name m).text m.descriptor.render)
    d.methods c.methods
  bodies : ∀ info ∈ c.methods, c.HasBody info
  attributes : ∀ a ∈ c.attributes, c.Has .text a.name
  sourceFile : ∃ index?, c.sourceFile? = .ok index? ∧
    index?.map c.utf8? = (settings.sourceFile <|> d.sourceFile).map some

end ClassFile

/-! ### Following the indices -/

/-- The classes in a stored frame are class constants, in every pool that keeps those with
which it was stored. -/
theorem Frame.StoredAs.linked {q : ConstantPool} {offsetOf : Nat → UInt16} {f : Frame}
    {s : StoredFrame} (h : f.StoredAs q offsetOf s) : s.Linked q.Has := by
  have hnames : ∀ {types : List FrameType} {stored : List StoredType} {index : UInt16},
      List.Forall₂ (VerificationType.StoredAs q offsetOf) types stored → .object index ∈ stored →
        q.Has .classRef index := by
    intro types stored index hstored hmem
    obtain ⟨type, -, hobject⟩ := exists_of_forall₂ hstored hmem
    cases hobject with
    | object hindex => exact hindex.has
  intro index hmem
  rcases List.mem_append.1 hmem with hmem | hmem
  · exact hnames h.locals hmem
  · exact hnames h.stack hmem

/-- What is read out of linked code is linked. -/
theorem Body.ReadsBack.linked {b : Body} {items : List CodeItem} (h : b.ReadsBack items)
    {has : ConstantKind → UInt16 → Prop}
    (hlinked : ∀ i ∈ b.instructions, i.opcode.Linked has i.operands) :
    ∀ item ∈ items, item.opcode.Linked has item.operands := by
  intro item hitem
  obtain ⟨i, hi, hopcode, hplain, -⟩ := h.exists_instruction hitem
  rw [hopcode]
  by_cases hbranch : i.opcode.effect.isBranch = true
  · exact Opcode.linked_of_none (Opcode.constantKind_branch hbranch) has _
  · rw [hplain (Bool.not_eq_true _ ▸ hbranch)]
    exact hlinked i hi

/-- The attribute of a method has a name. -/
theorem Site.Stored.text_attributes {site : Site} {info : MethodInfo} {q : ConstantPool}
    (hm : site.Stored info q) :
    ∀ a ∈ info.attributes, ∃ label, q.get? a.name = some (.utf8 label) := by
  intro a ha
  have hattributes := hm.attributes
  unfold Site.StoredAttributes at hattributes
  split at hattributes
  · rw [hattributes] at ha
    cases ha
  · obtain ⟨b, code, label, -, hone, hlabel⟩ := hattributes
    rw [hone, List.mem_singleton] at ha
    subst ha
    exact ⟨_, hlabel⟩

namespace ClassDecl.Stored

variable {settings : Settings} {d : ClassDecl} {c : ClassFile} {q : ConstantPool}
  (h : d.Stored settings c q)

include h

/-- The class file has what the pool has. -/
theorem has_eq : c.Has = q.Has := by
  funext kind index
  unfold ClassFile.Has ConstantPool.Has
  rw [h.constant?_eq]

theorem has_text {index : UInt16} {s : String} (hs : q.get? index = some (.utf8 s)) :
    c.Has .text index := by
  rw [h.has_eq]
  exact ⟨_, hs, rfl⟩

theorem className?_eq {index : UInt16} {name : String} (hn : q.Names index name) :
    c.className? index = some name := by
  obtain ⟨text, hindex, htext⟩ := hn
  unfold ClassFile.className?
  rw [h.constant?_eq, hindex]
  exact h.utf8?_eq.2 htext

/-- **The code of a method refers to what is there.** Its instructions, its attributes and
its frames name constants of the class that have the kinds which are needed, and it has no
handlers. -/
theorem hasCode {m : MethodDecl} {info : MethodInfo} {b : Body} {code : CodeAttribute}
    (hm : (Site.mk settings d m).Stored info q) (hwrites : (Site.mk settings d m).Writes b code q) :
    c.HasCode info code := by
  obtain ⟨pool, a, r, length, entry, frames, hbuilt, hfinish, hlinked, hgrows, hr, hs, hstart⟩ :=
    hwrites.finished
  have hclosed := Body.closed_of_finish hbuilt hfinish
  have hinstructions : b.instructions = a.instructions :=
    (Assembler.finish_eq_ok hfinish).2.2.1
  have hincreasing := Body.offsets_increasing hbuilt hfinish hr hs
  have hmap := h.stackMap?_eq hs (Body.length_frames_lt hbuilt hfinish hr hs)
    (Body.frames_fit hbuilt hfinish hr hs rfl)
  exact
    { handlers := hs.handlers
      attributes := fun stored hstored => by
        have hattributes := hs.attributes
        unfold Body.StoredFrames at hattributes
        split at hattributes
        · rw [hattributes] at hstored
          cases hstored
        · obtain ⟨name, info, hone, hname, -⟩ := hattributes
          rw [hone, List.mem_singleton] at hstored
          subst hstored
          exact h.has_text hname
      instructions := by
        refine ⟨_, ?_, (hclosed.readsBack hr).linked fun i hi => ?_⟩
        · rw [hs.bytes]
          exact hr.items hclosed.labelled
        · rw [h.has_eq]
          rw [hinstructions] at hi
          exact (hlinked.instructions i hi).mono hgrows.has
      frames := by
        refine ⟨entry, _, h.entryFrame_eq hm (hstart ▸ hs.start), ?_, hmap, fun table htable => ?_⟩
        · rw [h.has_eq]
          exact hs.start.linked
        · split at htable
          · cases htable
          · cases htable
            refine ⟨frames, StackMap.expand_compress hincreasing entry, fun s hsmem => ?_⟩
            obtain ⟨number, f, -, -, hstored⟩ := Body.recorded_of_mem hr hs hsmem
            rw [h.has_eq]
            exact hstored.linked }

/-- **Every method has its code**, unless it is abstract. The code is the only attribute,
and what is read from the class as the code of this method is this code. -/
theorem hasBody {m : MethodDecl} {info : MethodInfo}
    (hm : (Site.mk settings d m).Stored info q) : c.HasBody info := by
  have hattributes := hm.attributes
  unfold Site.StoredAttributes at hattributes
  have hflags : info.flags.contains MethodFlags.isAbstract = m.isAbstract := by
    rw [hm.flags]
    rfl
  unfold ClassFile.HasBody
  rw [hflags]
  cases habstract : m.isAbstract with
  | true =>
    rw [if_pos habstract] at hattributes
    exact hattributes
  | false =>
    rw [if_neg (by simp [habstract])] at hattributes
    obtain ⟨b, code, label, hwrites, hone, hlabel⟩ := hattributes
    have hname := h.utf8?_eq.2 hlabel
    refine ⟨label, code, hone, hname, h.hasCode hm hwrites, fun read hread => ?_⟩
    obtain ⟨pool, a, r, length, entry, frames, hbuilt, hfinish, -, -, hr, hs, -⟩ :=
      hwrites.finished
    have hbytes : code.code.length < 4294967296 := by
      have hle := hr.length_code_le (Body.closed_of_finish hbuilt hfinish)
      rw [hs.bytes]
      omega
    unfold ClassFile.methodCode? at hread
    rw [hone] at hread
    exact CodeAttribute.eq_of_ofInfo_write hbytes (by simp [hs.handlers]) hs.length_attributes_le
      ((ClassFile.findAttribute?_single hname).1 hread)

theorem hasMember {o : FlagOwner} {info : MemberInfo o} {name descriptor : String}
    (hname : q.get? info.name = some (.utf8 name))
    (hdescriptor : q.get? info.descriptor = some (.utf8 descriptor))
    (hattributes : ∀ a ∈ info.attributes, ∃ label, q.get? a.name = some (.utf8 label)) :
    c.HasMember name descriptor info where
  name := h.utf8?_eq.2 hname
  descriptor := h.utf8?_eq.2 hdescriptor
  attributes a ha := by
    obtain ⟨label, hlabel⟩ := hattributes a ha
    exact h.has_text hlabel

/-- **The source file is found under its index.** -/
theorem source_eq : (∀ a ∈ c.attributes, c.Has .text a.name) ∧
    ∃ index?, c.sourceFile? = .ok index? ∧
      index?.map c.utf8? = (settings.sourceFile <|> d.sourceFile).map some := by
  have hsource := h.attributes
  unfold ClassFile.sourceFile?
  generalize (settings.sourceFile <|> d.sourceFile) = file at hsource ⊢
  unfold StoredSource at hsource
  split at hsource
  · rw [hsource]
    exact ⟨fun a ha => absurd ha List.not_mem_nil, none, rfl, rfl⟩
  · rename_i file
    obtain ⟨label, index, hone, hlabel, hindex⟩ := hsource
    rw [hone]
    refine ⟨fun a ha => ?_, some index, ?_, ?_⟩
    · obtain rfl := List.mem_singleton.1 ha
      exact h.has_text hlabel
    · exact (ClassFile.findAttribute?_single (h.utf8?_eq.2 hlabel)).2
        ((Reader.reads_u16 index).whole SourceFile.label)
    · rw [Option.map_some, Option.map_some, h.utf8?_eq.2 hindex]

end ClassDecl.Stored

/-- **A compiled class refers only to what is there.**  Every index in the class file of a
class that was compiled is found, and what is found is of the kind that is asked for:
in its constants, its names and descriptors, its attributes, the instructions that its
code is taken apart into, and the frames that its stack maps play back as. -/
theorem ClassDecl.compile_intact {settings : Settings} {d : ClassDecl} {c : ClassFile}
    (h : d.compile settings = .ok c) : c.Intact settings d := by
  obtain ⟨q, hstored⟩ := exists_stored h
  obtain ⟨hattributes, hsource⟩ := hstored.source_eq
  exact
    { constants := fun k hk => by
        rw [hstored.constants] at hk
        obtain ⟨index, hindex⟩ := ConstantPool.mem_toList.1 hk
        rw [hstored.has_eq]
        exact hstored.linked index k hindex
      thisClass := hstored.className?_eq hstored.thisClass
      superClass := hstored.className?_eq hstored.superClass
      interfaces := by
        have hnames := hstored.interfaces.imp fun name index hn => hstored.className?_eq hn
        rw [← List.forall₂_eq_eq_eq, List.forall₂_map_left_iff, List.forall₂_map_right_iff]
        exact hnames.flip
      fields := hstored.fields.imp fun f info hf =>
        hstored.hasMember hf.name hf.descriptor (by simp [hf.attributes])
      methods := hstored.methods.imp fun m info hm =>
        hstored.hasMember hm.name hm.descriptor hm.text_attributes
      bodies := fun info hinfo => by
        obtain ⟨m, -, hm⟩ := exists_of_forall₂ hstored.methods hinfo
        exact hstored.hasBody hm
      attributes := hattributes
      sourceFile := hsource }

/-- The class with a loop refers only to what is there. -/
theorem Sample.adder_intact : ∃ c, adder.compile {} = .ok c ∧ c.Intact {} adder := by
  obtain ⟨c, hc⟩ := adder_compiled
  exact ⟨c, hc, ClassDecl.compile_intact hc⟩

end ClassForge
