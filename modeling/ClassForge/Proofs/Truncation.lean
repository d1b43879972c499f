/-
# Which compiled classes can be read back

Specification, section 8, *round-trip property*: where it ends.

The compiler bounds the number of constants, the length of the code and the room that a
method needs.  It does not look at the lengths of texts and lists, and the writer cuts a
length that is too long for its word.  So a compiled class is read back just if these
lengths fit (`ClassDecl.parse_compiled_iff`):

| length | known to fit |
| --- | --- |
| the number of constants | yes: the pool has room for no more |
| the text of a name, a descriptor, a string literal or the source file | no |
| the numbers of interfaces, fields and methods | no |
| the numbers of attributes | yes: there is one at most |
| the source file attribute | yes: it has two bytes |
| the code attribute of a method | if the text of its descriptor does |

Nothing is reported when a length does not fit.  A class without members whose source
file has a name of 65535 letters is read back, and with 65536 letters it is compiled all
the same, but what is read from its bytes is not this class.
-/

import ClassForge.Proofs.Recovery

namespace ClassForge

namespace ClassFile

/-- Constants that take one index each take as many as there are. -/
theorem totalWidth_eq_length {cs : List Constant} (h : ∀ c ∈ cs, c.width = 1) :
    totalWidth cs = cs.length := by
  induction cs with
  | nil => rfl
  | cons c cs ih =>
    rw [totalWidth, h c List.mem_cons_self, ih fun d hd => h d (List.mem_cons_of_mem c hd),
      List.length_cons, Nat.add_comm]

end ClassFile

/-! ### Lengths that fit in any case -/

namespace ClassDecl.Stored

variable {settings : Settings} {d : ClassDecl} {c : ClassFile} {q : ConstantPool}
  (h : d.Stored settings c q)

include h

theorem totalWidth_le : ClassFile.totalWidth c.constants ≤ 65534 := by
  rw [ClassFile.totalWidth_eq_length h.width_eq, h.constants]
  exact q.bounded

/-- The attributes of the class itself fit: there is one at most, with two bytes. -/
theorem attributes_fit : Attribute.AllFit c.attributes := by
  have hsource := h.attributes
  unfold StoredSource at hsource
  split at hsource
  · rw [hsource]
    exact ⟨by decide, fun a ha => absurd ha List.not_mem_nil⟩
  · obtain ⟨label, index, hone, -, -⟩ := hsource
    rw [hone]
    refine ⟨(by decide : 1 < 65536), fun a ha => ?_⟩
    obtain rfl := List.mem_singleton.1 ha
    exact (by decide : 2 < 4294967296)

theorem fields_fit (hfields : d.fields.length < 65536) : MemberInfo.AllFit c.fields := by
  refine ⟨h.fields.length_eq ▸ hfields, fun info hinfo => ?_⟩
  obtain ⟨f, -, hf⟩ := exists_of_forall₂ h.fields hinfo
  rw [hf.attributes]
  exact ⟨by decide, fun a ha => absurd ha List.not_mem_nil⟩

/-- Methods fit if they can be counted and their code fits. -/
theorem methods_fit (hmethods : d.methods.length < 65536)
    (hcode : ∀ info ∈ c.methods, ∀ a ∈ info.attributes, a.info.length < 4294967296) :
    MemberInfo.AllFit c.methods := by
  refine ⟨h.methods.length_eq ▸ hmethods, fun info hinfo => ⟨?_, hcode info hinfo⟩⟩
  obtain ⟨m, -, hm⟩ := exists_of_forall₂ h.methods hinfo
  have hattributes := hm.attributes
  unfold Site.StoredAttributes at hattributes
  split at hattributes
  · rw [hattributes]
    decide
  · obtain ⟨b, code, label, -, hone, -⟩ := hattributes
    rw [hone]
    exact (by decide : 1 < 65536)

theorem code_fits
    (htexts : ∀ text, Constant.utf8 text ∈ c.constants →
      (ModifiedUtf8.encode text).length < 65536) :
    ∀ info ∈ c.methods, ∀ a ∈ info.attributes, a.info.length < 4294967296 := by
  intro info hinfo
  obtain ⟨m, -, hm⟩ := exists_of_forall₂ h.methods hinfo
  refine hm.length_info_lt (htexts _ ?_)
  rw [h.constants]
  exact ConstantPool.mem_toList.2 ⟨info.descriptor, hm.descriptor⟩

end ClassDecl.Stored

/-- **Which compiled classes are read back.**  The bytes of a class that was compiled are
those of this class just if its texts are short enough, there are not too many
interfaces, fields and methods, and its code attributes are short enough; else a length
was cut, and nothing was reported.  The last condition follows from the first
(`ClassDecl.Stored.code_fits`). -/
theorem ClassDecl.parse_compiled_iff {settings : Settings} {d : ClassDecl} {c : ClassFile}
    (h : d.compile settings = .ok c) : ClassFile.parse c.write = .ok c ↔
      (∀ text, Constant.utf8 text ∈ c.constants → (ModifiedUtf8.encode text).length < 65536) ∧
      d.interfaces.length < 65536 ∧ d.fields.length < 65536 ∧ d.methods.length < 65536 ∧
      ∀ info ∈ c.methods, ∀ a ∈ info.attributes, a.info.length < 4294967296 := by
  obtain ⟨q, hstored⟩ := exists_stored h
  rw [ClassFile.parse_eq_ok]
  constructor
  · intro hread
    have hfits := ClassFile.fits_of_read hread
    exact ⟨fun text htext => hfits.texts _ htext, hstored.interfaces.length_eq ▸ hfits.interfaces,
      hstored.fields.length_eq ▸ hfits.fields.length,
      hstored.methods.length_eq ▸ hfits.methods.length,
      fun info hinfo => (hfits.methods.attributes info hinfo).info⟩
  · rintro ⟨htexts, hinterfaces, hfields, hmethods, hcode⟩
    refine ClassFile.Fits.read_write ?_
    exact
      { constants := hstored.totalWidth_le
        texts := fun k hk => by
          cases k with
          | utf8 text => exact htexts text hk
          | _ => trivial
        interfaces := hstored.interfaces.length_eq ▸ hinterfaces
        fields := hstored.fields_fit hfields
        methods := hstored.methods_fit hmethods hcode
        attributes := hstored.attributes_fit }

/-! ### A source file with a long name -/

/-- No other text is added with a class than its name. -/
theorem ConstantPool.text_of_className {name text : String} {p q : ConstantPool} {index i : UInt16}
    (h : className name p = .ok index q) (htext : q.get? i = some (.utf8 text)) :
    text = name ∨ p.get? i = some (.utf8 text) := by
  obtain ⟨label, p₁, hlabel, hclass⟩ := bind_eq_ok h
  rcases get?_of_intern hclass htext with heq | hold
  · cases heq
  · rcases get?_of_intern hlabel hold with heq | hold
    · cases heq
      exact .inl rfl
    · exact .inr hold

/-- No other text is added for a source file than its name and that of its attribute. -/
theorem ClassDecl.text_of_sourceFile {file text : String} {attributes : List Attribute}
    {p q : ConstantPool} {i : UInt16} (h : sourceFileAttributes (some file) p = .ok attributes q)
    (htext : q.get? i = some (.utf8 text)) :
    text = file ∨ text = SourceFile.label ∨ p.get? i = some (.utf8 text) := by
  obtain ⟨index, p₁, hindex, hrest⟩ := bind_eq_ok h
  obtain ⟨stored, p₂, hstored, hlast⟩ := bind_eq_ok hrest
  cases hlast
  obtain ⟨label, p₃, hlabel, hmade⟩ := bind_eq_ok (Interning.toCompiling_eq_ok hstored)
  cases hmade
  rcases ConstantPool.get?_of_intern hlabel htext with heq | hold
  · cases heq
    exact .inr (.inl rfl)
  · rcases ConstantPool.get?_of_intern (Interning.toCompiling_eq_ok hindex) hold with heq | hold
    · cases heq
      exact .inl rfl
    · exact .inr (.inr hold)

namespace Sample

/-- A class without members that was declared in the given file. -/
def declaredIn (file : String) : ClassDecl where
  name := ⟨"test/Sample", by decide⟩
  superClass := .object
  interfaces := []
  flags := ClassFlags.isPublic
  sourceFile := some file
  fields := []
  methods := []

theorem declaredIn_compiled (file : String) : ∃ c, (declaredIn file).compile {} = .ok c := by
  refine ClassDecl.compile_of_methods rfl rfl fun p hp => ⟨[], p, rfl, ?_⟩
  unfold ConstantPool.capacity
  omega

/-- The constants hold four texts. -/
theorem declaredIn_texts {file text : String} {c : ClassFile}
    (h : (declaredIn file).compile {} = .ok c) (htext : .utf8 text ∈ c.constants) :
    text ∈ ["test/Sample", "java/lang/Object", file, SourceFile.label] := by
  unfold ClassDecl.compile at h
  split at h
  · rename_i parts q hparts
    cases h
    obtain ⟨i, hi⟩ := ConstantPool.mem_toList.1 htext
    unfold ClassDecl.compileParts at hparts
    obtain ⟨thisClass, p₁, hthis, hrest⟩ := bind_eq_ok hparts
    obtain ⟨superClass, p₂, hsuper, hrest⟩ := bind_eq_ok hrest
    obtain ⟨interfaces, p₃, hinterfaces, hrest⟩ := bind_eq_ok hrest
    cases hinterfaces
    obtain ⟨fields, p₄, hfields, hrest⟩ := bind_eq_ok hrest
    cases hfields
    obtain ⟨methods, p₅, hmethods, hrest⟩ := bind_eq_ok hrest
    cases hmethods
    obtain ⟨attributes, p₆, hattributes, hrest⟩ := bind_eq_ok hrest
    cases hrest
    rcases ClassDecl.text_of_sourceFile hattributes hi with rfl | rfl | hi
    · simp
    · simp
    · rcases ConstantPool.text_of_className (Interning.toCompiling_eq_ok hsuper) hi with rfl | hi
      · simp [declaredIn, BinaryName.object]
      · rcases ConstantPool.text_of_className (Interning.toCompiling_eq_ok hthis) hi with rfl | hi
        · simp [declaredIn]
        · simp [ConstantPool.get?, ConstantPool.constantAt?, ConstantPool.empty] at hi
  · cases h

/-- The name of the file is among the constants. -/
theorem file_mem_constants {file : String} {c : ClassFile}
    (h : (declaredIn file).compile {} = .ok c) : .utf8 file ∈ c.constants := by
  obtain ⟨q, hstored⟩ := ClassDecl.exists_stored h
  have hsource : ClassDecl.StoredSource (some file) c.attributes q := hstored.attributes
  obtain ⟨label, index, -, -, hindex⟩ := hsource
  rw [hstored.constants]
  exact ConstantPool.mem_toList.2 ⟨index, hindex⟩

/-- The letter `a`, the given number of times. -/
def letters (n : Nat) : String := String.ofList (List.replicate n 'a')

/-- A text of letters takes a byte for each. -/
theorem length_encode_letters (n : Nat) : (ModifiedUtf8.encode (letters n)).length = n := by
  unfold ModifiedUtf8.encode letters
  rw [String.toList_ofList]
  induction n with
  | zero => rfl
  | succ n ih =>
    have hletter : ((ModifiedUtf8.charUnits 'a').flatMap ModifiedUtf8.unitBytes).length = 1 := by
      decide
    rw [List.replicate_succ, List.flatMap_cons, List.flatMap_append, List.length_append, ih,
      hletter, Nat.add_comm]

/-- A name of one letter less is short enough, and the class is read back. -/
theorem shortSource_read : ∃ c, (declaredIn (letters 65535)).compile {} = .ok c ∧
    ClassFile.parse c.write = .ok c := by
  obtain ⟨c, hc⟩ := declaredIn_compiled (letters 65535)
  have htexts : ∀ text, Constant.utf8 text ∈ c.constants →
      (ModifiedUtf8.encode text).length < 65536 := by
    intro text htext
    have hmem := declaredIn_texts hc htext
    simp only [List.mem_cons, List.not_mem_nil, or_false] at hmem
    rcases hmem with rfl | rfl | rfl | rfl
    · decide
    · decide
    · rw [length_encode_letters]
      exact Nat.lt_succ_self 65535
    · decide
  obtain ⟨q, hstored⟩ := ClassDecl.exists_stored hc
  have hnone : 0 < 65536 := by decide
  exact ⟨c, hc, (ClassDecl.parse_compiled_iff hc).2
    ⟨htexts, hnone, hnone, hnone, hstored.code_fits htexts⟩⟩

/-- The length of the name is cut, and the class is compiled all the same. -/
theorem longSource_not_read : ∃ c, (declaredIn (letters 65536)).compile {} = .ok c ∧
    ClassFile.parse c.write ≠ .ok c := by
  obtain ⟨c, hc⟩ := declaredIn_compiled (letters 65536)
  refine ⟨c, hc, fun hparse => ?_⟩
  have hfits := ClassFile.fits_of_read (ClassFile.parse_eq_ok.1 hparse)
  have hlength : (ModifiedUtf8.encode (letters 65536)).length < 65536 :=
    hfits.texts _ (file_mem_constants hc)
  rw [length_encode_letters] at hlength
  exact absurd hlength (Nat.lt_irrefl 65536)

end Sample
end ClassForge
