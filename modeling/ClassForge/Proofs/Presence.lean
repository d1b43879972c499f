/-
# Which methods have code

Specification, section 6: the method-body record, and which methods have one.

A class file holds the methods of its class in their order, each with its flags, its name
and its descriptor.  A method that is abstract has no code, and the code of a native one is
not in the class file.  So this is what should be there, and what is:

| method | due | there |
| --- | --- | --- |
| neither abstract nor native | its code | its code |
| abstract | nothing | nothing |
| native, not abstract | nothing | its code |

The compiler asks whether a method is abstract and nothing else, so the body of a native
method is compiled like any other (`ClassDecl.code_due_iff`).
-/

import ClassForge.Proofs.Recovery

namespace ClassForge

/-- The code of the method is not in the class file. -/
def MethodFlags.isNative : MethodFlags := .ofBits _ 0x0100

namespace MethodDecl

/-- Is the code of the method elsewhere? -/
def isNative (m : MethodDecl) : Bool := m.flags.contains MethodFlags.isNative

/-- The names of the attributes that the method should have. -/
def dueAttributes (m : MethodDecl) : List String :=
  if m.isAbstract || m.isNative then [] else [CodeAttribute.label]

end MethodDecl

namespace ClassFile

/-- The names of the attributes of a method, as far as they are found. -/
def attributeNames (c : ClassFile) (info : MethodInfo) : List (Option String) :=
  info.attributes.map fun a => c.utf8? a.name

/-- The class file holds the method with its flags, its name and its descriptor. -/
structure Declares (c : ClassFile) (m : MethodDecl) (info : MethodInfo) : Prop where
  flags : info.flags = m.flags
  name : c.utf8? info.name = some m.name.text
  descriptor : c.utf8? info.descriptor = some m.descriptor.render

end ClassFile

namespace ClassDecl

variable {settings : Settings} {d : ClassDecl} {c : ClassFile} {q : ConstantPool}
  {m : MethodDecl} {info : MethodInfo}

theorem Stored.declares (h : d.Stored settings c q)
    (hm : (Site.mk settings d m).Stored info q) : c.Declares m info where
  flags := hm.flags
  name := h.utf8?_eq.2 hm.name
  descriptor := h.utf8?_eq.2 hm.descriptor

/-- Only an abstract method is without code. -/
theorem Stored.attributeNames_eq (h : d.Stored settings c q)
    (hm : (Site.mk settings d m).Stored info q) :
    c.attributeNames info = if m.isAbstract then [] else [some CodeAttribute.label] := by
  have hattributes := hm.attributes
  unfold Site.StoredAttributes at hattributes
  unfold ClassFile.attributeNames
  split at hattributes
  · rename_i habstract
    rw [hattributes, if_pos habstract]
    rfl
  · rename_i hcode
    obtain ⟨b, code, label, -, hone, hlabel⟩ := hattributes
    rw [hone, if_neg hcode, List.map_singleton, h.utf8?_eq.2 hlabel]

theorem eq_dueAttributes_iff (m : MethodDecl) :
    (if m.isAbstract then [] else [some CodeAttribute.label]) = m.dueAttributes.map some ↔
      (m.isNative = true → m.isAbstract = true) := by
  unfold MethodDecl.dueAttributes
  cases m.isAbstract <;> cases m.isNative <;> simp

/-- **Every method is declared, and only an abstract one is without code.**  The methods of a
class that was compiled are those of the declaration, in their order, with their flags,
names and descriptors.  An abstract method has no attributes and any other has its code and
nothing else, which is what is due unless the method is native and not abstract. -/
theorem code_due_iff (h : d.compile settings = .ok c) :
    List.Forall₂ (fun m info => c.Declares m info ∧
        c.attributeNames info = (if m.isAbstract then [] else [some CodeAttribute.label]) ∧
        (c.attributeNames info = m.dueAttributes.map some ↔
          (m.isNative = true → m.isAbstract = true)))
      d.methods c.methods := by
  obtain ⟨q, hstored⟩ := exists_stored h
  refine hstored.methods.imp fun m info hm => ?_
  have hnames := hstored.attributeNames_eq hm
  refine ⟨hstored.declares hm, hnames, ?_⟩
  rw [hnames]
  exact eq_dueAttributes_iff m

end ClassDecl

namespace Sample

/-- The method of the class with a loop has its code, as is due. -/
theorem adder_has_due : ∃ c info, adder.compile {} = .ok c ∧ c.methods = [info] ∧
    c.Declares oddSum info ∧ oddSum.dueAttributes = [CodeAttribute.label] ∧
    c.attributeNames info = [some CodeAttribute.label] := by
  obtain ⟨c, hc⟩ := adder_compiled
  obtain ⟨info, rest, ⟨hdeclares, -, hdue⟩, hrest, hmethods⟩ :=
    List.forall₂_cons_left_iff.1 (ClassDecl.code_due_iff hc)
  cases hrest
  exact ⟨c, info, hc, hmethods, hdeclares, by decide, hdue.2 (by decide)⟩

/-- A native method, whose body is empty. -/
def nativeMethod : MethodDecl where
  name := .append
  flags := MethodFlags.isStatic.union MethodFlags.isNative
  parameters := []
  returns := none
  body := []

/-- A class whose only method is native. -/
def nativeOnly : ClassDecl := { adder with methods := [nativeMethod] }

/-- A class with nothing but a native method is compiled: its method has a body like any
other. -/
theorem nativeOnly_compiled : ∃ c, nativeOnly.compile {} = .ok c := by
  refine ClassDecl.compile_of_methods rfl rfl fun p hp => ?_
  have hcontained : (Site.mk {} nativeOnly nativeMethod).isSelfContained = true := by
    decide +kernel
  obtain ⟨info, q, hcompile, hq⟩ := Site.compile_of_isSelfContained hcontained (by decide) (p := p)
    (by unfold ConstantPool.capacity; omega)
  refine ⟨[info], q, ?_, by unfold ConstantPool.capacity; omega⟩
  change ClassDecl.compileMethods {} nativeOnly [] [] [nativeMethod] p = _
  unfold ClassDecl.compileMethods
  rw [hcompile]
  rfl

/-- Nothing is due of the native method, and yet its code is there. -/
theorem nativeOnly_has_more : ∃ c info, nativeOnly.compile {} = .ok c ∧ c.methods = [info] ∧
    nativeMethod.dueAttributes = [] ∧ c.attributeNames info = [some CodeAttribute.label] := by
  obtain ⟨c, hc⟩ := nativeOnly_compiled
  obtain ⟨q, hstored⟩ := ClassDecl.exists_stored hc
  obtain ⟨info, rest, hm, hrest, hmethods⟩ := List.forall₂_cons_left_iff.1 hstored.methods
  cases hrest
  exact ⟨c, info, hc, hmethods, by decide, hstored.attributeNames_eq hm⟩

end Sample
end ClassForge
