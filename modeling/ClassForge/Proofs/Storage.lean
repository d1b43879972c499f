/-
# What is stored of a method

The code of a method is stored with indices of constants in place of names.  Since
a constant keeps its index, what an index stands for is still true in the finished
class: `Yields x P` says that what `x` yields has the property `P`, whatever
constants are added later.

| what is asked for | what its index stands for |
| --- | --- |
| a constant | the constant |
| a class | a class constant with the text of the name |
| a frame | the frame, type by type (`Frame.StoredAs`) |
| a body | its instructions laid out, and a stack map of its frames (`Body.Stored`) |
-/

import ClassForge.Compiler
import ClassForge.Proofs.Layout
import ClassForge.Proofs.Orderly
import Mathlib.Data.List.Forall2

namespace ClassForge

variable {p q : ConstantPool}

/-! ### Computations that add constants

What a computation `Yields` is added up along sequences and lists. -/

namespace ConstantPool

variable {ε ε' α β : Type} {P : α → ConstantPool → Prop} {x : EStateM ε ConstantPool α}

/-- What the computation yields has a property in every class that keeps the
constants. -/
def Yields (x : EStateM ε ConstantPool α) (P : α → ConstantPool → Prop) : Prop :=
  ∀ (p : ConstantPool) (v : α) (q : ConstantPool), x p = .ok v q →
    p.Grows q ∧ ∀ r, q.Grows r → P v r

theorem yields_pure {v : α} (h : ∀ q, P v q) : Yields (pure v : EStateM ε ConstantPool α) P := by
  intro p w q hw
  cases hw
  exact ⟨.refl p, fun r _ => h r⟩

theorem yields_throw (e : ε) : Yields (throw e : EStateM ε ConstantPool α) P :=
  fun _ _ _ h => nomatch h

theorem Yields.bind {Q : β → ConstantPool → Prop} {f : α → EStateM ε ConstantPool β}
    (hx : Yields x P) (hf : ∀ v, Yields (f v) fun w q => P v q → Q w q) : Yields (x >>= f) Q := by
  intro p w r h
  obtain ⟨v, q, hv, h⟩ := bind_eq_ok h
  obtain ⟨hpq, hP⟩ := hx p v q hv
  obtain ⟨hqr, hQ⟩ := hf v q w r h
  exact ⟨hpq.trans hqr, fun s hs => hQ s hs (hP s (hqr.trans hs))⟩

/-- Less may be said of what is yielded. -/
theorem Yields.imp {Q : α → ConstantPool → Prop} (h : Yields x P) (hPQ : ∀ v q, P v q → Q v q) :
    Yields x Q := by
  intro p v q hv
  obtain ⟨hgrows, hP⟩ := h p v q hv
  exact ⟨hgrows, fun r hr => hPQ v r (hP r hr)⟩

theorem Yields.adaptExcept (h : Yields x P) (f : ε → ε') : Yields (x.adaptExcept f) P := by
  intro p v q hv
  exact h p v q (adaptExcept_eq_ok.1 hv)

/-- The items of a list, one after the other. -/
theorem yields_mapM {f : α → EStateM ε ConstantPool β} {R : α → β → ConstantPool → Prop}
    {xs : List α} (h : ∀ x ∈ xs, Yields (f x) (R x)) :
    Yields (xs.mapM f) fun ys q => List.Forall₂ (fun x y => R x y q) xs ys := by
  induction xs with
  | nil =>
    rw [List.mapM_nil]
    exact yields_pure fun q => .nil
  | cons x xs ih =>
    rw [List.mapM_cons]
    refine (h x List.mem_cons_self).bind fun y => ?_
    refine (ih fun z hz => h z (List.mem_cons_of_mem x hz)).bind fun ys => ?_
    exact yields_pure fun q hys hy => .cons hy hys

theorem yields_intern (c : Constant) : Yields (intern c) fun index q => q.get? index = some c := by
  intro p index q h
  obtain ⟨hgrows, hget⟩ := intern_eq_ok h
  exact ⟨hgrows, fun r hr => hr index c hget⟩

/-- A constant has an index if there is room for one more. -/
theorem intern_of_room (c : Constant) {p : ConstantPool} (h : p.size < capacity) :
    ∃ index q, intern c p = .ok index q ∧ q.size ≤ p.size + 1 := by
  unfold intern
  split
  · exact ⟨_, p, rfl, Nat.le_add_right _ _⟩
  · split
    · rename_i hfull
      exact absurd hfull (Nat.not_lt.2 h)
    · refine ⟨_, _, rfl, ?_⟩
      simp [size]

/-- The index is that of a class with the given name. -/
def Names (q : ConstantPool) (index : UInt16) (name : String) : Prop :=
  ∃ text, q.get? index = some (.classRef text) ∧ q.get? text = some (.utf8 name)

theorem yields_className (name : String) :
    Yields (className name) fun index q => q.Names index name :=
  (yields_intern (.utf8 name)).bind fun text => (yields_intern (.classRef text)).imp
    fun _ _ hindex htext => ⟨text, hindex, htext⟩

/-- A class has an index if there is room for it and its name. -/
theorem className_of_room (name : String) {p : ConstantPool} (h : p.size + 2 ≤ capacity) :
    ∃ index q, className name p = .ok index q ∧ q.size ≤ p.size + 2 := by
  obtain ⟨text, p₁, htext, hp₁⟩ := intern_of_room (.utf8 name) (p := p) (by omega)
  obtain ⟨index, p₂, hindex, hp₂⟩ := intern_of_room (.classRef text) (p := p₁) (by omega)
  refine ⟨index, p₂, ?_, by omega⟩
  unfold className
  rw [bind_of_ok (v := text) (t := p₁) (by simp only [ConstantPool.utf8, htext])]
  exact hindex

end ConstantPool

/-! ### Frames -/

open ConstantPool

/-- The stored form of a type, among the given constants. -/
inductive VerificationType.StoredAs (q : ConstantPool) (offsetOf : Nat → UInt16) :
    FrameType → StoredType → Prop where
  | top : StoredAs q offsetOf .top .top
  | integer : StoredAs q offsetOf .integer .integer
  | float : StoredAs q offsetOf .float .float
  | null : StoredAs q offsetOf .null .null
  | uninitializedThis : StoredAs q offsetOf .uninitializedThis .uninitializedThis
  | object {type : RefType} {index : UInt16} (h : q.Names index type.className) :
    StoredAs q offsetOf (.object type) (.object index)
  | uninitialized (origin : Nat) :
    StoredAs q offsetOf (.uninitialized origin) (.uninitialized (offsetOf origin))

/-- The stored form of a frame, among the given constants. -/
structure Frame.StoredAs (q : ConstantPool) (offsetOf : Nat → UInt16) (f : Frame)
    (s : StoredFrame) : Prop where
  locals : List.Forall₂ (VerificationType.StoredAs q offsetOf) f.locals s.locals
  stack : List.Forall₂ (VerificationType.StoredAs q offsetOf) f.stack.reverse s.stack

theorem VerificationType.yields_store (offsetOf : Nat → UInt16) (t : FrameType) :
    Yields (t.store offsetOf) fun s q => t.StoredAs q offsetOf s := by
  cases t with
  | top => exact yields_pure fun q => .top
  | integer => exact yields_pure fun q => .integer
  | float => exact yields_pure fun q => .float
  | null => exact yields_pure fun q => .null
  | uninitializedThis => exact yields_pure fun q => .uninitializedThis
  | object type =>
    exact (yields_className type.className).bind fun index => yields_pure fun q h => .object h
  | uninitialized origin => exact yields_pure fun q => .uninitialized origin

theorem Frame.yields_store (offsetOf : Nat → UInt16) (f : Frame) :
    Yields (f.store offsetOf) fun s q => f.StoredAs q offsetOf s :=
  (yields_mapM fun t _ => t.yields_store offsetOf).bind fun _ =>
    (yields_mapM fun t _ => t.yields_store offsetOf).bind fun _ =>
      yields_pure fun _ hstack hlocals => ⟨hlocals, hstack⟩

/-! ### Bodies -/

namespace Body

/-- The attributes that hold the frames: none if nothing is branched to, else the
table of the frames with their offsets. -/
def StoredFrames (entry : StoredFrame) (frames : List (UInt16 × StoredFrame))
    (attributes : List Attribute) (q : ConstantPool) : Prop :=
  if frames = [] then attributes = []
  else ∃ name info, attributes = [⟨name, info⟩] ∧ q.get? name = some (.utf8 StackMap.label) ∧
    (StackMap.compress entry frames).write = .ok info

theorem yields_stackMapAttributes (entry : StoredFrame) (frames : List (UInt16 × StoredFrame)) :
    Yields (stackMapAttributes entry frames) fun attributes q =>
      StoredFrames entry frames attributes q := by
  unfold stackMapAttributes StoredFrames
  cases frames with
  | nil => exact yields_pure fun q => rfl
  | cons frame frames =>
    refine ((yields_intern (.utf8 StackMap.label)).adaptExcept Fault.poolOverflow).bind
      fun name => ?_
    split
    · rename_i info hinfo
      exact yields_pure fun q hname => ⟨name, info, rfl, hname, hinfo⟩
    · exact yields_throw _

/-- The code attribute of a body that is laid out. -/
structure Stored (b : Body) (length : Nat) (code : CodeAttribute) (entry : StoredFrame)
    (frames : List (UInt16 × StoredFrame)) (q : ConstantPool) : Prop where
  maxStack : code.maxStack.toNat = b.maxStack
  maxLocals : code.maxLocals.toNat = b.maxLocals
  bytes : code.code = b.code
  handlers : code.handlers = []
  start : b.entry.StoredAs q b.originOffset entry
  each : List.Forall₂ (fun (frame : Nat × Frame) (s : UInt16 × StoredFrame) =>
      s.1 = UInt16.ofNat ((b.offset? frame.1).getD length) ∧
        frame.2.StoredAs q b.originOffset s.2) b.frames.toList frames
  attributes : StoredFrames entry frames code.attributes q

/-- A body that is laid out is stored as said, with its frames in the order of their
offsets. -/
theorem yields_storeResolved (b : Body) (length : Nat) :
    Yields (b.storeResolved length) fun code q =>
      ∃ entry frames, b.Stored length code entry frames q := by
  unfold storeResolved
  split
  · exact yields_throw _
  rename_i hstack
  split
  · exact yields_throw _
  rename_i hlocals
  refine ((b.entry.yields_store b.originOffset).adaptExcept _).bind fun entry => ?_
  have hframe : ∀ frame : Nat × Frame, Yields (b.storeFrame length frame) fun s q =>
      s.1 = UInt16.ofNat ((b.offset? frame.1).getD length) ∧
        frame.2.StoredAs q b.originOffset s.2 := fun frame =>
    (frame.2.yields_store b.originOffset).bind fun s => yields_pure fun q h => ⟨rfl, h⟩
  refine ((yields_mapM fun frame _ => hframe frame).adaptExcept _).bind fun frames => ?_
  refine (yields_stackMapAttributes entry frames).bind fun attributes => ?_
  refine yields_pure fun q hattributes hframes hentry => ⟨entry, frames, ?_⟩
  exact
    { maxStack := UInt16.toNat_ofNat'.trans (Nat.mod_eq_of_lt (Nat.lt_of_not_le hstack))
      maxLocals := UInt16.toNat_ofNat'.trans (Nat.mod_eq_of_lt (Nat.lt_of_not_le hlocals))
      bytes := rfl
      handlers := rfl
      start := hentry
      each := hframes
      attributes := hattributes }

/-- **The code attribute of a body** holds its instructions, laid out, and its
frames. -/
theorem yields_store (b : Body) :
    Yields b.store fun code q => ∃ c length entry frames, b.Resolved c length ∧
      c.Stored length code entry frames q := by
  intro p code q h
  unfold store at h
  split at h
  · rename_i length c hc
    obtain ⟨hgrows, hstored⟩ := yields_storeResolved c length p code q h
    refine ⟨hgrows, fun r hr => ?_⟩
    obtain ⟨entry, frames, hstored⟩ := hstored r hr
    exact ⟨c, length, entry, frames, resolve_eq_ok hc, hstored⟩
  · cases h

/-- A body that is laid out is stored if its frames are and there is room for the
name of their table. -/
theorem store_of_ok {b c : Body} {length : Nat} {p p₁ p₂ : ConstantPool} {entry : StoredFrame}
    {frames : List (UInt16 × StoredFrame)} {info : Bytes} (hresolve : resolve b = .ok length c)
    (hstack : c.maxStack < 65536) (hlocals : c.maxLocals < 65536)
    (hentry : c.entry.store c.originOffset p = .ok entry p₁)
    (hframes : c.frames.toList.mapM (c.storeFrame length) p₁ = .ok frames p₂)
    (hwrite : (StackMap.compress entry frames).write = .ok info) (hroom : p₂.size < capacity) :
    ∃ code q, b.store p = .ok code q ∧ q.size ≤ p₂.size + 1 := by
  obtain ⟨index, q, hindex, hsize⟩ := intern_of_room (.utf8 StackMap.label) hroom
  have hattributes : ∃ attributes q, stackMapAttributes entry frames p₂ = .ok attributes q ∧
      q.size ≤ p₂.size + 1 := by
    unfold stackMapAttributes
    cases frames with
    | nil => exact ⟨[], p₂, rfl, Nat.le_add_right _ _⟩
    | cons frame frames =>
      have hname : (ConstantPool.utf8 StackMap.label).toStoring p₂ = .ok index q :=
        adaptExcept_eq_ok.2 hindex
      rw [if_neg (by simp), bind_of_ok hname, hwrite]
      exact ⟨_, q, rfl, hsize⟩
  obtain ⟨attributes, q, hattributes, hsize⟩ := hattributes
  have hstored : (c.entry.store c.originOffset).toStoring p = .ok entry p₁ :=
    adaptExcept_eq_ok.2 hentry
  have hlisted : (c.frames.toList.mapM (c.storeFrame length)).toStoring p₁ = .ok frames p₂ :=
    adaptExcept_eq_ok.2 hframes
  unfold store storeResolved
  simp only [hresolve]
  rw [if_neg (Nat.not_le.2 hstack), if_neg (Nat.not_le.2 hlocals), bind_of_ok hstored,
    bind_of_ok hlisted, bind_of_ok hattributes]
  exact ⟨_, q, rfl, hsize⟩

end Body

/-! ### Methods -/

theorem Attribute.yields_make (name : String) (info : Bytes) :
    Yields (Attribute.make name info) fun stored q =>
      ∃ label, stored = ⟨label, info⟩ ∧ q.get? label = some (.utf8 name) :=
  (yields_intern (.utf8 name)).bind fun label => yields_pure fun _ h => ⟨label, rfl, h⟩

theorem Interning.toCompiling_of_ok {α : Type} {x : Interning α} {v : α} (h : x p = .ok v q) :
    x.toCompiling p = .ok v q :=
  adaptExcept_eq_ok.2 h

theorem Interning.toCompiling_eq_ok {α : Type} {x : Interning α} {v : α}
    (h : x.toCompiling p = .ok v q) : x p = .ok v q :=
  adaptExcept_eq_ok.1 h

/-- An attribute whose name is added is made. -/
theorem Attribute.make_of_ok {name : String} {label : UInt16}
    (h : intern (.utf8 name) p = .ok label q) (info : Bytes) :
    (Attribute.make name info).toCompiling p = .ok ⟨label, info⟩ q := by
  refine Interning.toCompiling_of_ok ?_
  unfold Attribute.make ConstantPool.utf8
  rw [bind_of_ok h]
  rfl

/-- Assembling the statements of a method ends in `a`, which is finished as `b`. -/
def Site.Assembles (site : Site) (a : Assembler) (b : Body) : Prop :=
  ∃ pool slots slots', site.slots = .ok slots ∧
    site.lower slots (Assembler.start pool site.entry) = .ok ((), slots') a ∧ a.finish = .ok b

/-- How a method with code is stored. -/
structure MethodInfo.Describes (info : MethodInfo) (m : MethodDecl) (code : CodeAttribute)
    (q : ConstantPool) : Prop where
  flags : info.flags = m.flags
  name : q.get? info.name = some (.utf8 m.name.text)
  descriptor : q.get? info.descriptor = some (.utf8 m.descriptor.render)
  attributes : ∃ label, info.attributes = [⟨label, code.write⟩] ∧
    q.get? label = some (.utf8 CodeAttribute.label)

namespace Site

variable (site : Site)

theorem Assembles.built {site : Site} {a : Assembler} {b : Body} (h : site.Assembles a b) :
    ∃ pool, Built (Assembler.start pool site.entry) a := by
  obtain ⟨pool, slots, slots', -, hlower, -⟩ := h
  exact ⟨pool, (site.adds_lower slots _ _ _ _ hlower).built⟩

/-- **The body of a method was assembled from its code**, and its constants are still
there. -/
theorem yields_body : Yields site.body fun b q => ∃ a, site.Assembles a b ∧ a.pool.Grows q := by
  intro pool b pool' h
  unfold body at h
  split at h
  · cases h
  rename_i slots hslots
  split at h
  · cases h
  rename_i result a hlower
  split at h
  · cases h
  rename_i b' hfinish
  cases h
  have hbuilt : Built (Assembler.start pool site.entry) a :=
    (site.adds_lower slots _ _ _ _ hlower).built
  refine ⟨hbuilt.grows.pool, fun q hq => ⟨a, ?_, hq⟩⟩
  exact ⟨pool, slots, result.2, hslots, hlower, hfinish⟩

/-- **A method is stored with its code**, unless it is abstract: its body was assembled,
laid out and written, and the constants that this took are still there in the end. -/
theorem yields_compile (hcode : site.method.isAbstract = false) :
    Yields site.compile fun info q => ∃ a b c length code entry frames,
      site.Assembles a b ∧ a.pool.Grows q ∧ b.Resolved c length ∧
        c.Stored length code entry frames q ∧ info.Describes site.method code q := by
  have hattributes : Yields site.attributes fun attributes q =>
      ∃ a b c length code entry frames label, site.Assembles a b ∧ a.pool.Grows q ∧
        b.Resolved c length ∧ c.Stored length code entry frames q ∧
          attributes = [⟨label, code.write⟩] ∧ q.get? label = some (.utf8 CodeAttribute.label) := by
    unfold attributes
    rw [hcode]
    refine site.yields_body.bind fun b => (b.yields_store.adaptExcept _).bind fun code => ?_
    refine ((Attribute.yields_make _ code.write).adaptExcept _).bind fun stored => yields_pure ?_
    rintro q ⟨label, rfl, hlabel⟩ ⟨c, length, entry, frames, hresolved, hstored⟩
      ⟨a, hassembles, hpool⟩
    exact ⟨a, b, c, length, code, entry, frames, label, hassembles, hpool, hresolved, hstored,
      rfl, hlabel⟩
  refine hattributes.bind fun attributes => ((yields_intern _).adaptExcept _).bind fun name =>
    ((yields_intern _).adaptExcept _).bind fun descriptor => yields_pure ?_
  rintro q hdescriptor hname ⟨a, b, c, length, code, entry, frames, label, ha, hpool, hc, hstored,
    rfl, hlabel⟩
  exact ⟨a, b, c, length, code, entry, frames, ha, hpool, hc, hstored,
    rfl, hname, hdescriptor, label, rfl, hlabel⟩

/-- A method is stored if its body is and there is room for three texts more. -/
theorem compile_of_ok {site : Site} {p p₁ p₂ : ConstantPool} {b : Body} {code : CodeAttribute}
    (hcode : site.method.isAbstract = false) (hbody : site.body p = .ok b p₁)
    (hstore : b.store p₁ = .ok code p₂) (hroom : p₂.size + 3 ≤ capacity) :
    ∃ info q, site.compile p = .ok info q ∧ q.size ≤ p₂.size + 3 := by
  obtain ⟨label, p₃, hlabel, h₃⟩ := intern_of_room (.utf8 CodeAttribute.label) (p := p₂) (by omega)
  obtain ⟨name, p₄, hname, h₄⟩ := intern_of_room (.utf8 site.method.name.text) (p := p₃) (by omega)
  obtain ⟨descriptor, p₅, hdescriptor, h₅⟩ :=
    intern_of_room (.utf8 site.method.descriptor.render) (p := p₄) (by omega)
  have hattributes : site.attributes p = .ok [⟨label, code.write⟩] p₃ := by
    unfold attributes
    rw [hcode, if_neg Bool.false_ne_true, bind_of_ok hbody,
      bind_of_ok (adaptExcept_eq_ok.2 hstore),
      bind_of_ok (Attribute.make_of_ok hlabel code.write)]
    rfl
  refine ⟨⟨site.method.flags, name, descriptor, [⟨label, code.write⟩]⟩, p₅, ?_, by omega⟩
  unfold compile
  unfold ConstantPool.utf8
  rw [bind_of_ok hattributes, bind_of_ok (Interning.toCompiling_of_ok hname),
    bind_of_ok (Interning.toCompiling_of_ok hdescriptor)]
  rfl

end Site
end ClassForge
