/-
# What is stored of a class

A class is stored with the indices of its names, and each of its methods with the
code that its body was stored as (`ClassDecl.Stored`).  The methods of a class share
its constants, which are linked whenever a method is begun.

In the finished class the constants are looked up by counting.  Every constant that
is generated takes one index, so what is found there is what the pool holds
(`ClassDecl.Stored.constant?_eq`), and since no constant is stored twice, a class is
found by its name under the one index that it has (`ClassDecl.Stored.findClass?_eq`).
-/

import ClassForge.ClassFile.Query
import ClassForge.Proofs.Descriptors
import ClassForge.Proofs.Links

namespace ClassForge

open ConstantPool

/-! ### Computations from linked constants -/

namespace ConstantPool

variable {ε ε' α β : Type} {P : α → ConstantPool → Prop} {x : EStateM ε ConstantPool α}

/-- From linked constants the computation gets to linked constants, and what it
yields has a property in every class that keeps them. -/
def Makes (x : EStateM ε ConstantPool α) (P : α → ConstantPool → Prop) : Prop :=
  ∀ (p : ConstantPool) (v : α) (q : ConstantPool), p.Linked → x p = .ok v q →
    p.Grows q ∧ q.Linked ∧ ∀ r, q.Grows r → P v r

theorem Makes.of_yields (hP : Yields x P) (hkeeps : Keeps (fun _ => True) x) : Makes x P := by
  intro p v q hp hx
  obtain ⟨hgrows, hv⟩ := hP p v q hx
  exact ⟨hgrows, hkeeps p v q hp (fun _ _ => trivial) hx, hv⟩

theorem makes_pure {v : α} (h : ∀ q, P v q) : Makes (pure v : EStateM ε ConstantPool α) P :=
  .of_yields (yields_pure h) (keeps_pure v)

theorem Makes.bind {Q : β → ConstantPool → Prop} {f : α → EStateM ε ConstantPool β}
    (hx : Makes x P) (hf : ∀ v, Makes (f v) fun w q => P v q → Q w q) : Makes (x >>= f) Q := by
  intro p w r hp h
  obtain ⟨v, q, hv, h⟩ := bind_eq_ok h
  obtain ⟨hpq, hq, hPv⟩ := hx p v q hp hv
  obtain ⟨hqr, hr, hQw⟩ := hf v q w r hq h
  exact ⟨hpq.trans hqr, hr, fun s hs => hQw s hs (hPv s (hqr.trans hs))⟩

theorem Makes.adaptExcept (h : Makes x P) (f : ε → ε') : Makes (x.adaptExcept f) P := by
  intro p v q hp hv
  exact h p v q hp (adaptExcept_eq_ok.1 hv)

theorem makes_utf8 (s : String) : Makes (utf8 s) fun index q => q.get? index = some (.utf8 s) :=
  .of_yields (yields_intern _) (keeps_utf8 s)

theorem makes_className (name : String) :
    Makes (className name) fun index q => q.Names index name :=
  .of_yields (yields_className name) (keeps_className name)

end ConstantPool

theorem Attribute.makes_make (name : String) (info : Bytes) :
    Makes (Attribute.make name info) fun stored q =>
      ∃ label, stored = ⟨label, info⟩ ∧ q.get? label = some (.utf8 name) :=
  (makes_utf8 name).bind fun label => makes_pure fun _ h => ⟨label, rfl, h⟩

/-! ### Bodies -/

theorem VerificationType.keeps_store {A : ConstantPool → Prop} (offsetOf : Nat → UInt16)
    (t : FrameType) : Keeps A (t.store offsetOf) := by
  cases t with
  | object type =>
    exact (keeps_className type.className).bind (yields_className _) fun _ => keeps_pure _
  | _ => exact keeps_pure _

/-- Storing a frame leaves constants linked, type by type. -/
theorem Frame.keeps_store {A : ConstantPool → Prop} (offsetOf : Nat → UInt16) (f : Frame) :
    Keeps A (f.store offsetOf) := by
  have hkeeps : ∀ (ts : List FrameType) (B : ConstantPool → Prop),
      Keeps B (ts.mapM (VerificationType.store offsetOf)) := fun ts B =>
    keeps_mapM (fun t _ => t.keeps_store offsetOf) fun t _ => t.yields_store offsetOf
  have hyields : ∀ ts : List FrameType, Yields (ts.mapM (VerificationType.store offsetOf)) _ :=
    fun ts => yields_mapM fun t _ => t.yields_store offsetOf
  exact (hkeeps f.locals A).bind (hyields f.locals) fun _ =>
    (hkeeps f.stack.reverse _).bind (hyields f.stack.reverse) fun _ => keeps_pure _

namespace Body

variable {A : ConstantPool → Prop}

/-- The stack map as an attribute adds its name, and only where there are frames. -/
theorem keeps_stackMapAttributes (entry : StoredFrame) (frames : List (UInt16 × StoredFrame)) :
    Keeps A (stackMapAttributes entry frames) := by
  unfold stackMapAttributes
  split
  · exact keeps_pure []
  · refine ((keeps_utf8 StackMap.label).adaptExcept _).bind
      ((yields_intern _).adaptExcept _) fun name => ?_
    split
    · exact keeps_pure _
    · exact keeps_throw _

/-- Storing a body that is laid out leaves constants linked, in the order in which the entry
frame, the frames and the attribute are stored. -/
theorem keeps_storeResolved (b : Body) (length : Nat) : Keeps A (b.storeResolved length) := by
  unfold storeResolved
  split
  · exact keeps_throw _
  split
  · exact keeps_throw _
  have hyields : ∀ frame ∈ b.frames.toList, Yields (b.storeFrame length frame) fun _ _ => True :=
    fun frame _ => (frame.2.yields_store b.originOffset).bind fun _ =>
      yields_pure fun _ _ => trivial
  have hkeeps : ∀ (B : ConstantPool → Prop), ∀ frame ∈ b.frames.toList,
      Keeps B (b.storeFrame length frame) := fun B frame _ =>
    (frame.2.keeps_store b.originOffset).bind (frame.2.yields_store b.originOffset) fun _ =>
      keeps_pure _
  refine ((b.entry.keeps_store b.originOffset).adaptExcept _).bind
    ((b.entry.yields_store b.originOffset).adaptExcept _) fun entry => ?_
  refine ((keeps_mapM (hkeeps _) hyields).adaptExcept _).bind
    ((yields_mapM hyields).adaptExcept _) fun frames => ?_
  exact (keeps_stackMapAttributes entry frames).bind (yields_stackMapAttributes entry frames)
    fun _ => keeps_pure _

theorem keeps_store (b : Body) : Keeps A b.store := by
  intro p code q hp hA h
  unfold store at h
  split at h
  · exact keeps_storeResolved _ _ p code q hp hA h
  · cases h

end Body

/-! ### Methods -/

namespace Site

variable {site : Site} {b : Body} {code : CodeAttribute} {q : ConstantPool}

/-- The method is assembled as the body, which is stored as the code; the constants
of the class go on from there. -/
def Writes (site : Site) (b : Body) (code : CodeAttribute) (q : ConstantPool) : Prop :=
  ∃ p p₁ p₂, p.Linked ∧ site.body p = .ok b p₁ ∧ b.store p₁ = .ok code p₂ ∧ p₂.Grows q

/-- The attributes of the method: its code, unless it is abstract. -/
def StoredAttributes (site : Site) (attributes : List Attribute) (q : ConstantPool) : Prop :=
  if site.method.isAbstract then attributes = []
  else ∃ b code label, site.Writes b code q ∧ attributes = [⟨label, code.write⟩] ∧
    q.get? label = some (.utf8 CodeAttribute.label)

/-- How a method is stored. -/
structure Stored (site : Site) (info : MethodInfo) (q : ConstantPool) : Prop where
  flags : info.flags = site.method.flags
  name : q.get? info.name = some (.utf8 site.method.name.text)
  descriptor : q.get? info.descriptor = some (.utf8 site.method.descriptor.render)
  attributes : site.StoredAttributes info.attributes q

/-- The code of a method is linked when it is assembled. -/
theorem body_eq_ok {p p₁ : ConstantPool} (hp : p.Linked) (h : site.body p = .ok b p₁) :
    ∃ a, site.Assembles a b ∧ a.Linked ∧ a.pool = p₁ ∧ p.Grows p₁ := by
  unfold body at h
  split at h
  · cases h
  rename_i slots hslots
  split at h
  · cases h
  rename_i result a hlower
  split at h
  · cases h
  rename_i hfinish
  cases h
  have hemitted : Emitted (Assembler.start p site.entry) a :=
    site.adds_lower slots _ _ _ _ hlower
  exact ⟨a, ⟨p, slots, result.2, hslots, hlower, hfinish⟩,
    hemitted.linked (Assembler.linked_start hp site.entry), rfl, hemitted.built.grows.pool⟩

theorem Writes.assembles (h : site.Writes b code q) :
    ∃ a, site.Assembles a b ∧ a.Linked ∧ a.pool.Grows q := by
  obtain ⟨p, p₁, p₂, hp, hbody, hstore, hgrows⟩ := h
  obtain ⟨a, hassembles, hlinked, rfl, -⟩ := body_eq_ok hp hbody
  exact ⟨a, hassembles, hlinked, (b.yields_store _ _ _ hstore).1.trans hgrows⟩

theorem Writes.stored (h : site.Writes b code q) : ∃ r length entry frames,
    b.Resolved r length ∧ r.Stored length code entry frames q := by
  obtain ⟨p, p₁, p₂, hp, hbody, hstore, hgrows⟩ := h
  exact (b.yields_store _ _ _ hstore).2 q hgrows

/-- **The attributes of a method are made as said**: none if it is abstract, else its code
under the name of the code attribute. -/
theorem makes_attributes (site : Site) :
    Makes site.attributes fun attributes q => site.StoredAttributes attributes q := by
  unfold attributes StoredAttributes
  split
  · exact makes_pure fun _ => rfl
  · intro p attributes q hp h
    obtain ⟨b, p₁, hbody, hrest⟩ := bind_eq_ok h
    obtain ⟨code, p₂, hstore, hlast⟩ := bind_eq_ok hrest
    obtain ⟨a, -, ha, rfl, hgrows⟩ := body_eq_ok hp hbody
    have hcode : b.store a.pool = .ok code p₂ := adaptExcept_eq_ok.1 hstore
    have hp₂ : p₂.Linked := b.keeps_store _ _ _ ha.pool (fun _ _ => trivial) hcode
    have hgrows₂ : a.pool.Grows p₂ := (b.yields_store _ _ _ hcode).1
    have hmake : Makes ((Attribute.make CodeAttribute.label code.write).toCompiling >>=
        fun stored => pure [stored]) fun attributes q => ∃ label,
          attributes = [⟨label, code.write⟩] ∧ q.get? label = some (.utf8 CodeAttribute.label) := by
      refine ((Attribute.makes_make _ code.write).adaptExcept _).bind fun stored => makes_pure ?_
      rintro q ⟨label, rfl, hlabel⟩
      exact ⟨label, rfl, hlabel⟩
    obtain ⟨hgrows₃, hq, hattributes⟩ := hmake p₂ attributes q hp₂ hlast
    refine ⟨hgrows.trans (hgrows₂.trans hgrows₃), hq, fun r hr => ?_⟩
    obtain ⟨label, rfl, hlabel⟩ := hattributes r hr
    exact ⟨b, code, label, ⟨p, a.pool, p₂, hp, hbody, hcode, hgrows₃.trans hr⟩, rfl, hlabel⟩

/-- **A method is stored with its name, its descriptor and its code.** -/
theorem makes_compile (site : Site) : Makes site.compile fun info q => site.Stored info q := by
  refine site.makes_attributes.bind fun attributes => ?_
  refine ((makes_utf8 _).adaptExcept _).bind fun name => ?_
  refine ((makes_utf8 _).adaptExcept _).bind fun descriptor => makes_pure ?_
  intro q hdescriptor hname hattributes
  exact ⟨rfl, hname, hdescriptor, hattributes⟩

end Site

/-! ### Lists of members -/

/-- What is in the one list is related to something in the other. -/
theorem exists_of_forall₂ {α β : Type} {R : α → β → Prop} {xs : List α} {ys : List β}
    (h : List.Forall₂ R xs ys) {y : β} (hy : y ∈ ys) : ∃ x ∈ xs, R x y := by
  induction h with
  | nil => cases hy
  | cons hxy _ ih =>
    rcases List.mem_cons.1 hy with rfl | hy
    · exact ⟨_, List.mem_cons_self, hxy⟩
    · obtain ⟨x, hx, hxy⟩ := ih hy
      exact ⟨x, List.mem_cons_of_mem _ hx, hxy⟩

/-! ### Classes -/

/-- How a field is stored. -/
structure FieldDecl.Stored (f : FieldDecl) (info : FieldInfo) (q : ConstantPool) : Prop where
  flags : info.flags = f.flags
  name : q.get? info.name = some (.utf8 f.name.text)
  descriptor : q.get? info.descriptor = some (.utf8 f.type.render)
  attributes : info.attributes = []

theorem FieldDecl.makes_compile (f : FieldDecl) :
    Makes f.compile fun info q => f.Stored info q := by
  refine ((makes_utf8 _).adaptExcept _).bind fun name => ?_
  refine ((makes_utf8 _).adaptExcept _).bind fun descriptor => makes_pure ?_
  intro q hdescriptor hname
  exact ⟨rfl, hname, hdescriptor, rfl⟩

namespace ClassDecl

variable {settings : Settings} {d : ClassDecl} {c : ClassFile} {q : ConstantPool}

/-- How the name of the source file is stored. -/
def StoredSource (file : Option String) (attributes : List Attribute) (q : ConstantPool) : Prop :=
  match file with
  | none => attributes = []
  | some file => ∃ label index, attributes = [⟨label, SourceFile.write index⟩] ∧
    q.get? label = some (.utf8 SourceFile.label) ∧ q.get? index = some (.utf8 file)

theorem makes_sourceFileAttributes (file : Option String) :
    Makes (sourceFileAttributes file) (StoredSource file) := by
  cases file with
  | none => exact makes_pure fun _ => rfl
  | some file =>
    refine ((makes_utf8 file).adaptExcept _).bind fun index => ?_
    refine ((Attribute.makes_make _ _).adaptExcept _).bind fun stored => makes_pure ?_
    rintro q ⟨label, rfl, hlabel⟩ hindex
    exact ⟨label, index, rfl, hlabel, hindex⟩

/-- No method was too large if the methods are stored. -/
theorem large_of_compileMethods {done infos : List MethodInfo} {large : List MethodTooLarge}
    {ms : List MethodDecl} {p : ConstantPool}
    (h : compileMethods settings d done large ms p = .ok infos q) : large = [] := by
  induction ms generalizing done large p with
  | nil =>
    unfold compileMethods at h
    split at h
    · rename_i hempty
      exact List.isEmpty_iff.1 hempty
    · cases h
  | cons m ms ih =>
    unfold compileMethods at h
    split at h
    · exact ih h
    · split at h
      · exact absurd (ih h) (List.cons_ne_nil _ _)
      · cases h
    · cases h

theorem makes_compileMethods (done : List MethodInfo) (large : List MethodTooLarge)
    (ms : List MethodDecl) : Makes (compileMethods settings d done large ms) fun infos q =>
      ∃ rest, infos = done.reverse ++ rest ∧
        List.Forall₂ (fun m info => (Site.mk settings d m).Stored info q) ms rest := by
  induction ms generalizing done large with
  | nil =>
    intro p infos q hp h
    obtain rfl := large_of_compileMethods h
    cases h
    exact ⟨.refl p, hp, fun r _ => ⟨[], by simp, .nil⟩⟩
  | cons m ms ih =>
    intro p infos q hp h
    obtain rfl := large_of_compileMethods h
    unfold compileMethods at h
    split at h
    · rename_i info p₁ hcompile
      obtain ⟨hgrows₁, hp₁, hinfo⟩ := (Site.mk settings d m).makes_compile p info p₁ hp hcompile
      obtain ⟨hgrows, hq, hrest⟩ := ih (info :: done) [] p₁ infos q hp₁ h
      refine ⟨hgrows₁.trans hgrows, hq, fun r hr => ?_⟩
      obtain ⟨rest, rfl, hforall⟩ := hrest r hr
      exact ⟨info :: rest, by simp, .cons (hinfo r (hgrows.trans hr)) hforall⟩
    · split at h
      · exact absurd (large_of_compileMethods h) (List.cons_ne_nil _ _)
      · cases h
    · cases h

/-- How a class is stored, except for its constants. -/
structure StoredParts (settings : Settings) (d : ClassDecl) (c : ClassFile) (q : ConstantPool) :
    Prop where
  thisClass : q.Names c.thisClass d.name.text
  superClass : q.Names c.superClass d.superClass.text
  interfaces : List.Forall₂ (fun name index => q.Names index (BinaryName.text name)) d.interfaces
    c.interfaces
  fields : List.Forall₂ (fun f info => FieldDecl.Stored f info q) d.fields c.fields
  methods : List.Forall₂ (fun m info => (Site.mk settings d m).Stored info q) d.methods c.methods
  attributes : StoredSource (settings.sourceFile <|> d.sourceFile) c.attributes q

/-- How a class is stored. -/
structure Stored (settings : Settings) (d : ClassDecl) (c : ClassFile) (q : ConstantPool) : Prop
    extends StoredParts settings d c q where
  constants : c.constants = q.toList
  linked : q.Linked

/-- **The parts of a class are made as said**, in the order in which the compiler makes
them, so that each part finds the constants of all before it. -/
theorem makes_compileParts (settings : Settings) (d : ClassDecl) :
    Makes (compileParts settings d) (StoredParts settings d) := by
  have hinterfaces : Makes (d.interfaces.mapM ConstantPool.binaryName) fun indices q =>
      List.Forall₂ (fun name index => q.Names index (BinaryName.text name)) d.interfaces indices :=
    .of_yields (yields_mapM fun name _ => yields_className name.text)
      (keeps_mapM (fun name _ => keeps_className name.text)
        fun name _ => yields_className name.text)
  have hfields : ∀ fs : List FieldDecl, Makes (fs.mapM FieldDecl.compile) fun infos q =>
      List.Forall₂ (fun f info => FieldDecl.Stored f info q) fs infos := by
    intro fs
    induction fs with
    | nil =>
      rw [List.mapM_nil]
      exact makes_pure fun _ => .nil
    | cons f fs ih =>
      rw [List.mapM_cons]
      exact f.makes_compile.bind fun _ => ih.bind fun _ => makes_pure fun _ hs h => .cons h hs
  refine ((makes_className _).adaptExcept _).bind fun thisClass => ?_
  refine ((makes_className _).adaptExcept _).bind fun superClass => ?_
  refine (hinterfaces.adaptExcept _).bind fun interfaces => ?_
  refine (hfields d.fields).bind fun fields => ?_
  refine (makes_compileMethods [] [] d.methods).bind fun methods => ?_
  refine (makes_sourceFileAttributes _).bind fun attributes => makes_pure ?_
  rintro q hsource ⟨rest, rfl, hmethods⟩ hfields hinterfaces hsuper hthis
  exact ⟨hthis, hsuper, hinterfaces, hfields, hmethods, hsource⟩

/-- **A class that is compiled is stored in full.** -/
theorem exists_stored (h : d.compile settings = .ok c) : ∃ q, d.Stored settings c q := by
  unfold compile at h
  split at h
  · rename_i file q hparts
    cases h
    obtain ⟨-, hq, hstored⟩ := makes_compileParts settings d .empty file q linked_empty hparts
    have hfile := hstored q (.refl q)
    exact ⟨q, { hfile with constants := rfl, linked := hq }⟩
  · cases h

/-- The source file needs room for its name and that of its attribute. -/
theorem sourceFileAttributes_of_room (file : Option String) {p : ConstantPool}
    (hroom : p.size + 2 ≤ capacity) :
    ∃ attributes q, sourceFileAttributes file p = .ok attributes q := by
  cases file with
  | none => exact ⟨[], p, rfl⟩
  | some file =>
    obtain ⟨index, p₁, hindex, hp₁⟩ := intern_of_room (.utf8 file) (p := p) (by omega)
    obtain ⟨label, p₂, hlabel, -⟩ := intern_of_room (.utf8 SourceFile.label) (p := p₁) (by omega)
    refine ⟨[⟨label, SourceFile.write index⟩], p₂, ?_⟩
    change ((intern (.utf8 file)).toCompiling >>= _) p = _
    rw [bind_of_ok (Interning.toCompiling_of_ok hindex), bind_of_ok (Attribute.make_of_ok hlabel _)]
    rfl

/-- A class without interfaces and fields is compiled if its methods are. -/
theorem compile_of_methods (hinterfaces : d.interfaces = []) (hfields : d.fields = [])
    (hmethods : ∀ p : ConstantPool, p.size ≤ 4 → ∃ infos q,
      compileMethods settings d [] [] d.methods p = .ok infos q ∧ q.size + 2 ≤ capacity) :
    ∃ c, d.compile settings = .ok c := by
  obtain ⟨thisClass, p₁, hthis, hp₁⟩ := className_of_room d.name.text (p := .empty) (by decide)
  have hsize : p₁.size ≤ 2 := hp₁
  obtain ⟨superClass, p₂, hsuper, hp₂⟩ := className_of_room d.superClass.text (p := p₁)
    (by unfold capacity; omega)
  obtain ⟨infos, p₃, hinfos, hp₃⟩ := hmethods p₂ (by omega)
  obtain ⟨attributes, p₄, hattributes⟩ :=
    sourceFileAttributes_of_room (settings.sourceFile <|> d.sourceFile) hp₃
  have hnone : (([] : List BinaryName).mapM ConstantPool.binaryName).toCompiling p₂ = .ok [] p₂ :=
    rfl
  have hnofields : ([] : List FieldDecl).mapM FieldDecl.compile p₂ = .ok [] p₂ := rfl
  unfold compile compileParts
  rw [hinterfaces, hfields,
    bind_of_ok (x := (binaryName d.name).toCompiling) (Interning.toCompiling_of_ok hthis),
    bind_of_ok (x := (binaryName d.superClass).toCompiling) (Interning.toCompiling_of_ok hsuper),
    bind_of_ok hnone, bind_of_ok hnofields, bind_of_ok hinfos, bind_of_ok hattributes]
  exact ⟨_, rfl⟩

end ClassDecl

/-! ### Looking things up -/

theorem Constant.Linked.width {has : ConstantKind → UInt16 → Prop} {c : Constant}
    (h : c.Linked has) : c.width = 1 := by
  cases h <;> rfl

namespace ConstantPool

variable {q : ConstantPool} {i j : UInt16}

/-- No constant is stored twice. -/
theorem get?_inj {c : Constant} (hi : q.get? i = some c) (hj : q.get? j = some c) : i = j := by
  have hi' := (q.indexed c i).2 hi
  have hj' := (q.indexed c j).2 hj
  rw [hi'] at hj'
  exact Option.some.inj hj'

/-- A name belongs to one class. -/
theorem Names.inj {name : String} (hi : q.Names i name) (hj : q.Names j name) : i = j := by
  obtain ⟨s, hclass, hs⟩ := hi
  obtain ⟨t, hclass', ht⟩ := hj
  obtain rfl := get?_inj hs ht
  exact get?_inj hclass hclass'

theorem getElem?_toList (q : ConstantPool) (hi : i ≠ 0) :
    q.toList[i.toNat - 1]? = q.get? i := by
  unfold toList get? constantAt?
  rw [if_neg hi, Array.getElem?_toList]

/-- The constant at a place of the list has the index after it. -/
theorem get?_of_getElem? {n : Nat} {c : Constant} (h : q.toList[n]? = some c) :
    (UInt16.ofNat (n + 1)).toNat = n + 1 ∧ q.get? (UInt16.ofNat (n + 1)) = some c := by
  have hlt : n < q.entries.size := (List.getElem?_eq_some_iff.1 h).1
  have hsize := q.bounded
  unfold capacity at hsize
  have hnat : (UInt16.ofNat (n + 1)).toNat = n + 1 := by
    rw [UInt16.toNat_ofNat']
    omega
  have hne : UInt16.ofNat (n + 1) ≠ 0 := by
    intro h0
    rw [h0] at hnat
    cases hnat
  refine ⟨hnat, ?_⟩
  rw [← getElem?_toList q hne, hnat]
  exact h

/-- The constants of a pool are those that it has at some index, and no others. -/
theorem mem_toList {c : Constant} : c ∈ q.toList ↔ ∃ i, q.get? i = some c := by
  constructor
  · intro h
    obtain ⟨n, hn⟩ := List.getElem?_of_mem h
    exact ⟨_, (get?_of_getElem? hn).2⟩
  · rintro ⟨i, hi⟩
    by_cases h0 : i = 0
    · rw [h0] at hi
      cases hi
    · rw [← getElem?_toList q h0] at hi
      exact List.mem_of_getElem? hi

end ConstantPool

namespace ClassFile

/-- Counting goes one by one if every constant takes one index. -/
theorem constantFrom_eq {cs : List Constant} (h : ∀ c ∈ cs, c.width = 1) {position index : Nat}
    (hle : position ≤ index) : constantFrom position index cs = cs[index - position]? := by
  induction cs generalizing position with
  | nil => rfl
  | cons c cs ih =>
    rw [constantFrom]
    by_cases heq : position = index
    · rw [if_pos heq, heq, Nat.sub_self]
      rfl
    · have hnext : index - position = (index - (position + 1)) + 1 := by omega
      rw [if_neg heq, if_neg (by omega), h c List.mem_cons_self,
        ih (fun d hd => h d (List.mem_cons_of_mem c hd)) (by omega), hnext, List.getElem?_cons_succ]

/-- The constants of a pool are found under their indices, if each takes one. -/
theorem constant?_of_toList {c : ClassFile} {q : ConstantPool} (hconstants : c.constants = q.toList)
    (hwidth : ∀ k ∈ c.constants, k.width = 1) (index : UInt16) :
    c.constant? index = q.get? index := by
  unfold constant?
  by_cases h0 : index = 0
  · subst h0
    have hnone : ∀ cs : List Constant, constantFrom 1 0 cs = none := by
      intro cs
      cases cs <;> simp [constantFrom]
    exact hnone c.constants
  · have hpos : 1 ≤ index.toNat :=
      Nat.one_le_iff_ne_zero.2 fun hzero => h0 (UInt16.toNat_inj.1 hzero)
    rw [constantFrom_eq hwidth hpos, hconstants]
    exact q.getElem?_toList h0

theorem toNat_next {position : UInt16} {width : Nat} (h : position.toNat + width < 65536) :
    (position + UInt16.ofNat width).toNat = position.toNat + width := by
  rw [UInt16.toNat_add, UInt16.toNat_ofNat']
  omega

/-- A search that has only one constant to find finds it. -/
theorem findClassFrom_eq {c : ClassFile} {name : String} {ks : List Constant}
    (hwidth : ∀ k ∈ ks, k.width = 1) {n : Nat} {k : Constant} (hk : ks[n]? = some k)
    (hnamed : c.isClassNamed name k = true)
    (honly : ∀ (m : Nat) l, ks[m]? = some l → c.isClassNamed name l = true → m = n)
    {position : UInt16} (hroom : position.toNat + n < 65536) :
    c.findClassFrom name position ks = .ok (some (UInt16.ofNat (position.toNat + n))) := by
  induction ks generalizing n position with
  | nil => simp at hk
  | cons l ks ih =>
    rw [findClassFrom]
    by_cases hl : c.isClassNamed name l = true
    · obtain rfl := honly 0 l rfl hl
      rw [if_pos hl, Nat.add_zero, UInt16.ofNat_toNat]
    · cases n with
      | zero =>
        cases hk
        exact absurd hnamed hl
      | succ n =>
        have hnext : position.toNat + 1 < 65536 := by omega
        rw [if_neg hl, hwidth l List.mem_cons_self, if_pos hnext,
          ih (fun k hk => hwidth k (List.mem_cons_of_mem l hk)) hk (fun m j hj hnamed =>
            Nat.succ.inj (honly (m + 1) j hj hnamed)) (by rw [toNat_next hnext]; omega),
          toNat_next hnext, Nat.add_assoc, Nat.add_comm 1 n]

end ClassFile

namespace ClassDecl.Stored

variable {settings : Settings} {d : ClassDecl} {c : ClassFile} {q : ConstantPool}
  (h : d.Stored settings c q)

include h

theorem width_eq (k : Constant) (hk : k ∈ c.constants) : k.width = 1 := by
  rw [h.constants] at hk
  obtain ⟨i, hi⟩ := ConstantPool.mem_toList.1 hk
  exact (h.linked i k hi).width

/-- **What is found under an index is what the pool holds.** -/
theorem constant?_eq (index : UInt16) : c.constant? index = q.get? index :=
  ClassFile.constant?_of_toList h.constants h.width_eq index

/-- The reader finds a text at an index just if the compiler put it there. -/
theorem utf8?_eq {index : UInt16} {s : String} :
    c.utf8? index = some s ↔ q.get? index = some (.utf8 s) := by
  unfold ClassFile.utf8?
  rw [h.constant?_eq]
  split
  · rename_i t ht
    simp [ht]
  · rename_i hother
    constructor
    · intro hnone
      cases hnone
    · intro hs
      exact absurd hs (hother s)

theorem isClassNamed_iff {index : UInt16} {k : Constant} {name : String}
    (hk : q.get? index = some k) : c.isClassNamed name k = true ↔ q.Names index name := by
  unfold ClassFile.isClassNamed ConstantPool.Names
  cases k with
  | classRef t =>
    simp only [hk, decide_eq_true_eq, Option.some.injEq, Constant.classRef.injEq, exists_eq_left',
      h.utf8?_eq]
  | _ => simp [hk]

/-- **A class is found by its name.** The reader looks for the first class constant with
this name, and there is only one. -/
theorem findClass?_eq {index : UInt16} {name : String} (hn : q.Names index name) :
    c.findClass? name = .ok (some index) := by
  obtain ⟨t, hclass, ht⟩ := hn
  have hne : index ≠ 0 := by
    rintro rfl
    cases hclass
  have hpos : index.toNat ≠ 0 := fun h => hne (UInt16.toNat_inj.1 h)
  have hstands := q.getElem?_toList hne
  rw [hclass, ← h.constants] at hstands
  have honly : ∀ (m : Nat) l, c.constants[m]? = some l → c.isClassNamed name l = true →
      m = index.toNat - 1 := by
    intro m l hl hnamed
    rw [h.constants] at hl
    obtain ⟨hnat, hget⟩ := ConstantPool.get?_of_getElem? hl
    have hindex : UInt16.ofNat (m + 1) = index :=
      ((h.isClassNamed_iff hget).1 hnamed).inj ⟨t, hclass, ht⟩
    rw [← hindex, hnat]
    rfl
  have hnamed := (h.isClassNamed_iff hclass).2 ⟨t, hclass, ht⟩
  have hone : (1 : UInt16).toNat = 1 := rfl
  have hlt := index.toNat_lt
  unfold ClassFile.findClass?
  rw [ClassFile.findClassFrom_eq h.width_eq hstands hnamed honly (by omega)]
  refine congrArg (Except.ok ∘ some) (UInt16.toNat_inj.1 ?_)
  rw [UInt16.toNat_ofNat']
  omega

end ClassDecl.Stored
end ClassForge
