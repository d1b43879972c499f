/-
# Constants refer to constants of the right kind

A constant names the constants that it is made of by their indices, and so do the
instructions.  What an index has to stand for depends on where it is used
(`ConstantKind`):

| used in | stands for |
| --- | --- |
| a class, a string, a name and type | a text |
| a field or a method | a class, and a name and type |
| `ldc`, `ldc_w` | an integer, a float or a string |
| `getfield`, `putfield`, `getstatic`, `putstatic` | a field |
| `invokevirtual`, `invokespecial`, `invokestatic` | a method |
| `invokeinterface` | a method of an interface |
| `new`, `anewarray`, `multianewarray`, `checkcast`, `instanceof` | a class |

Constants are added after the constants that they name, and an instruction after
the constant that it names, so this holds of the constants and of the instructions
at every point of a compilation (`ConstantPool.Linked`, `Assembler.Linked`).
-/

import ClassForge.Proofs.Storage

namespace ClassForge

/-! ### What an index stands for -/

/-- What a constant is used as. -/
inductive ConstantKind where
  | text
  | classRef
  | nameAndType
  | field
  | method
  | interfaceMethod
  /-- What can be pushed. -/
  | value
deriving DecidableEq

/-- Can the constant be used so? -/
def ConstantKind.admits : ConstantKind → Constant → Bool
  | .text, .utf8 _ => true
  | .classRef, .classRef _ => true
  | .nameAndType, .nameAndType .. => true
  | .field, .fieldRef .. => true
  | .method, .methodRef .. => true
  | .interfaceMethod, .methodRef _ _ isInterface => isInterface
  | .value, .integer _ | .value, .float _ | .value, .string _ => true
  | _, _ => false

/-- A constant of one of the kinds that are generated, whose parts are of the right
kind; `has` says which indices are of which kind. -/
inductive Constant.Linked (has : ConstantKind → UInt16 → Prop) : Constant → Prop where
  | text (text : String) : Linked has (.utf8 text)
  | integer (value : Int32) : Linked has (.integer value)
  | float (value : Binary32) : Linked has (.float value)
  | string {text : UInt16} (ht : has .text text) : Linked has (.string text)
  | classRef {name : UInt16} (hn : has .text name) : Linked has (.classRef name)
  | nameAndType {name descriptor : UInt16} (hn : has .text name) (hd : has .text descriptor) :
    Linked has (.nameAndType name descriptor)
  | fieldRef {owner member : UInt16} (ho : has .classRef owner) (hm : has .nameAndType member) :
    Linked has (.fieldRef owner member)
  | methodRef {owner member : UInt16} (ho : has .classRef owner) (hm : has .nameAndType member)
    (isInterface : Bool) : Linked has (.methodRef owner member isInterface)

/-- A constant that is linked stays linked when there are more constants. -/
theorem Constant.Linked.mono {has has' : ConstantKind → UInt16 → Prop} {c : Constant}
    (h : c.Linked has) (hhas : ∀ kind index, has kind index → has' kind index) :
    c.Linked has' := by
  cases h with
  | text s => exact .text s
  | integer v => exact .integer v
  | float v => exact .float v
  | string ht => exact .string (hhas _ _ ht)
  | classRef hn => exact .classRef (hhas _ _ hn)
  | nameAndType hn hd => exact .nameAndType (hhas _ _ hn) (hhas _ _ hd)
  | fieldRef ho hm => exact .fieldRef (hhas _ _ ho) (hhas _ _ hm)
  | methodRef ho hm isInterface => exact .methodRef (hhas _ _ ho) (hhas _ _ hm) isInterface

/-- What the operand of an instruction is used as, if it names a constant. -/
def Opcode.constantKind : Opcode → Option ConstantKind
  | .ldc | .ldcW => some .value
  | .getfield | .putfield | .getstatic | .putstatic => some .field
  | .invokevirtual | .invokespecial | .invokestatic => some .method
  | .invokeinterface => some .interfaceMethod
  | .newObject | .anewarray | .multianewarray | .checkcast | .instanceof => some .classRef
  | _ => none

/-- The index that the operand bytes hold: one byte for `ldc`, else the first two. -/
def Opcode.constantIndex? (op : Opcode) (operands : Bytes) : Option UInt16 :=
  if op = .ldc then
    match operands with
    | [index] => some (UInt16.ofNat index.toNat)
    | _ => none
  else
    match operands with
    | high :: low :: _ => some (Machine.word high low)
    | _ => none

/-- An instruction that names a constant names one of the right kind. -/
def Opcode.Linked (has : ConstantKind → UInt16 → Prop) (op : Opcode) (operands : Bytes) : Prop :=
  ∀ kind, op.constantKind = some kind →
    ∃ index, op.constantIndex? operands = some index ∧ has kind index

theorem Opcode.Linked.mono {has has' : ConstantKind → UInt16 → Prop} {op : Opcode}
    {operands : Bytes} (h : op.Linked has operands)
    (hhas : ∀ kind index, has kind index → has' kind index) : op.Linked has' operands := by
  intro kind hkind
  obtain ⟨index, hindex, hk⟩ := h kind hkind
  exact ⟨index, hindex, hhas kind index hk⟩

theorem Opcode.linked_of_none {op : Opcode} (h : op.constantKind = none)
    (has : ConstantKind → UInt16 → Prop) (operands : Bytes) : op.Linked has operands := by
  intro kind hkind
  rw [h] at hkind
  cases hkind

/-! ### Constants

Each way to add a constant `Keeps` the pool linked and yields the index of a constant of the kind
that is asked for. -/

namespace ConstantPool

variable {p q : ConstantPool} {kind : ConstantKind} {index : UInt16}

/-- The index is that of a constant of the given kind. -/
def Has (q : ConstantPool) (kind : ConstantKind) (index : UInt16) : Prop :=
  ∃ c, q.get? index = some c ∧ kind.admits c = true

theorem Grows.has (hpq : p.Grows q) (kind : ConstantKind) (index : UInt16)
    (h : p.Has kind index) : q.Has kind index := by
  obtain ⟨c, hc, hkind⟩ := h
  exact ⟨c, hpq index c hc, hkind⟩

theorem Names.has {name : String} (h : q.Names index name) : q.Has .classRef index := by
  obtain ⟨text, hindex, -⟩ := h
  exact ⟨_, hindex, rfl⟩

/-- Every constant names constants of the right kinds. -/
def Linked (q : ConstantPool) : Prop := ∀ index c, q.get? index = some c → c.Linked q.Has

theorem linked_empty : Linked empty := by
  intro index c h
  simp [get?, constantAt?, empty] at h

/-- Interning adds at most the constant that is asked for. -/
theorem get?_of_intern {c d : Constant} {i : UInt16} (h : intern c p = .ok index q)
    (hd : q.get? i = some d) : d = c ∨ p.get? i = some d := by
  unfold intern at h
  split at h
  · cases h
    exact .inr hd
  split at h
  · cases h
  rename_i full
  obtain ⟨entries, indices, bounded, indexed⟩ := p
  cases h
  have room : entries.size + 1 ≤ capacity := Nat.le_of_not_lt full
  rw [get?, constantAt?_push entries c room] at hd
  split at hd
  · cases hd
    exact .inl rfl
  · exact .inr hd

section Keeps

variable {ε ε' α β : Type} {A : ConstantPool → Prop} {P : α → ConstantPool → Prop}
  {x : EStateM ε ConstantPool α} {f : α → EStateM ε ConstantPool β}

/-- From linked constants for which `A` is true, and stays true, the computation
gets to linked constants. -/
def Keeps (A : ConstantPool → Prop) (x : EStateM ε ConstantPool α) : Prop :=
  ∀ p v q, p.Linked → (∀ r, p.Grows r → A r) → x p = .ok v q → q.Linked

theorem keeps_pure (v : α) : Keeps A (pure v : EStateM ε ConstantPool α) := by
  intro p w q hp _ h
  cases h
  exact hp

theorem keeps_throw (e : ε) : Keeps A (throw e : EStateM ε ConstantPool α) :=
  fun _ _ _ _ _ h => nomatch h

theorem Keeps.imp {B : ConstantPool → Prop} (h : Keeps A x) (hBA : ∀ q, B q → A q) :
    Keeps B x :=
  fun p v q hp hB hx => h p v q hp (fun r hr => hBA r (hB r hr)) hx

theorem Keeps.bind (hx : Keeps A x) (hP : Yields x P)
    (hf : ∀ v, Keeps (fun q => A q ∧ P v q) (f v)) : Keeps A (x >>= f) := by
  intro p w r hp hA h
  obtain ⟨v, q, hv, h⟩ := bind_eq_ok h
  obtain ⟨hpq, hPq⟩ := hP p v q hv
  exact hf v q w r (hx p v q hp hA hv) (fun s hs => ⟨hA s (hpq.trans hs), hPq s hs⟩) h

theorem Keeps.adaptExcept (h : Keeps A x) (g : ε → ε') : Keeps A (x.adaptExcept g) := by
  intro p v q hp hA hv
  exact h p v q hp hA (adaptExcept_eq_ok.1 hv)

/-- The items of a list, one after the other. -/
theorem keeps_mapM {g : α → EStateM ε ConstantPool β} {R : α → β → ConstantPool → Prop}
    {xs : List α} (hg : ∀ x ∈ xs, Keeps A (g x)) (hR : ∀ x ∈ xs, Yields (g x) (R x)) :
    Keeps A (xs.mapM g) := by
  induction xs with
  | nil =>
    rw [List.mapM_nil]
    exact keeps_pure []
  | cons x xs ih =>
    have hrest : ∀ y ∈ xs, y ∈ x :: xs := fun y hy => List.mem_cons_of_mem x hy
    have htail := ih (fun y hy => hg y (hrest y hy)) fun y hy => hR y (hrest y hy)
    rw [List.mapM_cons]
    refine (hg x List.mem_cons_self).bind (hR x List.mem_cons_self) fun y => ?_
    refine Keeps.bind (htail.imp fun q h => h.1) (yields_mapM fun z hz => hR z (hrest z hz))
      fun ys => keeps_pure (y :: ys)

/-- **A constant may be added once its parts are there.** -/
theorem keeps_intern {c : Constant} (h : ∀ q, A q → c.Linked q.Has) : Keeps A (intern c) := by
  intro p index q hp hA hintern
  have hgrows := (intern_eq_ok hintern).1
  intro i d hd
  rcases get?_of_intern hintern hd with rfl | hold
  · exact h q (hA q hgrows)
  · exact (hp i d hold).mono hgrows.has

theorem keeps_utf8 (s : String) : Keeps A (utf8 s) := keeps_intern fun _ _ => .text s

theorem yields_utf8 (s : String) : Yields (utf8 s) fun index q => q.Has .text index :=
  (yields_intern _).imp fun _ _ h => ⟨_, h, rfl⟩

theorem keeps_className (name : String) : Keeps A (className name) :=
  (keeps_utf8 name).bind (yields_utf8 name) fun _ => keeps_intern fun _ h => .classRef h.2

theorem yields_hasClass (name : String) :
    Yields (className name) fun index q => q.Has .classRef index :=
  (yields_className name).imp fun _ _ h => h.has

theorem keeps_string (s : String) : Keeps A (string s) :=
  (keeps_utf8 s).bind (yields_utf8 s) fun _ => keeps_intern fun _ h => .string h.2

theorem yields_string (s : String) : Yields (string s) fun index q => q.Has .value index :=
  (yields_utf8 s).bind fun _ => (yields_intern _).imp fun _ _ h _ => ⟨_, h, rfl⟩

theorem keeps_nameAndType (name descriptor : String) : Keeps A (nameAndType name descriptor) :=
  (keeps_utf8 name).bind (yields_utf8 name) fun _ =>
    (keeps_utf8 descriptor).bind (yields_utf8 descriptor) fun _ =>
      keeps_intern fun _ h => .nameAndType h.1.2 h.2

theorem yields_nameAndType (name descriptor : String) :
    Yields (nameAndType name descriptor) fun index q => q.Has .nameAndType index :=
  (yields_utf8 name).bind fun _ => (yields_utf8 descriptor).bind fun _ =>
    (yields_intern _).imp fun _ _ h _ _ => ⟨_, h, rfl⟩

theorem keeps_fieldRef (f : FieldRef) : Keeps A (fieldRef f) :=
  (keeps_className _).bind (yields_hasClass _) fun _ =>
    (keeps_nameAndType _ _).bind (yields_nameAndType _ _) fun _ =>
      keeps_intern fun _ h => .fieldRef h.1.2 h.2

theorem yields_fieldRef (f : FieldRef) : Yields (fieldRef f) fun index q => q.Has .field index :=
  (yields_hasClass _).bind fun _ => (yields_nameAndType _ _).bind fun _ =>
    (yields_intern _).imp fun _ _ h _ _ => ⟨_, h, rfl⟩

theorem keeps_methodRef (m : MethodRef) : Keeps A (methodRef m) :=
  (keeps_className _).bind (yields_hasClass _) fun _ =>
    (keeps_nameAndType _ _).bind (yields_nameAndType _ _) fun _ =>
      keeps_intern fun _ h => .methodRef h.1.2 h.2 _

theorem yields_methodRef (m : MethodRef) : Yields (methodRef m) fun index q =>
    q.Has .method index ∧ (m.isInterface = true → q.Has .interfaceMethod index) :=
  (yields_hasClass _).bind fun _ => (yields_nameAndType _ _).bind fun _ =>
    (yields_intern _).imp fun _ _ h _ _ => ⟨⟨_, h, rfl⟩, fun hm => ⟨_, h, hm⟩⟩

end Keeps
end ConstantPool

/-! ### Instructions

An opcode that refers to a constant finds the index in its operand bytes; the others refer to none.
-/

namespace Opcode

variable {has : ConstantKind → UInt16 → Prop} {kind : ConstantKind} {index : UInt16}

/-- An index in the first two operand bytes. -/
theorem linked_word (op : Opcode) (hop : op ≠ .ldc) (hkind : op.constantKind = some kind)
    (h : has kind index) (rest : Bytes) : op.Linked has (Bytes.u16 index ++ rest) := by
  intro k hk
  have hindex : op.constantIndex? (Bytes.u16 index ++ rest) = some index := by
    unfold constantIndex?
    rw [if_neg hop]
    exact congrArg some (Machine.word_bytes index)
  rw [hkind] at hk
  cases hk
  exact ⟨index, hindex, h⟩

theorem linked_loadConstant (h : has .value index) :
    (Instruction.loadConstant index).opcode.Linked has
      (Instruction.loadConstant index).operands := by
  unfold Instruction.loadConstant
  split
  · rename_i hsmall
    intro k hk
    cases hk
    refine ⟨index, congrArg some (UInt16.toNat_inj.1 ?_), h⟩
    rw [UInt16.toNat_ofNat', UInt8.toNat_ofNat']
    omega
  · exact linked_word .ldcW (by decide) rfl h []

theorem constantKind_simple {op : Opcode} (h : op.operandBytes = 0) : op.constantKind = none := by
  revert h
  cases op <;> decide

theorem constantKind_branch {op : Opcode} (h : op.effect.isBranch = true) :
    op.constantKind = none := by
  revert h
  cases op <;> decide

theorem constantKind_slotAccess {short : List Opcode} {general : Opcode}
    (h : ∀ op ∈ general :: short, op.constantKind = none) (slot : UInt16) :
    (Instruction.slotAccess short general slot).opcode.constantKind = none :=
  h _ (Machine.opcode_slotAccess short general slot)

theorem constantKind_load (kind : ValueKind) (slot : UInt16) :
    (Instruction.load kind slot).opcode.constantKind = none := by
  cases kind <;> exact constantKind_slotAccess (by decide) slot

theorem constantKind_store (kind : ValueKind) (slot : UInt16) :
    (Instruction.store kind slot).opcode.constantKind = none := by
  cases kind <;> exact constantKind_slotAccess (by decide) slot

theorem constantKind_increment (slot : UInt16) (amount : Int16) :
    (Instruction.increment slot amount).opcode.constantKind = none := by
  unfold Instruction.increment
  split <;> rfl

theorem constantKind_pushInt {n : Int} {i : Instruction} (h : Instruction.pushInt? n = some i) :
    i.opcode.constantKind = none := by
  unfold Instruction.pushInt? at h
  repeat' split at h
  all_goals first | cases h; rfl | cases h

theorem constantKind_pushFloat {x : Binary32} {i : Instruction}
    (h : Instruction.pushFloat? x = some i) : i.opcode.constantKind = none := by
  unfold Instruction.pushFloat? at h
  repeat' split at h
  all_goals first | cases h; rfl | cases h

end Opcode

/-! ### Code

Linked code stays so under each instruction, hence under all code that is emitted
(`Emitted.linked`). -/

namespace Assembler

open ConstantPool

variable {a b : Assembler} {i : Instruction} {types : OperandTypes}

/-- The constants are linked, and the instructions name constants of the right
kinds. -/
structure Linked (a : Assembler) : Prop where
  pool : a.pool.Linked
  instructions : ∀ i ∈ a.instructions, i.opcode.Linked a.pool.Has i.operands

theorem linked_start {pool : ConstantPool} (h : pool.Linked) (entry : Frame) :
    (start pool entry).Linked where
  pool := h
  instructions i hi := by simp [start] at hi

theorem Linked.of_eq (ha : a.Linked) (hpool : b.pool = a.pool)
    (hinstructions : b.instructions = a.instructions) : b.Linked where
  pool := hpool ▸ ha.pool
  instructions := by
    rw [hpool, hinstructions]
    exact ha.instructions

/-- An instruction whose constants are there leaves code linked. -/
theorem Linked.add (ha : a.Linked) (hi : i.opcode.Linked a.pool.Has i.operands)
    (hpool : b.pool = a.pool) (hinstructions : b.instructions = a.instructions.push i) :
    b.Linked where
  pool := hpool ▸ ha.pool
  instructions j hj := by
    rw [hinstructions] at hj
    rw [hpool]
    rcases Array.mem_push.1 hj with hj | rfl
    · exact ha.instructions j hj
    · exact hi

end Assembler

namespace Assembling

open ConstantPool Assembler

variable {types : OperandTypes}

/-- The computation keeps code linked. -/
def Links {α : Type} (x : Assembling α) : Prop :=
  ∀ (a : Assembler) (v : α) (b : Assembler), a.Linked → x a = .ok v b → b.Linked

/-- An instruction that names no constant. -/
theorem links_push {i : Instruction} (hi : i.opcode.constantKind = none) :
    Links (push i types) := by
  intro a v b ha h
  cases Operation.run_push_iff.1 h with
  | drop => exact ha
  | push => exact ha.add (Opcode.linked_of_none hi _ _) rfl rfl

theorem links_branch {op : Opcode} (hop : op.effect.isBranch = true) (target : Label) :
    Links (branch op target) := by
  intro a v b ha h
  have hlinked := Opcode.linked_of_none (Opcode.constantKind_branch hop) a.pool.Has [0, 0]
  cases Operation.run_branch_iff.1 h with
  | drop => exact ha
  | jumpBack => exact ha.add (i := .branch op target _) hlinked rfl rfl
  | jumpAhead => exact ha.add (i := .branch op target _) hlinked rfl rfl

/-- **An instruction may be added once its constant is there.** -/
theorem links_withConstant {x : Interning UInt16} {P : UInt16 → ConstantPool → Prop}
    (hkeeps : Keeps (fun _ => True) x) (hyields : Yields x P) {make : UInt16 → Instruction}
    (hmake : ∀ index q, P index q → (make index).opcode.Linked q.Has (make index).operands) :
    Links (x.toAssembling >>= fun index => push (make index) types) := by
  intro a v b ha h
  obtain ⟨index, a', hx, hpush⟩ := bind_eq_ok h
  obtain ⟨pool, hpool, rfl⟩ := Interning.toAssembling_eq_ok.1 hx
  obtain ⟨hgrows, hP⟩ := hyields a.pool index pool hpool
  have hnew : Linked { a with pool } :=
    { pool := hkeeps a.pool index pool ha.pool (fun _ _ => trivial) hpool
      instructions := fun i hi => (ha.instructions i hi).mono hgrows.has }
  cases Operation.run_push_iff.1 hpush with
  | drop => exact hnew
  | push => exact hnew.add (hmake index pool (hP pool (.refl pool))) rfl rfl

theorem links_loadConstant {x : Interning UInt16} (hkeeps : Keeps (fun _ => True) x)
    (hyields : Yields x fun index q => q.Has .value index) :
    Links (x.toAssembling >>= fun index => push (.loadConstant index) types) :=
  links_withConstant hkeeps hyields fun _ _ h => Opcode.linked_loadConstant h

theorem links_pushInt (value : Int32) : Links (pushInt value) := by
  unfold pushInt
  split
  · rename_i i hi
    exact links_push (Opcode.constantKind_pushInt hi)
  · exact links_loadConstant (keeps_intern fun _ _ => .integer value)
      ((yields_intern _).imp fun _ _ h => ⟨_, h, rfl⟩)

theorem links_pushFloat (value : Binary32) : Links (pushFloat value) := by
  unfold pushFloat
  split
  · rename_i i hi
    exact links_push (Opcode.constantKind_pushFloat hi)
  · exact links_loadConstant (keeps_intern fun _ _ => .float value)
      ((yields_intern _).imp fun _ _ h => ⟨_, h, rfl⟩)

/-- Access to a field. -/
theorem links_withField (field : FieldRef) {op : Opcode} (hop : op ≠ .ldc)
    (hkind : op.constantKind = some .field) :
    Links ((ConstantPool.fieldRef field).toAssembling >>= fun index =>
      push (.withConstant op index) types) :=
  links_withConstant (keeps_fieldRef field) (yields_fieldRef field)
    fun _ _ h => Opcode.linked_word op hop hkind h []

/-- Use of a class. -/
theorem links_withClass (name : String) (op : Opcode) (hop : op ≠ .ldc)
    (hkind : op.constantKind = some .classRef) :
    Links ((ConstantPool.className name).toAssembling >>= fun index =>
      push (.withConstant op index) types) :=
  links_withConstant (keeps_className name) (yields_hasClass name)
    fun _ _ h => Opcode.linked_word op hop hkind h []

theorem linked_callInstruction {has : ConstantKind → UInt16 → Prop} (method : MethodRef)
    (viaSuper : Bool) {index : UInt16} (hmethod : has .method index)
    (hinterface : method.isInterface = true → has .interfaceMethod index) :
    (callInstruction method viaSuper index).opcode.Linked has
      (callInstruction method viaSuper index).operands := by
  unfold callInstruction
  split
  · exact Opcode.linked_word .invokevirtual (by decide) rfl hmethod []
  · exact Opcode.linked_word .invokespecial (by decide) rfl hmethod []
  · exact Opcode.linked_word .invokestatic (by decide) rfl hmethod []
  · rename_i hkind
    have hisInterface : method.isInterface = true := by
      unfold MethodRef.invokeKind at hkind
      repeat' split at hkind
      all_goals first | assumption | cases hkind
    exact Opcode.linked_word .invokeinterface (by decide) rfl (hinterface hisInterface) _

theorem links_newArray (type : RefType) (dimensions : Nat) :
    Links (newArray type dimensions) := by
  unfold newArray
  split
  · exact links_push rfl
  · exact links_withClass _ .anewarray (by decide) rfl
  · exact links_withConstant (keeps_className _) (yields_hasClass _)
      fun _ _ h => Opcode.linked_word .multianewarray (by decide) rfl h _

/-- **Every common instruction leaves code linked**, since the constant that it refers to is
added right before it. -/
theorem Common.links {x : Assembling Unit} (h : x.Common) : x.Links := by
  cases h with
  | simple hop => exact links_push (Opcode.constantKind_simple hop)
  | killLocals first =>
    intro a v b ha hx
    cases hx
    exact ha.of_eq rfl rfl
  | generalize type =>
    intro a v b ha hx
    cases Operation.run_generalize_iff.1 hx with
    | drop => exact ha
    | generalize => exact ha.of_eq rfl rfl
  | pushInt value => exact links_pushInt value
  | pushFloat value => exact links_pushFloat value
  | pushString text => exact links_loadConstant (keeps_string text) (yields_string text)
  | loadLocal slot type => exact links_push (Opcode.constantKind_load _ slot)
  | storeLocal slot type => exact links_push (Opcode.constantKind_store _ slot)
  | increment slot amount => exact links_push (Opcode.constantKind_increment slot amount)
  | getField field => exact links_withField field (by split <;> decide) (by split <;> rfl)
  | putField field => exact links_withField field (by split <;> decide) (by split <;> rfl)
  | invoke method viaSuper =>
    exact links_withConstant (keeps_methodRef method) (yields_methodRef method)
      fun _ _ h => linked_callInstruction method viaSuper h.1 h.2
  | construct method type =>
    exact links_withConstant (keeps_methodRef method) (yields_methodRef method)
      fun _ _ h => Opcode.linked_word .invokespecial (by decide) rfl h.1 []
  | newObject type => exact links_withClass _ .newObject (by decide) rfl
  | newArray type dimensions => exact links_newArray type dimensions
  | checkCast type => exact links_withClass _ .checkcast (by decide) rfl
  | instanceOf type => exact links_withClass _ .instanceof (by decide) rfl

/-- **What code is made of keeps it linked.** -/
theorem Primitive.links {α : Type} {x : Assembling α} (h : x.Primitive) : x.Links := by
  cases h with
  | common h => exact h.links
  | branch hop target => exact links_branch hop target
  | place label =>
    intro a v b ha hx
    cases Operation.run_place_iff.1 hx with
    | drop => exact ha
    | place => exact ha.of_eq rfl rfl
  | newLabel limit =>
    intro a v b ha hx
    cases hx
    exact ha.of_eq rfl rfl
  | noteLocals count =>
    intro a v b ha hx
    cases hx
    exact ha.of_eq rfl rfl

end Assembling

/-- **Code that is emitted is linked.** -/
theorem Emitted.linked {a b : Assembler} (hab : Emitted a b) (ha : a.Linked) : b.Linked := by
  induction hab with
  | refl => exact ha
  | step _ hx h ih => exact hx.links _ _ _ ih h

end ClassForge
