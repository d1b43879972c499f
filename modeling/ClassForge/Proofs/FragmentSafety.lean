/-
# Fragments that cannot go wrong

The code of an expression is put together from the code of its parts, and what is
asked of the parts is said by the types alone:

| asked for | what holds |
| --- | --- |
| its value (`Lowering.Pushes`) | a value of the type is pushed |
| its effect (`Lowering.Leaves`) | the stack is left as it was |
| a jump (`Lowering.Jumps`) | the stack is left as it was, at the label too |
| a place (`Place.Safe`) | values of the type can be loaded and stored there |

Each holds with any labels around and with anything further down on the stack.
-/

import ClassForge.Proofs.InstructionSafety
import Mathlib.Data.List.Forall2

namespace ClassForge

/-- Something is known of every local, and every object in a local is constructed or
is `this`. -/
structure Frame.Known (L : List FrameType) : Prop where
  top : .top ∉ L
  constructed : ∀ n, .uninitialized n ∉ L

namespace Lowering

variable {P : LocalSlots → Prop} {L : List FrameType} {T : List Target} {S : Frame.Stack}
  {type other : FieldType}

/-- A value of the type is pushed. -/
def Pushes (P : LocalSlots → Prop) (L : List FrameType) (type : FieldType) (x : Lowering Unit) :
    Prop :=
  ∀ T S, Safe P P (·.Stands T ⟨L, S⟩) (fun _ => (·.Pushed T L S type)) x

/-- The stack is left as it was. -/
def Leaves (P : LocalSlots → Prop) (L : List FrameType) (x : Lowering Unit) : Prop :=
  ∀ T S, Safe P P (·.Stands T ⟨L, S⟩) (fun _ => (·.Stands T ⟨L, S⟩)) x

/-- A value of the type is pushed, if there is one. -/
def Makes (P : LocalSlots → Prop) (L : List FrameType) (type : Option FieldType)
    (x : Lowering Unit) : Prop :=
  match type with
  | some type => Pushes P L type x
  | none => Leaves P L x

/-- The stack is left as it was, whether control goes to the label or not. -/
def Jumps (P : LocalSlots → Prop) (L : List FrameType) (jump : Jump) : Prop :=
  ∀ T S outcome target, target ∈ T → target.Admits ⟨L, S⟩ →
    Safe P P (·.Stands T ⟨L, S⟩) (fun _ => (·.Stands T ⟨L, S⟩)) (jump outcome target.label)

theorem pushes_of {x : Lowering Unit} {t : FrameType} (ht : Conforms t type)
    (h : ∀ T S, Safe P P (·.Stands T ⟨L, S⟩) (fun _ => (·.Stands T ⟨L, t :: S⟩)) x) :
    Pushes P L type x :=
  fun T S => (h T S).pushed ht

end Lowering

open Lowering

namespace Conforms

variable {t : FrameType} {type : FieldType}

theorem eq_integer (h : Conforms t type) (hkind : type.kind = .int) : t = .integer := by
  cases h <;> first | rfl | cases hkind

theorem eq_float (h : Conforms t type) (hkind : type.kind = .float) : t = .float := by
  cases h <;> first | rfl | cases hkind

end Conforms

namespace FieldType

variable {t u : FieldType}

theorem kind_of_fits (h : t.fits u = true) : t.kind = u.kind := by
  match t, u with
  | .ref _, .ref _ => rfl
  | .base _, _ =>
    simp only [fits, decide_eq_true_eq] at h
    rw [h]
  | .ref _, .base _ => simp [fits] at h

/-- Every type fits itself. -/
theorem fits_refl (t : FieldType) : t.fits t = true := by
  match t with
  | .base _ => simp [fits]
  | .ref t => exact t.fits_refl

theorem converts_refl (t : FieldType) : t.converts t = true := by
  rw [converts, fits_refl, Bool.true_or]

theorem converts_iff : t.converts u = true ↔ t.fits u = true ∨ t = .int ∧ u = .float := by
  simp [converts]

/-- Only integers are converted to integers. -/
theorem eq_int_of_converts (h : t.converts .int = true) : t = .int := by
  rcases converts_iff.1 h with hfits | ⟨-, heq⟩
  · match t with
    | .base _ => simpa [fits] using hfits
    | .ref _ => simp [fits, FieldType.int] at hfits
  · cases heq

end FieldType

/-! ### Operands -/

/-- The code of an operand pushes a value of its type. -/
structure Operand.Safe (P : LocalSlots → Prop) (L : List FrameType) (type : FieldType)
    (o : Operand) : Prop where
  source : o.source.type = some type
  value : Pushes P L type o.value

section Operands

variable {P : LocalSlots → Prop} {L : List FrameType} {T : List Target} {S : Frame.Stack}
  {type other : FieldType} {o : Operand}

/-- An operand may stand where another type is expected. -/
theorem Operand.Safe.converted (h : o.Safe P L type) (hconverts : type.converts other = true) :
    Pushes P L other (o.converted other) := by
  intro T S
  unfold Operand.converted
  refine (h.value T S).bind fun _ => .of_pushed fun t ht => ?_
  rw [typeOf_of_some h.source, pure_bind]
  split
  · rename_i hkinds
    have hfloat : other = .float := by
      rcases FieldType.converts_iff.1 hconverts with hfits | ⟨-, rfl⟩
      · have hkind := FieldType.kind_of_fits hfits
        rw [hkinds.1, hkinds.2] at hkind
        cases hkind
      · rfl
    rw [ht.eq_integer hkinds.1, hfloat]
    exact safe_intToFloat.pushed .float
  · rename_i hkinds
    refine safe_pure _ fun a ha => ⟨t, ?_, ha⟩
    rcases FieldType.converts_iff.1 hconverts with hfits | ⟨rfl, rfl⟩
    · exact ht.fits hfits
    · exact absurd ⟨rfl, rfl⟩ hkinds

namespace Lowering

/-- Values are pushed one after the other; `C` is what is known of each of them. -/
theorem safe_forM_pushes {α : Type} {C : FrameType → Prop} {xs : List α} {f : α → Lowering Unit}
    (h : ∀ x ∈ xs, ∃ type, Pushes P L type (f x) ∧ ∀ t, Conforms t type → C t) :
    Safe P P (·.Stands T ⟨L, S⟩)
      (fun _ a => ∃ A : List FrameType, (A.length = xs.length ∧ ∀ t ∈ A, C t) ∧
        a.Stands T ⟨L, A ++ S⟩) (xs.forM f) := by
  induction xs generalizing S with
  | nil => exact safe_pure () fun a ha => ⟨[], ⟨rfl, by simp⟩, ha⟩
  | cons x xs ih =>
    change Safe P P _ _ (f x >>= fun _ => xs.forM f)
    obtain ⟨type, hx, hC⟩ := h x List.mem_cons_self
    refine (hx T S).bind fun _ => .of_pushed fun t ht => ?_
    refine (ih fun y hy => h y (List.mem_cons_of_mem x hy)).imp fun _ a => ?_
    rintro ⟨A, ⟨hlength, hA⟩, ha⟩
    refine ⟨A ++ [t], ⟨by simp [hlength], fun u hu => ?_⟩, ?_⟩
    · rw [List.mem_append, List.mem_singleton] at hu
      rcases hu with hu | rfl
      · exact hA u hu
      · exact hC u ht
    · rw [List.append_assoc]
      exact ha

/-- The operands may stand where values of the types are expected. -/
def Passes (P : LocalSlots → Prop) (L : List FrameType) (operands : List Operand)
    (types : List FieldType) : Prop :=
  List.Forall₂ (fun o type => ∃ t, o.Safe P L t ∧ t.converts type = true) operands types

/-- All operands may stand where values of one type are expected. -/
theorem Passes.of_replicate {operands : List Operand} {n : Nat}
    (h : Passes P L operands (List.replicate n type)) :
    ∀ o ∈ operands, ∃ t, o.Safe P L t ∧ t.converts type = true := by
  induction operands generalizing n with
  | nil => simp
  | cons o operands ih =>
    cases n with
    | zero => cases h
    | succ n =>
      cases h with
      | cons ho hrest =>
        rintro p (_ | ⟨_, hp⟩)
        · exact ho
        · exact ih hrest p hp

/-- Values are pushed as the arguments of a call. -/
theorem safe_arguments {operands : List Operand} {d : MethodDescriptor}
    (h : Passes P L operands d.parameters) :
    Safe P P (·.Stands T ⟨L, S⟩)
      (fun _ a => ∃ A : List FrameType, A.length = d.parameters.length ∧ a.Stands T ⟨L, A ++ S⟩)
      (arguments operands d) := by
  have hlength : operands.length = d.parameters.length := List.Forall₂.length_eq h
  unfold arguments
  rw [if_neg (fun hne => hne hlength)]
  refine (safe_forM_pushes (C := fun _ => True) ?_).imp fun _ a => ?_
  · rintro ⟨o, type⟩ hmem
    obtain ⟨t, ho, hconverts⟩ := List.forall₂_iff_zip.1 h |>.2 hmem
    exact ⟨type, ho.converted hconverts, fun _ _ => trivial⟩
  · rintro ⟨A, ⟨hA, -⟩, ha⟩
    exact ⟨A, by rw [hA, List.length_zip, hlength, Nat.min_self], ha⟩

/-! ### Strings

A builder is made, each piece is appended as a value of its own type, and the text is taken. -/

variable (hL : Frame.Known L)
include hL

/-- A new string builder is pushed. -/
theorem safe_newBuilder :
    Safe P P (·.Stands T ⟨L, S⟩) (fun _ => (·.Stands T ⟨L, .object builderType :: S⟩))
      newBuilder := by
  refine (safe_emit (Assembler.safe_newObject builderType)).bind fun _ => .of_exists fun n hn => ?_
  refine safe_dup.bind fun _ => ?_
  exact safe_construct (.constructor .stringBuilder []) builderType (A := []) rfl
    (hL.constructed n) hn

omit hL in
theorem safe_append {t : FrameType} (type : FieldType) :
    Safe P P (·.Stands T ⟨L, t :: .object builderType :: S⟩)
      (fun _ => (·.Stands T ⟨L, .object builderType :: S⟩)) (append type) :=
  safe_invoke_receiver rfl false (A := [t]) rfl rfl

omit hL in
theorem safe_builderString :
    Safe P P (·.Stands T ⟨L, .object builderType :: S⟩)
      (fun _ => (·.Stands T ⟨L, FieldType.string.verification :: S⟩)) builderString :=
  safe_invoke_receiver rfl false (A := []) rfl rfl

omit hL in
theorem safe_appendOperand (h : o.Safe P L type) :
    Safe P P (·.Stands T ⟨L, .object builderType :: S⟩)
      (fun _ => (·.Stands T ⟨L, .object builderType :: S⟩)) (appendOperand o) := by
  unfold appendOperand
  rw [typeOf_of_some h.source]
  exact (h.value T _).bind fun _ => .of_pushed fun t _ => safe_append type

/-- Any values can be joined. -/
theorem pushes_joined {pieces : List Operand} (h : ∀ o ∈ pieces, ∃ type, o.Safe P L type) :
    Pushes P L .string (joined pieces) := by
  refine pushes_of (conforms_verification _) fun T S => (safe_newBuilder hL).bind fun _ => ?_
  refine Safe.bind (B := fun _ => (·.Stands T ⟨L, .object builderType :: S⟩)) ?_ fun _ =>
    safe_builderString
  induction pieces with
  | nil => exact safe_skip
  | cons o pieces ih =>
    obtain ⟨type, ho⟩ := h o List.mem_cons_self
    exact (safe_appendOperand ho).bind fun _ => ih fun p hp => h p (List.mem_cons_of_mem o hp)

end Lowering
end Operands

/-! ### Arithmetic -/

namespace Lowering

variable {P : LocalSlots → Prop} {L : List FrameType} {T : List Target} {S : Frame.Stack}
  {type other : FieldType} {op : BinaryOp}

/-- Two values of the type are replaced by one. -/
theorem safe_operate {opcode : Opcode} (hop : binaryOpcode op type.kind = some opcode) (e : Expr)
    {t u : FrameType} (ht : Conforms t type) (hu : Conforms u type) :
    Safe P P (·.Stands T ⟨L, t :: u :: S⟩) (fun _ => (·.Pushed T L S type))
      (operate e op type.kind) := by
  unfold operate
  rw [hop]
  match type with
  | .base .int | .base .boolean =>
    rw [ht.eq_integer rfl, hu.eq_integer rfl]
    refine (safe_simple ?_ (fun n => ?_) fun n hS => hS.tail).pushed (conforms_verification _)
    all_goals
      cases op <;> cases hop <;> rfl
  | .base .float =>
    rw [ht.eq_float rfl, hu.eq_float rfl]
    refine (safe_simple ?_ (fun n => ?_) fun n hS => hS.tail).pushed .float
    all_goals
      cases op <;> cases hop <;> rfl
  | .ref _ => cases op <;> cases hop

/-- Numbers may stand where a number of the type of both is expected. -/
theorem converts_of_numeric {left right : FieldType} (h : left.numeric? right = some type) :
    left.converts type = true ∧ right.converts type = true ∧ type.isNumeric = true := by
  match left, right with
  | .base .int, .base .int | .base .int, .base .float | .base .float, .base .int
  | .base .float, .base .float =>
    cases h
    exact ⟨rfl, rfl, rfl⟩
  | .base .boolean, _ | .ref _, _ | .base .int, .base .boolean | .base .float, .base .boolean
  | .base .int, .ref _ | .base .float, .ref _ => cases h

/-- There is an instruction for every operator that has a type, but for joining
strings. -/
theorem converts_of_type? {left right : FieldType} (h : op.type? left right = some type)
    (hjoin : ¬ (op = .add ∧ type = .string)) :
    left.converts type = true ∧ right.converts type = true ∧
      ∃ opcode, binaryOpcode op type.kind = some opcode := by
  have hnumeric (hn : left.numeric? right = some type)
      (hop : binaryOpcode op .int ≠ none ∧ binaryOpcode op .float ≠ none) :
      left.converts type = true ∧ right.converts type = true ∧
        ∃ opcode, binaryOpcode op type.kind = some opcode := by
    obtain ⟨hl, hr, htype⟩ := converts_of_numeric hn
    refine ⟨hl, hr, Option.ne_none_iff_exists'.1 ?_⟩
    match type with
    | .base .int => exact hop.1
    | .base .float => exact hop.2
    | .base .boolean | .ref _ => cases htype
  cases op with
  | add =>
    rw [BinaryOp.type?] at h
    split at h
    · cases h
      exact absurd ⟨rfl, rfl⟩ hjoin
    · exact hnumeric h (by decide)
  | sub | mul | div | rem => exact hnumeric h (by decide)
  | bitAnd | bitOr | bitXor =>
    rw [BinaryOp.type?] at h
    split at h
    · rename_i heq
      cases h
      obtain ⟨rfl, rfl | rfl⟩ := heq
      all_goals exact ⟨rfl, rfl, _, rfl⟩
    · cases h
  | shl | shr | ushr =>
    rw [BinaryOp.type?] at h
    split at h
    · rename_i heq
      cases h
      obtain ⟨rfl, rfl⟩ := heq
      exact ⟨rfl, rfl, _, rfl⟩
    · cases h

/-- The value of an operator is pushed. -/
theorem pushes_binaryValue (hL : Frame.Known L) {e : Expr} (he : e.type = some type)
    {left right : Operand} {l r : FieldType} (hleft : left.Safe P L l) (hright : right.Safe P L r)
    (htype : op.type? l r = some type) {pieces : List Operand}
    (hpieces : ∀ o ∈ pieces, ∃ type, o.Safe P L type) :
    Pushes P L type (binaryValue e op left right pieces) := by
  intro T S
  unfold binaryValue
  rw [typeOf_of_some he, pure_bind]
  split
  · rename_i hjoin
    rw [hjoin.2]
    exact pushes_joined hL hpieces T S
  · rename_i hjoin
    obtain ⟨hl, hr, opcode, hop⟩ := converts_of_type? htype hjoin
    refine (hleft.converted hl T S).bind fun _ => .of_pushed fun t ht => ?_
    refine (hright.converted hr T _).bind fun _ => .of_pushed fun u hu => ?_
    exact safe_operate hop e hu ht

end Lowering

/-! ### Conditions -/

namespace Lowering

variable {P : LocalSlots → Prop} {L : List FrameType} {T : List Target} {S : Frame.Stack}
  {type other : FieldType}

theorem jumps_jumpOn {value : Lowering Unit} (h : Pushes P L type value)
    (hkind : type.kind = .int) : Jumps P L (jumpOn value) := by
  intro T S outcome target htarget hadmits
  refine (h T S).bind fun _ => .of_pushed fun t ht => ?_
  rw [ht.eq_integer hkind]
  exact safe_branch (A := [.integer]) (by cases outcome <;> exact .zero) htarget hadmits

/-- A jump whose condition is known is safe. -/
theorem jumps_jumpConstant (value : Bool) : Jumps P L (jumpConstant value) := by
  intro T S outcome target htarget hadmits
  unfold jumpConstant
  split
  · exact safe_goto htarget hadmits _
  · exact safe_skip

/-- The newest label is placed. -/
theorem safe_place_newest {t : Target} {f : Frame} (ht : t.isBehind = false)
    (hadmits : t.Admits f) :
    Safe P P (·.Stands (t :: T) f) (fun _ => (·.Stands T t.frame))
      (emit (Assembler.place t.label)) :=
  safe_emit (@Assembler.safe_place [] T t f ht (fun _ hu => nomatch hu) hadmits)

theorem safe_place_second {t u : Target} {f : Frame} (ht : t.isBehind = false)
    (hu : u.isBehind = false) (hadmits : t.Admits f) :
    Safe P P (·.Stands (u :: t :: T) f) (fun _ => (·.Stands (u :: T) t.frame))
      (emit (Assembler.place t.label)) :=
  safe_emit (@Assembler.safe_place [u] T t f ht (by simpa using hu) hadmits)

/-- Both conditions leave the stack as it was, so that it does not matter which of
them jumps. -/
theorem jumps_jumpLogical (hL : Frame.Known L) (op : LogicalOp) {left right : Jump}
    (hleft : Jumps P L left) (hright : Jumps P L right) :
    Jumps P L (jumpLogical op left right) := by
  intro T S outcome target htarget hadmits
  have hboth : Safe P P (·.Stands T ⟨L, S⟩) (fun _ => (·.Stands T ⟨L, S⟩)) (do
      left outcome target.label
      right outcome target.label) :=
    (hleft T S outcome target htarget hadmits).bind fun _ =>
      hright T S outcome target htarget hadmits
  have hskip : Safe P P (·.Stands T ⟨L, S⟩) (fun _ => (·.Stands T ⟨L, S⟩)) (do
      let skip ← emit Assembler.freshLabel
      left (!outcome) skip
      right outcome target.label
      emit (Assembler.place skip)) := by
    refine (safe_freshLabel (g := ⟨L, S⟩) hL.top).bind fun skip => ?_
    refine (hleft _ S _ ⟨skip, none, ⟨L, S⟩, false, hL.top⟩ List.mem_cons_self rfl).bind fun _ => ?_
    refine (hright _ S _ target (List.mem_cons_of_mem _ htarget) hadmits).bind fun _ => ?_
    exact safe_place_newest rfl rfl
  match op, outcome with
  | .and, false | .or, true => exact hboth
  | .and, true | .or, false => exact hskip

/-- What is compared is on the stack. -/
def Compares (P : LocalSlots → Prop) (L : List FrameType) (x : Lowering Opcode) : Prop :=
  ∀ T S, Safe P P (·.Stands T ⟨L, S⟩)
    (fun op a => ∃ A, Frame.Tests op.effect A ∧ a.Stands T ⟨L, A ++ S⟩) x

theorem exists_negate {op : Opcode} {A : List FrameType} (h : Frame.Tests op.effect A) :
    ∃ opposite, op.negate = some opposite ∧ opposite.effect = op.effect := by
  cases op <;> first | exact ⟨_, rfl, rfl⟩ | nomatch h

/-- A jump on a comparison is safe if the comparison is, however it ends. -/
theorem jumps_of_compares (e : Expr) (op : CompareOp) {left right : Operand}
    (h : Compares P L (compareOperands e op left right)) :
    Jumps P L (jumpCompare e op left right) := by
  intro T S outcome target htarget hadmits
  refine (h T S).bind fun taken => .of_exists fun A hA => ?_
  obtain ⟨opposite, hopposite, heffect⟩ := exists_negate hA
  rw [hopposite]
  split
  · exact safe_branch hA htarget hadmits
  · exact safe_branch (heffect ▸ hA) htarget hadmits

theorem effect_zeroBranch (op : CompareOp) : (zeroBranch op).effect = .ifZero := by
  cases op <;> rfl

theorem effect_intBranch (op : CompareOp) : (intBranch op).effect = .ifCompare := by
  cases op <;> rfl

section Compared

variable {left right : Operand} {op : CompareOp} {e : Expr}

/-- Integers are compared with one another, or with zero. -/
theorem compares_ints (hleft : left.Safe P L type) (hright : right.Safe P L other)
    (hl : type.kind = .int) (hr : other.kind = .int) :
    Compares P L (compareOperands e op left right) := by
  intro T S
  unfold compareOperands
  rw [typeOf_of_some hleft.source, typeOf_of_some hright.source]
  simp only [pure_bind, hl, hr, compareKind]
  refine (hleft.value T S).bind fun _ => .of_pushed fun t ht => ?_
  rw [ht.eq_integer hl]
  split
  · exact safe_pure _ fun a ha => ⟨[.integer], effect_zeroBranch op ▸ .zero, ha⟩
  · refine (hright.value T _).bind fun _ => .of_pushed fun u hu => ?_
    rw [hu.eq_integer hr]
    exact safe_pure _ fun a ha => ⟨[.integer, .integer], effect_intBranch op ▸ .compare rfl, ha⟩

/-- Numbers of which one is a `float` are compared as such. -/
theorem compares_floats (hleft : left.Safe P L type) (hright : right.Safe P L other)
    (hkind : compareKind type.kind other.kind = .float) (hl : type.converts .float = true)
    (hr : other.converts .float = true) :
    Compares P L (compareOperands e op left right) := by
  intro T S
  unfold compareOperands
  rw [typeOf_of_some hleft.source, typeOf_of_some hright.source]
  simp only [pure_bind, hkind]
  refine (hleft.converted hl T S).bind fun _ => .of_pushed fun t ht => ?_
  refine (hright.converted hr T _).bind fun _ => .of_pushed fun u hu => ?_
  rw [ht.eq_float rfl, hu.eq_float rfl]
  refine Safe.bind (B := fun _ => (·.Stands T ⟨L, .integer :: S⟩)) ?_ fun _ =>
    safe_pure _ fun a ha => ⟨[.integer], effect_zeroBranch op ▸ .zero, ha⟩
  refine safe_simple ?_ (fun n => ?_) fun n hS => MadeBefore.push (by simp) n hS.tail.tail
  all_goals
    cases op <;> rfl

/-- References are compared with one another, or with `null`. -/
theorem compares_references (hop : op = .eq ∨ op = .ne) (hleft : left.Safe P L type)
    (hright : right.Safe P L other) (hl : type.isReference = true) (hr : other.isReference = true) :
    Compares P L (compareReferences e op left right) := by
  intro T S
  have hnull {o : Operand} (ho : nullChecked left right = some o) {taken : Opcode}
      (htaken : taken.effect = .ifNull) :
      Safe P P (·.Stands T ⟨L, S⟩)
        (fun op a => ∃ A, Frame.Tests op.effect A ∧ a.Stands T ⟨L, A ++ S⟩)
        (do o.value; return taken) := by
    have hvalue : ∃ u, u.isReference = true ∧ Pushes P L u o.value := by
      unfold nullChecked at ho
      split at ho
      · cases ho
        exact ⟨type, hl, hleft.value⟩
      · split at ho <;> cases ho
        exact ⟨other, hr, hright.value⟩
    obtain ⟨u, hu, hpushes⟩ := hvalue
    refine (hpushes T S).bind fun _ => .of_pushed fun t ht => ?_
    exact safe_pure _ fun a ha => ⟨[t], htaken ▸ .null (ht.isReference hu), ha⟩
  have hboth {taken : Opcode} (htaken : taken.effect = .ifCompare) :
      Safe P P (·.Stands T ⟨L, S⟩)
        (fun op a => ∃ A, Frame.Tests op.effect A ∧ a.Stands T ⟨L, A ++ S⟩)
        (do left.value; right.value; return taken) := by
    refine (hleft.value T S).bind fun _ => .of_pushed fun t ht => ?_
    refine (hright.value T _).bind fun _ => .of_pushed fun u hu => ?_
    refine safe_pure _ fun a ha => ⟨[u, t], htaken ▸ .compare ?_, ha⟩
    rw [Frame.comparable, hu.isReference hr, ht.isReference hl, Bool.and_self, Bool.true_or]
  unfold compareReferences
  split
  · exact hnull (by assumption) rfl
  · exact hnull (by assumption) rfl
  · exact hboth rfl
  · exact hboth rfl
  · rcases hop with rfl | rfl
    all_goals
      cases hchecked : nullChecked left right with
      | none => simp_all
      | some => simp_all

/-- Any values that can be compared are. -/
theorem compares_operands (hleft : left.Safe P L type) (hright : right.Safe P L other)
    (h : op.compares type other = true) :
    Compares P L (compareOperands e op left right) := by
  match type, other with
  | .base .int, .base .int => exact compares_ints hleft hright rfl rfl
  | .base .boolean, .base .boolean => exact compares_ints hleft hright rfl rfl
  | .base .int, .base .float | .base .float, .base .int | .base .float, .base .float =>
    exact compares_floats hleft hright rfl rfl rfl
  | .ref t, .ref u =>
    intro T S
    unfold compareOperands
    rw [typeOf_of_some hleft.source, typeOf_of_some hright.source]
    have hop : op = .eq ∨ op = .ne := by
      simpa [CompareOp.compares, FieldType.isNumeric, FieldType.isReference] using h
    exact compares_references hop hleft hright rfl rfl T S
  | .base .int, .base .boolean | .base .boolean, .base .int
  | .base .float, .base .boolean | .base .boolean, .base .float
  | .base _, .ref _ | .ref _, .base _ =>
    simp [CompareOp.compares, FieldType.isNumeric, FieldType.isReference, FieldType.boolean] at h

end Compared

/-- The outcome of a condition is pushed. -/
theorem pushes_outcomeValue (hL : Frame.Known L) {jump : Jump} (h : Jumps P L jump) :
    Pushes P L .boolean (outcomeValue jump) := by
  refine pushes_of (t := .integer) .boolean fun T S => ?_
  refine (safe_freshLabel (g := ⟨L, S⟩) hL.top).bind fun falseLabel => ?_
  refine (safe_freshLabel (g := ⟨L, .integer :: S⟩) hL.top).bind fun endLabel => ?_
  let falseTarget : Target := ⟨falseLabel, none, ⟨L, S⟩, false, hL.top⟩
  let endTarget : Target := ⟨endLabel, none, ⟨L, .integer :: S⟩, false, hL.top⟩
  refine (h _ S false falseTarget (by simp [falseTarget]) rfl).bind fun _ => ?_
  have hend : endTarget.Admits ⟨L, .integer :: S⟩ := rfl
  refine (safe_pushInt 1).bind fun _ => (safe_goto List.mem_cons_self hend ⟨L, S⟩).bind fun _ => ?_
  refine (safe_place_second (t := falseTarget) (u := endTarget) rfl rfl rfl).bind fun _ => ?_
  exact (safe_pushInt 0).bind fun _ => safe_place_newest (t := endTarget) rfl rfl

/-- One of two values is pushed, as a value of the type. -/
theorem pushes_conditionalValue (hL : Frame.Known L) {e : Expr} (he : e.type = some type)
    {condition : Jump} (hcondition : Jumps P L condition) {thenValue elseValue : Operand}
    (hthen : Pushes P L type (thenValue.converted type))
    (helse : Pushes P L type (elseValue.converted type)) :
    Pushes P L type (conditionalValue e condition thenValue elseValue) := by
  refine pushes_of (conforms_verification type) fun T S => ?_
  unfold conditionalValue
  rw [typeOf_of_some he, pure_bind]
  refine (safe_freshLabel (g := ⟨L, S⟩) hL.top).bind fun elseLabel => ?_
  refine (safe_freshLabel (g := ⟨L, type.verification :: S⟩) hL.top).bind fun endLabel => ?_
  let elseTarget : Target := ⟨elseLabel, none, ⟨L, S⟩, false, hL.top⟩
  let endTarget : Target := ⟨endLabel, none, ⟨L, type.verification :: S⟩, false, hL.top⟩
  refine (hcondition _ S false elseTarget (by simp [elseTarget]) rfl).bind fun _ => ?_
  refine (hthen _ S).bind fun _ => .of_pushed fun t ht => ?_
  have hend : endTarget.Admits ⟨L, type.verification :: S⟩ := rfl
  refine (safe_generalizeTop ht).bind fun _ =>
    (safe_goto List.mem_cons_self hend ⟨L, S⟩).bind fun _ => ?_
  refine (safe_place_second (t := elseTarget) (u := endTarget) rfl rfl rfl).bind fun _ => ?_
  refine (helse _ S).bind fun _ => .of_pushed fun u hu => ?_
  exact (safe_generalizeTop hu).bind fun _ => safe_place_newest (t := endTarget) rfl rfl

end Lowering

/-! ### Places

A place is safe to find, read and write if what says where it is conforms to its types. -/

/-- A local has a slot of its own, in which there is a value of its type. -/
def LocalSafe (P : LocalSlots → Prop) (L : List FrameType) (id : LocalId) (type : FieldType) :
    Prop :=
  ∃ slot : UInt16, (∀ slots, P slots → slots.lookup? id = some (slot, type)) ∧
    L[slot.toNat]? = some type.verification

namespace Place

/-- Values of the type can be loaded from the place and stored there. -/
inductive Safe (P : LocalSlots → Prop) (L : List FrameType) (type : FieldType) : Place → Prop where
  | slot {id : LocalId} (h : LocalSafe P L id type) : Safe P L type (.slot id)
  | staticField {f : FieldRef} (h : f.isStatic = true) (ht : f.type = type) :
    Safe P L type (.staticField f)
  | field {object : Lowering Unit} {f : FieldRef} {t : FieldType} (h : f.isStatic = false)
    (ht : f.type = type) (href : t.isReference = true) (ho : Pushes P L t object) :
    Safe P L type (.field object f)
  | element {array index : Lowering Unit} {t : FieldType} (ht : t.component? = some type)
    (ha : Pushes P L t array) (hi : Pushes P L .int index) : Safe P L type (.element array index)

/-- What says where the place is, on the stack. -/
inductive Address (type : FieldType) : Place → List FrameType → Prop where
  | slot {id : LocalId} : Address type (.slot id) []
  | staticField {f : FieldRef} : Address type (.staticField f) []
  | field {object : Lowering Unit} {f : FieldRef} {t : FrameType} (h : t.isReference = true) :
    Address type (.field object f) [t]
  | element {array index : Lowering Unit} {t : FrameType} {u : FieldType} (h : Conforms t u)
    (hu : u.component? = some type) : Address type (.element array index) [.integer, t]

variable {P : LocalSlots → Prop} {L : List FrameType} {T : List Target} {S : Frame.Stack}
  {type : FieldType} {p : Place} {A : List FrameType} {t : FrameType}

theorem safe_address (h : p.Safe P L type) :
    Lowering.Safe P P (·.Stands T ⟨L, S⟩)
      (fun _ a => ∃ A, p.Address type A ∧ a.Stands T ⟨L, A ++ S⟩) p.address := by
  cases h with
  | slot => exact safe_pure () fun a ha => ⟨[], .slot, ha⟩
  | staticField => exact safe_pure () fun a ha => ⟨[], .staticField, ha⟩
  | field _ _ href ho =>
    refine (ho T S).imp fun _ a => ?_
    rintro ⟨t, ht, ha⟩
    exact ⟨[t], .field (ht.isReference href), ha⟩
  | element hcomponent harray hindex =>
    refine (harray T S).bind fun _ => .of_pushed fun t ht => (hindex T _).imp fun _ a => ?_
    rintro ⟨u, hu, ha⟩
    rw [hu.eq_integer rfl] at ha
    exact ⟨[.integer, t], .element ht hcomponent, ha⟩

theorem safe_copyAddress (hA : p.Address type A) :
    Lowering.Safe P P (·.Stands T ⟨L, A ++ S⟩) (fun _ => (·.Stands T ⟨L, A ++ (A ++ S)⟩))
      p.copyAddress := by
  cases hA with
  | slot | staticField => exact safe_skip
  | field => exact safe_dup
  | element =>
    refine safe_simple rfl (fun _ => rfl) fun n hS => ?_
    exact MadeBefore.of_subset (by simp) hS

/-- A safe place is read safely from its address. -/
theorem safe_load (h : p.Safe P L type) (hA : p.Address type A) :
    Lowering.Safe P P (·.Stands T ⟨L, A ++ S⟩) (fun _ => (·.Pushed T L S type)) (p.load type) := by
  cases h with
  | slot hid =>
    cases hA
    obtain ⟨slot, hlookup, hslot⟩ := hid
    exact safe_lookup hlookup ((safe_loadLocal hslot (conforms_verification type)).pushed
      (conforms_verification type))
  | staticField hstatic htype =>
    cases hA
    rw [← htype]
    exact (safe_getStatic hstatic).pushed (conforms_verification _)
  | field hstatic htype =>
    cases hA with
    | field href =>
      rw [← htype]
      exact (safe_getField hstatic href).pushed (conforms_verification _)
  | element =>
    cases hA with
    | element hconforms hcomponent => exact safe_loadElement hconforms hcomponent

/-- A safe place is written safely with a value that conforms to its type. -/
theorem safe_store (h : p.Safe P L type) (hA : p.Address type A) (ht : Conforms t type) :
    Lowering.Safe P P (·.Stands T ⟨L, t :: (A ++ S)⟩) (fun _ => (·.Stands T ⟨L, S⟩))
      (p.store type) := by
  cases h with
  | slot hid =>
    cases hA
    obtain ⟨slot, hlookup, hslot⟩ := hid
    have hstore := safe_storeLocal (P := P) (T := T) (L := L) (S := S) slot ht
    rw [Frame.setLocal_self hslot] at hstore
    exact safe_lookup hlookup hstore
  | staticField hstatic htype =>
    cases hA
    exact safe_putStatic hstatic
  | field hstatic htype =>
    cases hA with
    | field href => exact safe_putField hstatic href
  | element =>
    cases hA with
    | element hconforms hcomponent =>
      exact safe_storeElement
        (hconforms.isReference (FieldType.isReference_of_component hcomponent)) ht

/-- A value that is wanted is kept below the address. -/
def kept (wanted : Bool) (t : FrameType) : List FrameType := if wanted then [t] else []

theorem safe_keepIf (hA : p.Address type A) (wanted : Bool) :
    Lowering.Safe P P (·.Stands T ⟨L, t :: (A ++ S)⟩)
      (fun _ => (·.Stands T ⟨L, t :: (A ++ (kept wanted t ++ S))⟩)) (p.keepIf wanted) := by
  cases wanted with
  | false => exact safe_skip
  | true =>
    cases hA with
    | slot | staticField => exact safe_dup
    | field | element =>
      refine safe_simple rfl (fun _ => rfl) fun n hS => ?_
      exact MadeBefore.of_subset (fun u hu => by grind [kept]) hS

theorem safe_loadForUpdate (h : p.Safe P L type) :
    Lowering.Safe P P (·.Stands T ⟨L, S⟩)
      (fun _ a => ∃ A, p.Address type A ∧ ∃ t, Conforms t type ∧ a.Stands T ⟨L, t :: (A ++ S)⟩)
      (p.loadForUpdate type) := by
  refine (safe_address h).bind fun _ => .of_exists fun A hA => ?_
  refine (safe_copyAddress hA).bind fun _ => (safe_load h hA).imp fun _ a ha => ?_
  exact ⟨A, hA, ha⟩

end Place

/-! ### Changes of places -/

/-- The fragment stands for a place for values of the type. -/
structure Fragment.Assignable (P : LocalSlots → Prop) (L : List FrameType) (type : FieldType)
    (f : Fragment) (p : Place) : Prop where
  source : f.source.type = some type
  place : f.place = some p
  safe : p.Safe P L type

namespace Lowering

open Place (kept)

variable {P : LocalSlots → Prop} {L : List FrameType} {T : List Target} {S : Frame.Stack}
  {type other : FieldType} {value : Operand} {target : Fragment} {p : Place} {t : FrameType}
  {op : BinaryOp}

/-- A value of the type stays on the stack if it is wanted. -/
def Updates (P : LocalSlots → Prop) (L : List FrameType) (type : FieldType)
    (update : Bool → Lowering Unit) : Prop :=
  ∀ wanted T S, Safe P P (·.Stands T ⟨L, S⟩)
    (fun _ a => ∃ t, Conforms t type ∧ a.Stands T ⟨L, kept wanted t ++ S⟩) (update wanted)

theorem Updates.leaves {update : Bool → Lowering Unit} (h : Updates P L type update) :
    Leaves P L (update false) := by
  intro T S
  refine (h false T S).imp fun _ a => ?_
  rintro ⟨t, -, ha⟩
  exact ha

theorem placeOf_of_some (h : target.place = some p) : placeOf target = pure p := by
  unfold placeOf
  rw [h]

theorem safe_keepStore (h : p.Safe P L type) {A : List FrameType} (hA : p.Address type A)
    (ht : Conforms t type) (wanted : Bool) :
    Safe P P (·.Stands T ⟨L, t :: (A ++ S)⟩)
      (fun _ a => ∃ t, Conforms t type ∧ a.Stands T ⟨L, kept wanted t ++ S⟩)
      (do p.keepIf wanted; p.store type) :=
  (Place.safe_keepIf hA wanted).bind fun _ => (Place.safe_store h hA ht).imp fun _ _ ha =>
    ⟨t, ht, ha⟩

theorem updates_assign (h : target.Assignable P L type p)
    (hvalue : Pushes P L type (value.converted type)) :
    Updates P L type (assign target value) := by
  intro wanted T S
  unfold assign
  simp only [typeOf_of_some h.source, placeOf_of_some h.place, pure_bind]
  refine (Place.safe_address h.safe).bind fun _ => .of_exists fun A hA => ?_
  refine (hvalue T _).bind fun _ => .of_pushed fun t ht => ?_
  exact safe_keepStore h.safe hA ht wanted

/-- An operator on an `int` gives a `float` only with another `float`. -/
theorem eq_float_of_type? (h : op.type? .int other = some .float) :
    other = .float ∧ isShift op = false := by
  match other with
  | .base .int | .base .boolean => cases op <;> cases h
  | .base .float => cases op <;> first | exact ⟨rfl, rfl⟩ | cases h
  | .ref t =>
    cases op with
    | add =>
      rw [BinaryOp.type?] at h
      split at h <;> cases h
    | _ => cases h

/-- The value on the stack is changed by another one, as a number. -/
theorem safe_updateArithmetic (e : Expr) (hvalue : value.Safe P L other)
    (hop : op.updates type other = true) (hjoin : ¬ (op = .add ∧ type = .string))
    (ht : Conforms t type) :
    Safe P P (·.Stands T ⟨L, t :: S⟩) (fun _ => (·.Pushed T L S type))
      (updateArithmetic e op type value other) := by
  unfold updateArithmetic
  split
  · rename_i hcut
    obtain ⟨rfl, rfl, hshift⟩ := hcut
    have hopcode : ∃ opcode, binaryOpcode op FieldType.float.kind = some opcode := by
      cases op <;> first | exact ⟨_, rfl⟩ | exact absurd rfl hshift | cases hop
    obtain ⟨opcode, hopcode⟩ := hopcode
    rw [ht.eq_integer rfl]
    refine safe_intToFloat.bind fun _ => ?_
    refine (hvalue.converted (FieldType.converts_refl _) T _).bind fun _ =>
      .of_pushed fun u hu => ?_
    refine (safe_operate hopcode e hu .float).bind fun _ => .of_pushed fun v hv => ?_
    rw [hv.eq_float rfl]
    exact safe_floatToInt.pushed .int
  · rename_i hcut
    have htype : op.type? type other = some type := by
      rw [BinaryOp.updates, Bool.or_eq_true, Bool.and_eq_true] at hop
      simp only [decide_eq_true_eq] at hop
      refine hop.resolve_right ?_
      rintro ⟨rfl, hfloat⟩
      obtain ⟨rfl, hshift⟩ := eq_float_of_type? hfloat
      exact hcut ⟨rfl, rfl, Bool.eq_false_iff.1 hshift⟩
    obtain ⟨-, hconverts, opcode, hopcode⟩ := converts_of_type? htype hjoin
    refine (hvalue.converted hconverts T _).bind fun _ => .of_pushed fun u hu => ?_
    exact safe_operate hopcode e hu ht

/-- A value is appended to the string on the stack. -/
theorem safe_updateString (hL : Frame.Known L) (hvalue : value.Safe P L other)
    (type : FieldType) :
    Safe P P (·.Stands T ⟨L, t :: S⟩) (fun _ => (·.Pushed T L S .string))
      (updateString type value other) := by
  refine (safe_newBuilder hL).bind fun _ => ?_
  refine safe_swap.bind fun _ => ?_
  refine (safe_append type).bind fun _ => (hvalue.value T _).bind fun _ => .of_pushed fun u _ => ?_
  exact (safe_append other).bind fun _ => safe_builderString.pushed (conforms_verification _)

/-- A compound assignment through an address is a safe update if the operator applies. -/
theorem updates_compoundThrough (hL : Frame.Known L) (h : target.Assignable P L type p)
    (hvalue : value.Safe P L other) (hop : op.updates type other = true) :
    Updates P L type (compoundThrough target op value type other) := by
  intro wanted T S
  unfold compoundThrough
  rw [placeOf_of_some h.place, pure_bind]
  refine (Place.safe_loadForUpdate h.safe).bind fun _ => .of_exists fun A hA => ?_
  refine Safe.of_pushed fun t ht => ?_
  split
  · rename_i hjoin
    rw [hjoin.2]
    refine (safe_updateString hL hvalue _).bind fun _ => .of_pushed fun u hu => ?_
    exact safe_keepStore (hjoin.2 ▸ h.safe) (hjoin.2 ▸ hA) hu wanted
  · rename_i hjoin
    refine (safe_updateArithmetic _ hvalue hop hjoin ht).bind fun _ => .of_pushed fun u hu => ?_
    exact safe_keepStore h.safe hA hu wanted

/-- A compound assignment is a safe update if the operator applies to both types. -/
theorem updates_compound (hL : Frame.Known L) (h : target.Assignable P L type p)
    (hvalue : value.Safe P L other) (hop : op.updates type other = true) :
    Updates P L type (compound op target value) := by
  intro wanted T S
  have hthrough := updates_compoundThrough hL h hvalue hop wanted T S
  unfold compound
  rw [typeOf_of_some h.source, typeOf_of_some hvalue.source]
  simp only [pure_bind]
  split
  · rename_i id amount hplace hamount
    split
    · rename_i hint
      obtain ⟨hwanted, rfl⟩ := hint
      rw [h.place, Option.some.injEq] at hplace
      subst hplace
      cases h.safe with
      | slot hid =>
        obtain ⟨slot, hlookup, hslot⟩ := hid
        refine safe_lookup hlookup ((safe_increment hslot amount).imp fun _ a ha => ?_)
        rw [Bool.eq_false_iff.2 hwanted]
        exact ⟨.integer, .int, ha⟩
    · exact hthrough
  · exact hthrough

theorem safe_pushOne (e : Expr) (htype : type.isNumeric = true) :
    Safe P P (·.Stands T ⟨L, S⟩) (fun _ => (·.Pushed T L S type)) (pushOne e type.kind) := by
  match type with
  | .base .int => exact (safe_pushInt 1).pushed .int
  | .base .float => exact (safe_pushFloat _).pushed .float
  | .base .boolean | .ref _ => cases htype

/-- An increment through an address is a safe update of a number. -/
theorem updates_incrementThrough (h : target.Assignable P L type p)
    (htype : type.isNumeric = true) (decrement inFront : Bool) :
    Updates P L type (incrementThrough target type decrement inFront) := by
  intro wanted T S
  have hopcode : ∃ opcode, binaryOpcode (if decrement then .sub else .add) type.kind =
      some opcode := by
    match type with
    | .base .int | .base .float => cases decrement <;> exact ⟨_, rfl⟩
    | .base .boolean | .ref _ => cases htype
  obtain ⟨opcode, hopcode⟩ := hopcode
  unfold incrementThrough
  rw [placeOf_of_some h.place, pure_bind]
  refine (Place.safe_loadForUpdate h.safe).bind fun _ => .of_exists fun A hA => ?_
  refine Safe.of_pushed fun t ht => ?_
  refine (Place.safe_keepIf hA _).bind fun _ => (safe_pushOne _ htype).bind fun _ => ?_
  refine Safe.of_pushed fun u hu => (safe_operate hopcode _ hu ht).bind fun _ => ?_
  refine Safe.of_pushed fun v hv => (safe_keepStore h.safe hA hv _).imp fun _ a => ?_
  rintro ⟨w, hw, ha⟩
  cases wanted with
  | false => exact ⟨w, hw, ha⟩
  | true =>
    cases inFront with
    | true => exact ⟨w, hw, ha⟩
    | false => exact ⟨t, ht, ha⟩

/-- An increment of an integer in a slot is a safe update, done by one instruction in
place. -/
theorem updates_incrementSlot {id : LocalId} (h : LocalSafe P L id .int)
    (decrement inFront : Bool) :
    Updates P L .int (incrementSlot id .int decrement inFront) := by
  intro wanted T S
  obtain ⟨slot, hlookup, hslot⟩ := h
  refine safe_lookup hlookup ?_
  have hload {S : Frame.Stack} := safe_loadLocal (P := P) (T := T) (S := S) hslot .int
  have hincrement {S : Frame.Stack} :=
    safe_increment (P := P) (T := T) (S := S) hslot (if decrement then -1 else 1)
  cases wanted with
  | false => exact hincrement.bind fun _ => safe_pure () fun a ha => ⟨.integer, .int, ha⟩
  | true =>
    cases inFront with
    | false =>
      exact hload.bind fun _ => hincrement.bind fun _ => safe_pure () fun a ha =>
        ⟨.integer, .int, ha⟩
    | true => exact hincrement.bind fun _ => hload.imp fun _ a ha => ⟨.integer, .int, ha⟩

/-- An increment of any numeric place is a safe update. -/
theorem updates_increment (h : target.Assignable P L type p) (htype : type.isNumeric = true)
    (decrement inFront : Bool) : Updates P L type (increment target decrement inFront) := by
  intro wanted T S
  have hthrough := updates_incrementThrough h htype decrement inFront wanted T S
  unfold increment
  rw [typeOf_of_some h.source, pure_bind]
  split
  · rename_i id hplace
    split
    · rename_i hint
      subst hint
      rw [h.place, Option.some.injEq] at hplace
      subst hplace
      cases h.safe with
      | slot hid => exact updates_incrementSlot hid decrement inFront wanted T S
    · exact hthrough
  · exact hthrough

end Lowering
end ClassForge
