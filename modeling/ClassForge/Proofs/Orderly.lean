/-
# Code in order

All code is put together in the same way, whatever the program is
(`Lowering.Orderly`):

| part | labels | slots of locals |
| --- | --- | --- |
| a common instruction | none | stay |
| a branch | goes to a label that is known | stay |
| a new label | is known from then on and has yet to be placed | stay |
| a label is placed | it is one of those that have yet to be placed | stay |
| a declaration, a block | none | change, where that is allowed |

The proofs follow the combinators.  Code is `Within` some labels if it branches only to
these and to its own, and places just its own.  A fragment is so, in each of the ways in
which it can be asked for, if its parts are (`Fragment.Within`), hence the fragment of
every expression is (`Expr.within`), and so is the code of every statement, within the
labels of the loops around it (`Stmt.within`), and of every method
(`Site.orderly_lower`).

What holds for all code is then an induction on `Orderly`.  The first such thing is that
code is emitted (`Orderly.emitted`).
-/

import ClassForge.Proofs.Emission

namespace ClassForge

/-- Is something wrong with the method body or the class file? -/
def CompileError.isFault : CompileError → Bool
  | .fault _ => true
  | _ => false

namespace Lowering

variable {α β : Type}

/-- The results of the computation have a property. -/
def Yields (P : α → Prop) (x : Lowering α) : Prop :=
  ∀ (slots : LocalSlots) (a : Assembler) (v : α) (slots' : LocalSlots) (b : Assembler),
    x slots a = .ok (v, slots') b → P v

theorem yields_pure {P : α → Prop} {v : α} (h : P v) : Yields P (pure v) := by
  rintro slots a w slots' b ⟨⟩
  exact h

theorem yields_throw {P : α → Prop} (e : CompileError) : Yields P (throw e) := by
  rintro slots a w slots' b ⟨⟩

theorem Yields.bind {P : β → Prop} {x : Lowering α} {f : α → Lowering β}
    (hf : ∀ v, Yields P (f v)) : Yields P (x >>= f) := by
  intro slots a w slots' c h
  obtain ⟨v, slots'', b, -, h⟩ := bind_eq_ok h
  exact hf v slots'' b w slots' c h

/-- How code is put together.  It may branch to the labels `known` and to those that it
makes; of the labels that have yet to be placed it finds `before` and leaves `after`,
newest first.  The slots of locals change only if they are `free` to.  What is asked of
the state are the slots, and whether control can be at the current point. -/
inductive Orderly (free : Bool) :
    {α : Type} → (known before after : List Label) → Lowering α → Prop where
  | ask {α : Type} {K U : List Label} (g : LocalSlots → Bool → α) :
    Orderly free K U U (fun slots a => .ok (g slots a.isReachable, slots) a)
  | throw {α : Type} {K U V : List Label} {e : CompileError} (he : e.isFault = false) :
    Orderly free K U V (throw e : Lowering α)
  | bindYields {α β : Type} {K U V W : List Label} {x : Lowering α} {f : α → Lowering β}
    {P : α → Prop} (hx : Orderly free K U V x) (hP : Yields P x)
    (hf : ∀ v, P v → Orderly free K V W (f v)) : Orderly free K U W (x >>= f)
  | lookup {K U : List Label} (id : LocalId) : Orderly free K U U (lookup id)
  | emit {K U : List Label} {x : Assembling Unit} (hx : x.Common) : Orderly free K U U (emit x)
  | branch {K U : List Label} {op : Opcode} {target : Label} (hop : op.effect.isBranch = true)
    (ht : target ∈ K) : Orderly free K U U (emit (Assembler.branch op target))
  | place {K U : List Label} (newer : List Label) (l : Label) :
    Orderly free K (newer ++ l :: U) (newer ++ U) (emit (Assembler.place l))
  | fresh {β : Type} {K U V : List Label} {f : Label → Lowering β} (limit : Option Nat)
    (hf : ∀ l, Orderly free (l :: K) (l :: U) V (f l)) :
    Orderly free K U V (emit (Assembler.newLabel { limit }) >>= f)
  | declare {K U : List Label} (hfree : free = true) (id : LocalId) (type : FieldType) :
    Orderly free K U U (declare id type)
  | modify {K U : List Label} (hfree : free = true) (g : LocalSlots → LocalSlots) :
    Orderly free K U U (modify g : Lowering Unit)

namespace Orderly

variable {free : Bool} {K U V W : List Label} {x : Lowering α}

theorem pure (v : α) : Orderly free K U U (Pure.pure v) := .ask fun _ _ => v

theorem nextSlot : Orderly free K U U nextSlot := .ask fun slots _ => slots.next

theorem bind {f : α → Lowering β} (hx : Orderly free K U V x) (hf : ∀ v, Orderly free K V W (f v)) :
    Orderly free K U W (x >>= f) :=
  .bindYields hx (fun _ _ _ _ _ _ => trivial) fun v _ => hf v

theorem ite {p : Prop} [Decidable p] {y : Lowering α} (hx : Orderly free K U V x)
    (hy : Orderly free K U V y) : Orderly free K U V (if p then x else y) := by
  split
  · exact hx
  · exact hy

/-- **Code in order is emitted**, and the slots stay as they are unless they are free to
change. -/
theorem emitted (h : Orderly free K U V x) {slots slots' : LocalSlots} {a b : Assembler} {v : α}
    (hx : x slots a = .ok (v, slots') b) :
    Emitted a b ∧ (free = false → slots' = slots) := by
  induction h generalizing slots slots' a b with
  | ask g =>
    cases hx
    exact ⟨.refl, fun _ => rfl⟩
  | throw => cases hx
  | bindYields _ hP _ ihx ihf =>
    obtain ⟨w, slots₁, a₁, hw, hv⟩ := bind_eq_ok hx
    obtain ⟨hab, hslots⟩ := ihx hw
    obtain ⟨hbc, hslots'⟩ := ihf w (hP _ _ _ _ _ hw) hv
    exact ⟨hab.trans hbc, fun h => (hslots' h).trans (hslots h)⟩
  | lookup id =>
    unfold Lowering.lookup at hx
    split at hx
    · cases hx
      exact ⟨.refl, fun _ => rfl⟩
    · cases hx
  | emit hcommon =>
    obtain ⟨hv, hslots⟩ := emit_eq_ok hx
    exact ⟨Emitted.refl.step (.common hcommon) hv, fun _ => hslots⟩
  | branch hop =>
    obtain ⟨hv, hslots⟩ := emit_eq_ok hx
    exact ⟨Emitted.refl.step (.branch hop _) hv, fun _ => hslots⟩
  | place newer l =>
    obtain ⟨hv, hslots⟩ := emit_eq_ok hx
    exact ⟨Emitted.refl.step (.place l) hv, fun _ => hslots⟩
  | fresh limit _ ih =>
    obtain ⟨l, slots₁, a₁, hl, hv⟩ := bind_eq_ok hx
    obtain ⟨hnew, rfl⟩ := emit_eq_ok hl
    obtain ⟨hbc, hslots⟩ := ih l hv
    exact ⟨(Emitted.refl.step (.newLabel limit) hnew).trans hbc, hslots⟩
  | declare hfree id type =>
    unfold Lowering.declare at hx
    split at hx
    · cases hx
      exact ⟨.refl, fun h => absurd (hfree.symm.trans h) nofun⟩
    · cases hx
  | modify hfree g =>
    cases hx
    exact ⟨.refl, fun h => absurd (hfree.symm.trans h) nofun⟩

end Orderly

/-- The code branches only to the given labels and to its own, and it places just its
own. -/
def Within (free : Bool) (labels : List Label) (x : Lowering α) : Prop :=
  ∀ known pending, labels ⊆ known → Orderly free known pending pending x

section Within

variable {free : Bool} {labels : List Label} {x : Lowering α} {op : Opcode} {left right : Operand}

theorem Within.emits (h : Within false labels x) : Emits x := by
  intro slots a v slots' b hx
  obtain ⟨hab, hslots⟩ := (h labels [] (List.Subset.refl labels)).emitted hx
  exact ⟨hab, hslots rfl⟩

theorem Within.adds (h : Within free labels x) : Adds x :=
  fun _ _ _ _ _ hx => ((h labels [] (List.Subset.refl labels)).emitted hx).1

theorem within_pure (v : α) : Within free labels (pure v) := fun _ _ _ => .pure v

theorem within_throw {e : CompileError} (he : e.isFault = false) :
    Within free labels (throw e : Lowering α) :=
  fun _ _ _ => .throw he

theorem Within.bind {f : α → Lowering β} (hx : Within free labels x)
    (hf : ∀ v, Within free labels (f v)) : Within free labels (x >>= f) :=
  fun K U hK => (hx K U hK).bind fun v => hf v K U hK

theorem Within.bindYields {P : α → Prop} {f : α → Lowering β} (hx : Within free labels x)
    (hP : Yields P x) (hf : ∀ v, P v → Within free labels (f v)) :
    Within free labels (x >>= f) :=
  fun K U hK => .bindYields (hx K U hK) hP fun v hv => hf v hv K U hK

theorem Within.ite {p : Prop} [Decidable p] {y : Lowering α} (hx : Within free labels x)
    (hy : Within free labels y) : Within free labels (if p then x else y) :=
  fun K U hK => (hx K U hK).ite (hy K U hK)

theorem Within.orderly (h : Within free [] x) {K U : List Label} : Orderly free K U U x :=
  h K U (List.nil_subset K)

theorem Within.anywhere (h : Within free [] x) : Within free labels x :=
  fun _ _ _ => h.orderly

theorem within_emit {x : Assembling Unit} (hx : x.Common) : Within free labels (emit x) :=
  fun _ _ _ => .emit hx

theorem within_simple (h : op.operandBytes = 0) : Within free labels (emit (Assembler.simple op)) :=
  within_emit (.simple h)

theorem within_branch (h : op.effect.isBranch = true) {target : Label} (ht : target ∈ labels) :
    Within free labels (emit (Assembler.branch op target)) :=
  fun _ _ hK => .branch h (hK ht)

theorem within_forM {xs : List α} {f : α → Lowering Unit}
    (h : ∀ x ∈ xs, Within free labels (f x)) : Within free labels (xs.forM f) := by
  induction xs with
  | nil => exact within_pure ()
  | cons x xs ih =>
    change Within free labels (f x >>= fun _ => xs.forM f)
    exact (h x List.mem_cons_self).bind fun _ => ih fun y hy => h y (List.mem_cons_of_mem x hy)

theorem within_unsupported (e : Expr) : Within free labels (unsupported e : Lowering α) :=
  within_throw rfl

/-- Asking for a type makes no label. -/
theorem within_typeOf (e : Expr) : Within free [] (typeOf e) := by
  unfold typeOf
  split
  · exact within_pure _
  · exact within_unsupported e

theorem typeOf_of_some {e : Expr} {t : FieldType} (h : e.type = some t) : typeOf e = pure t := by
  unfold typeOf
  rw [h]

theorem within_arrayTypeOf (e : Expr) : Within free [] (arrayTypeOf e) := by
  unfold arrayTypeOf
  split
  · exact .ite (within_pure _) (within_unsupported e)
  · exact within_unsupported e

theorem within_lookup (id : LocalId) : Within free [] (lookup id) := fun _ _ _ => .lookup id

theorem within_loadThis (site : Site) : Within free [] (loadThis site) :=
  .ite (within_throw rfl) (within_emit (.loadLocal _ _))

theorem within_generalizeTop (type : FieldType) : Within free [] (generalizeTop type) :=
  .ite (within_emit (.generalize _)) (within_pure _)

/-! ### Values

Each combinator needs no more labels than its operands do. -/

theorem within_converted {o : Operand} (h : Within free [] o.value) (expected : FieldType) :
    Within free [] (o.converted expected) :=
  h.bind fun _ => (within_typeOf _).bind fun _ => .ite (within_simple rfl) (within_pure ())

theorem within_arguments {operands : List Operand}
    (h : ∀ o ∈ operands, Within free [] o.value) (d : MethodDescriptor) :
    Within free [] (arguments operands d) := by
  refine .ite (within_throw rfl) (within_forM ?_)
  rintro ⟨o, parameter⟩ hmem
  exact within_converted (h o (List.of_mem_zip hmem).1) parameter

theorem within_operate (e : Expr) (op : BinaryOp) (kind : ValueKind) :
    Within free [] (operate e op kind) := by
  unfold operate
  split
  · rename_i opcode hop
    refine within_simple ?_
    unfold binaryOpcode at hop
    split at hop <;> cases hop <;> rfl
  · exact within_unsupported e

theorem within_newBuilder : Within free [] newBuilder :=
  (within_emit (.newObject _)).bind fun _ => (within_simple rfl).bind fun _ =>
    within_emit (.construct _ _)

theorem within_append (type : FieldType) : Within free [] (append type) :=
  within_emit (.invoke _ _)

theorem within_builderString : Within free [] builderString := within_emit (.invoke _ _)

theorem within_joined {pieces : List Operand} (h : ∀ o ∈ pieces, Within free [] o.value) :
    Within free [] (joined pieces) := by
  refine within_newBuilder.bind fun _ => (within_forM fun o ho => ?_).bind fun _ =>
    within_builderString
  exact (h o ho).bind fun _ => (within_typeOf _).bind fun _ => within_append _

theorem within_binaryValue (e : Expr) (op : BinaryOp) {pieces : List Operand}
    (hl : Within free [] left.value) (hr : Within free [] right.value)
    (h : ∀ o ∈ pieces, Within free [] o.value) :
    Within free [] (binaryValue e op left right pieces) :=
  (within_typeOf e).bind fun _ => .ite (within_joined h)
    ((within_converted hl _).bind fun _ => (within_converted hr _).bind fun _ =>
      within_operate _ _ _)

/-! ### Conditions

A condition may branch to its target and to labels of its own, which it places before it ends. -/

/-- Whatever the outcome and the label, the code that goes to the label is within
it. -/
def JumpsWithin (free : Bool) (jump : Jump) : Prop :=
  ∀ outcome target, Within free [target] (jump outcome target)

theorem JumpsWithin.orderly {jump : Jump} (h : JumpsWithin free jump) (outcome : Bool)
    {target : Label} {K U : List Label} (ht : target ∈ K) :
    Orderly free K U U (jump outcome target) :=
  h outcome target K U (List.cons_subset.2 ⟨ht, List.nil_subset K⟩)

theorem within_jumpOn {value : Lowering Unit} (h : Within free [] value) :
    JumpsWithin free (jumpOn value) :=
  fun _ _ => h.anywhere.bind fun _ =>
    within_branch (by split <;> rfl) List.mem_cons_self

theorem within_jumpConstant (value : Bool) : JumpsWithin free (jumpConstant value) :=
  fun _ _ => .ite (within_branch rfl List.mem_cons_self) (within_pure ())

/-- A logical operation branches to its target, and to a label of its own that is placed
behind both operands. -/
theorem within_jumpLogical (op : LogicalOp) {left right : Jump} (hl : JumpsWithin free left)
    (hr : JumpsWithin free right) : JumpsWithin free (jumpLogical op left right) := by
  intro outcome target K U hK
  have ht : target ∈ K := hK List.mem_cons_self
  have hboth : Orderly free K U U (do left outcome target; right outcome target) :=
    (hl.orderly outcome ht).bind fun _ => hr.orderly outcome ht
  have hskip : Orderly free K U U (do
      let skip ← emit Assembler.freshLabel
      left (!outcome) skip
      right outcome target
      emit (Assembler.place skip)) :=
    .fresh none fun skip => (hl.orderly (!outcome) List.mem_cons_self).bind fun _ =>
      (hr.orderly outcome (List.mem_cons_of_mem skip ht)).bind fun _ => .place [] skip
  unfold jumpLogical
  split
  · exact hboth
  · exact hboth
  · exact hskip
  · exact hskip

/-- A comparison of references branches to its target alone. -/
theorem within_compareReferences (e : Expr) (op : CompareOp) (hl : Within free [] left.value)
    (hr : Within free [] right.value) :
    Within free [] (compareReferences e op left right) := by
  have hchecked : ∀ o, nullChecked left right = some o → Within free [] o.value := by
    intro o ho
    unfold nullChecked at ho
    repeat' split at ho
    all_goals cases ho
    · exact hl
    · exact hr
  unfold compareReferences
  split
  · rename_i o ho
    exact (hchecked o ho).bind fun _ => within_pure _
  · rename_i o ho
    exact (hchecked o ho).bind fun _ => within_pure _
  · exact hl.bind fun _ => hr.bind fun _ => within_pure _
  · exact hl.bind fun _ => hr.bind fun _ => within_pure _
  · exact within_unsupported e

theorem within_compareOperands (e : Expr) (op : CompareOp) (hl : Within free [] left.value)
    (hr : Within free [] right.value) :
    Within free [] (compareOperands e op left right) := by
  refine (within_typeOf _).bind fun _ => (within_typeOf _).bind fun _ => ?_
  split
  · exact hl.bind fun _ => .ite (within_pure _) (hr.bind fun _ => within_pure _)
  · exact (within_converted hl _).bind fun _ => (within_converted hr _).bind fun _ =>
      (within_simple (by cases op <;> rfl)).bind fun _ => within_pure _
  · exact within_compareReferences e op hl hr

/-- What a comparison yields is a branch. -/
theorem yields_compareOperands (e : Expr) (op : CompareOp) (left right : Operand) :
    Yields (fun taken => taken.effect.isBranch = true) (compareOperands e op left right) := by
  refine .bind fun _ => .bind fun _ => ?_
  split
  · refine .bind fun _ => ?_
    split
    · exact yields_pure (by cases op <;> rfl)
    · exact .bind fun _ => yields_pure (by cases op <;> rfl)
  · exact .bind fun _ => .bind fun _ => .bind fun _ => yields_pure (by cases op <;> rfl)
  · unfold compareReferences
    split
    · exact .bind fun _ => yields_pure rfl
    · exact .bind fun _ => yields_pure rfl
    · exact .bind fun _ => .bind fun _ => yields_pure rfl
    · exact .bind fun _ => .bind fun _ => yields_pure rfl
    · exact yields_throw _

theorem isBranch_of_negate {opposite : Opcode} (h : op.negate = some opposite) :
    opposite.effect.isBranch = true := by
  unfold Opcode.negate at h
  split at h <;> cases h <;> rfl

/-- A jump on a comparison branches to its target alone. -/
theorem within_jumpCompare (e : Expr) (op : CompareOp) (hl : Within free [] left.value)
    (hr : Within free [] right.value) :
    JumpsWithin free (jumpCompare e op left right) := by
  intro outcome target
  refine (within_compareOperands e op hl hr).anywhere.bindYields
    (yields_compareOperands e op left right)
    fun taken htaken => .ite (within_branch htaken List.mem_cons_self) ?_
  split
  · rename_i opposite hopposite
    exact within_branch (isBranch_of_negate hopposite) List.mem_cons_self
  · exact within_unsupported e

theorem within_outcomeValue {jump : Jump} (h : JumpsWithin free jump) :
    Within free [] (outcomeValue jump) :=
  fun _ _ _ => .fresh none fun falseLabel => .fresh none fun endLabel =>
    (h.orderly false (List.mem_cons_of_mem _ List.mem_cons_self)).bind fun _ =>
      (Orderly.emit (.pushInt 1)).bind fun _ =>
        (Orderly.branch rfl List.mem_cons_self).bind fun _ =>
          (Orderly.place [endLabel] falseLabel).bind fun _ =>
            (Orderly.emit (.pushInt 0)).bind fun _ => .place [] endLabel

/-- A conditional expression needs two labels of its own, and both are placed. -/
theorem within_conditionalValue (e : Expr) {condition : Jump} {thenValue elseValue : Operand}
    (hc : JumpsWithin free condition) (ht : Within free [] thenValue.value)
    (he : Within free [] elseValue.value) :
    Within free [] (conditionalValue e condition thenValue elseValue) := by
  refine (within_typeOf e).bind fun type K U _ => .fresh none fun elseLabel =>
    .fresh none fun endLabel => ?_
  exact (hc.orderly false (List.mem_cons_of_mem _ List.mem_cons_self)).bind fun _ =>
    (within_converted ht type).orderly.bind fun _ =>
      (within_generalizeTop type).orderly.bind fun _ =>
        (Orderly.branch rfl List.mem_cons_self).bind fun _ =>
          (Orderly.place [endLabel] elseLabel).bind fun _ =>
            (within_converted he type).orderly.bind fun _ =>
              (within_generalizeTop type).orderly.bind fun _ => .place [] endLabel

end Within
end Lowering

/-! ### Places

Whether a local, a field or an element: a place is found, read and written without labels. -/

/-- The code that says where a place is needs no labels. -/
def Place.Within (free : Bool) : Place → Prop
  | .slot _ | .staticField _ => True
  | .field object _ => object.Within free []
  | .element array index => array.Within free [] ∧ index.Within free []

namespace Place

open Lowering (Within within_pure within_emit within_simple within_lookup)

variable {free : Bool}

theorem within_address {p : Place} (h : p.Within free) : Lowering.Within free [] p.address := by
  cases p with
  | slot id => exact within_pure ()
  | staticField f => exact within_pure ()
  | field object f => exact h
  | element array index => exact h.1.bind fun _ => h.2

theorem within_copyAddress (p : Place) : Lowering.Within free [] p.copyAddress := by
  cases p with
  | slot id => exact within_pure ()
  | staticField f => exact within_pure ()
  | field object f => exact within_simple rfl
  | element array index => exact within_simple rfl

theorem within_load (p : Place) (type : FieldType) : Lowering.Within free [] (p.load type) := by
  cases p with
  | slot id => exact (within_lookup id).bind fun _ => within_emit (.loadLocal _ _)
  | staticField f => exact within_emit (.getField f)
  | field object f => exact within_emit (.getField f)
  | element array index => exact within_emit (.loadElement type)

theorem within_store (p : Place) (type : FieldType) :
    Lowering.Within free [] (p.store type) := by
  cases p with
  | slot id => exact (within_lookup id).bind fun _ => within_emit (.storeLocal _ _)
  | staticField f => exact within_emit (.putField f)
  | field object f => exact within_emit (.putField f)
  | element array index => exact within_emit (.storeElement type)

theorem within_keepIf (p : Place) (wanted : Bool) :
    Lowering.Within free [] (p.keepIf wanted) :=
  .ite (within_simple (by cases p <;> rfl)) (within_pure ())

theorem within_loadForUpdate {p : Place} (h : p.Within free) (type : FieldType) :
    Lowering.Within free [] (p.loadForUpdate type) :=
  (within_address h).bind fun _ => p.within_copyAddress.bind fun _ => p.within_load type

end Place

/-! ### Fragments -/

/-- In whichever way an expression is asked for, its code needs no labels but the one
that it goes to. -/
structure Fragment.Within (free : Bool) (f : Fragment) : Prop where
  value : f.value.Within free []
  effect : f.effect.Within free []
  jump : Lowering.JumpsWithin free f.jump
  place : ∀ p, f.place = some p → p.Within free
  pieces : ∀ o ∈ f.pieces, o.value.Within free []

namespace Lowering

variable {free : Bool} {target : Fragment} {value : Operand}

/-- Finding a place makes no label. -/
theorem within_placeOf (target : Fragment) : Within free [] (placeOf target) := by
  unfold placeOf
  split
  · exact within_pure _
  · exact within_unsupported _

/-- The place of a fragment is the one that it has. -/
theorem yields_placeOf (h : target.Within free) : Yields (Place.Within free) (placeOf target) := by
  unfold placeOf
  split
  · rename_i p hp
    exact yields_pure (h.place p hp)
  · exact yields_throw _

theorem within_assign (ht : target.Within free) (hv : Within free [] value.value) (wanted : Bool) :
    Within free [] (assign target value wanted) :=
  (within_typeOf _).bind fun _ =>
    (within_placeOf target).bindYields (yields_placeOf ht) fun p hp =>
      (Place.within_address hp).bind fun _ => (within_converted hv _).bind fun _ =>
        (p.within_keepIf wanted).bind fun _ => p.within_store _

theorem within_updateArithmetic (target : Expr) (op : BinaryOp) (type : FieldType)
    (hv : Within free [] value.value) (valueType : FieldType) :
    Within free [] (updateArithmetic target op type value valueType) :=
  .ite
    ((within_simple rfl).bind fun _ => (within_converted hv _).bind fun _ =>
      (within_operate _ _ _).bind fun _ => within_simple rfl)
    ((within_converted hv _).bind fun _ => within_operate _ _ _)

theorem within_updateString (type : FieldType) (hv : Within free [] value.value)
    (valueType : FieldType) :
    Within free [] (updateString type value valueType) :=
  within_newBuilder.bind fun _ => (within_simple rfl).bind fun _ => (within_append _).bind fun _ =>
    hv.bind fun _ => (within_append _).bind fun _ => within_builderString

theorem within_compoundThrough (ht : target.Within free) (op : BinaryOp)
    (hv : Within free [] value.value) (type valueType : FieldType) (wanted : Bool) :
    Within free [] (compoundThrough target op value type valueType wanted) := by
  refine (within_placeOf target).bindYields (yields_placeOf ht) fun p hp =>
    (Place.within_loadForUpdate hp type).bind fun _ => ?_
  split
  · exact (within_updateString _ hv _).bind fun _ => (p.within_keepIf wanted).bind fun _ =>
      p.within_store type
  · exact (within_updateArithmetic _ _ _ hv _).bind fun _ => (p.within_keepIf wanted).bind fun _ =>
      p.within_store type

theorem within_compound (op : BinaryOp) (ht : target.Within free) (hv : Within free [] value.value)
    (wanted : Bool) :
    Within free [] (compound op target value wanted) := by
  refine (within_typeOf _).bind fun _ => (within_typeOf _).bind fun _ => ?_
  split
  · exact .ite ((within_lookup _).bind fun _ => within_emit (.increment _ _))
      (within_compoundThrough ht op hv _ _ wanted)
  · exact within_compoundThrough ht op hv _ _ wanted

theorem within_pushOne (target : Expr) (kind : ValueKind) :
    Within free [] (pushOne target kind) := by
  cases kind with
  | int => exact within_emit (.pushInt _)
  | float => exact within_emit (.pushFloat _)
  | reference => exact within_unsupported target

theorem within_incrementThrough (ht : target.Within free) (type : FieldType)
    (decrement inFront wanted : Bool) :
    Within free [] (incrementThrough target type decrement inFront wanted) :=
  (within_placeOf target).bindYields (yields_placeOf ht) fun p hp =>
    (Place.within_loadForUpdate hp type).bind fun _ => (p.within_keepIf _).bind fun _ =>
      (within_pushOne _ _).bind fun _ => (within_operate _ _ _).bind fun _ =>
        (p.within_keepIf _).bind fun _ => p.within_store type

/-- An increment of a local has nothing to do with labels. -/
theorem within_incrementSlot (id : LocalId) (type : FieldType)
    (decrement inFront wanted : Bool) :
    Within free [] (incrementSlot id type decrement inFront wanted) := by
  refine (within_lookup id).bind fun found => ?_
  have hload : Within free [] (emit (Assembler.loadLocal found.1 type)) :=
    within_emit (.loadLocal _ _)
  have hincrement : Within free []
      (emit (Assembler.increment found.1 (if decrement then -1 else 1))) :=
    within_emit (.increment _ _)
  have hlast := hincrement.bind fun _ =>
    Within.ite (p := (wanted && inFront) = true) hload (within_pure ())
  dsimp only
  split
  · exact hload.bind fun _ => hlast
  · exact hlast

theorem within_increment (ht : target.Within free) (decrement inFront wanted : Bool) :
    Within free [] (increment target decrement inFront wanted) := by
  refine (within_typeOf _).bind fun _ => ?_
  split
  · exact .ite (within_incrementSlot _ _ _ _ _) (within_incrementThrough ht _ _ _ _)
  · exact within_incrementThrough ht _ _ _ _

end Lowering

namespace Fragment

open Lowering

variable {free : Bool}

theorem within_ofValue (source : Expr) {value : Lowering Unit} (h : Lowering.Within free [] value) :
    (ofValue source value).Within free where
  value := h
  effect := h.bind fun _ => .ite (within_simple rfl) (within_pure ())
  jump := within_jumpOn h
  place p hp := nomatch hp
  pieces o ho := by
    rw [ofValue, List.mem_singleton] at ho
    rw [ho]
    exact h

theorem within_ofPlace (source : Expr) {value : Lowering Unit} (h : Lowering.Within free [] value)
    {p : Place} (hp : p.Within free) : (ofPlace source value p).Within free :=
  { within_ofValue source h with
    place := fun q hq => by
      cases hq
      exact hp }

theorem within_ofJump (source : Expr) {jump : Jump} (h : JumpsWithin free jump) :
    (ofJump source jump).Within free :=
  { within_ofValue source (within_outcomeValue h) with jump := h }

theorem within_ofUpdate (source : Expr) {update : Bool → Lowering Unit}
    (h : ∀ wanted, Lowering.Within free [] (update wanted)) :
    (ofUpdate source update).Within free :=
  { within_ofValue source (h true) with effect := h false }

end Fragment

/-! ### Expressions

The combinators of single expressions, and from them the walk over the tree (`Expr.within`). -/

namespace Lowering

variable {free : Bool} {operands : List Operand} {operand : Operand}

theorem within_loadVar (id : LocalId) : Within free [] (loadVar id) :=
  (within_lookup id).bind fun _ => within_emit (.loadLocal _ _)

theorem within_negated (e : Expr) (h : Within free [] operand.value) :
    Within free [] (negated e operand) := by
  refine h.bind fun _ => (within_typeOf _).bind fun _ => ?_
  split
  · exact within_simple rfl
  · exact within_simple rfl
  · exact within_unsupported e

theorem within_complemented (h : Within free [] operand.value) :
    Within free [] (complemented operand) :=
  h.bind fun _ => (within_emit (.pushInt _)).bind fun _ => within_simple rfl

theorem within_elementValue (e : Expr) {array index : Operand}
    (ha : Within free [] array.value) (hi : Within free [] index.value) :
    Within free [] (elementValue e array index) :=
  ha.bind fun _ => hi.bind fun _ => (within_typeOf e).bind fun _ =>
    within_emit (.loadElement _)

theorem within_receiver (site : Site) (method : MethodRef) {object : Option Operand}
    (h : ∀ o, object = some o → Within free [] o.value) :
    Within free [] (receiver site method object) := by
  cases object with
  | none => exact .ite (within_pure ()) (within_loadThis site)
  | some o => exact (h o rfl).bind fun _ => .ite (within_simple rfl) (within_pure ())

theorem within_called (site : Site) {object : Option Operand} (method : MethodRef) (viaSuper : Bool)
    (ho : ∀ o, object = some o → Within free [] o.value)
    (h : ∀ o ∈ operands, Within free [] o.value) :
    Within free [] (called site object method operands viaSuper) :=
  (within_receiver site method ho).bind fun _ => (within_arguments h _).bind fun _ =>
    within_emit (.invoke _ _)

theorem within_created (constructor : MethodRef) (h : ∀ o ∈ operands, Within free [] o.value) :
    Within free [] (created constructor operands) :=
  (within_emit (.newObject _)).bind fun _ => (within_simple rfl).bind fun _ =>
    (within_arguments h _).bind fun _ => within_emit (.construct _ _)

theorem within_createdArray (e : Expr) {dimensions : List Operand}
    (h : ∀ o ∈ dimensions, Within free [] o.value) :
    Within free [] (createdArray e dimensions) :=
  (within_arrayTypeOf e).bind fun _ => .ite (within_unsupported e)
    ((within_forM h).bind fun _ => within_emit (.newArray _ _))

theorem within_storeElements (type : FieldType) (index : Nat)
    (h : ∀ o ∈ operands, Within free [] o.value) :
    Within free [] (storeElements type index operands) := by
  induction operands generalizing index with
  | nil => exact within_pure ()
  | cons o operands ih =>
    exact (within_simple rfl).bind fun _ => (within_emit (.pushInt _)).bind fun _ =>
      (within_converted (h o List.mem_cons_self) _).bind fun _ =>
        (within_emit (.storeElement _)).bind fun _ =>
          ih (index + 1) fun p hp => h p (List.mem_cons_of_mem o hp)

theorem within_filledArray (e : Expr) {elements : List Operand}
    (h : ∀ o ∈ elements, Within free [] o.value) :
    Within free [] (filledArray e elements) := by
  refine (within_arrayTypeOf e).bind fun _ => ?_
  split
  · exact within_unsupported e
  · exact .ite (within_unsupported e)
      ((within_emit (.pushInt _)).bind fun _ =>
        (within_emit (.newArray _ _)).bind fun _ => within_storeElements _ _ h)

/-- A cast branches nowhere but inside its operand. -/
theorem within_castValue (e : Expr) (h : Within free [] operand.value) :
    Within free [] (castValue e operand) := by
  refine (within_typeOf _).bind fun _ => (within_typeOf e).bind fun _ => h.bind fun _ => ?_
  split
  · exact within_simple rfl
  · exact within_simple rfl
  · exact .ite (within_pure ()) (within_emit (.checkCast _))
  · exact .ite (within_pure ()) (within_unsupported e)

/-- A binary expression stays within labels however it is used: as a value, dropped, or
jumped on. -/
theorem within_binaryFragment (e : Expr) (op : BinaryOp) {left right : Fragment}
    (hl : left.Within free) (hr : right.Within free) :
    (binaryFragment e op left right).Within free := by
  have hpieces : ∀ o ∈ left.pieces ++ [right.toOperand], Within free [] o.value := by
    intro o ho
    rw [List.mem_append, List.mem_singleton] at ho
    rcases ho with ho | rfl
    · exact hl.pieces o ho
    · exact hr.value
  have hvalue := within_binaryValue e op hl.value hr.value hpieces
  refine { Fragment.within_ofValue e hvalue with pieces := fun o ho => ?_ }
  unfold binaryFragment chain at ho
  dsimp only at ho
  split at ho
  · exact hpieces o ho
  · rw [List.mem_singleton] at ho
    rw [ho]
    exact hvalue

theorem within_unaryFragment (e : Expr) (op : UnaryOp) {operand : Fragment}
    (h : operand.Within free) : (unaryFragment e op operand).Within free := by
  cases op with
  | negate => exact Fragment.within_ofValue e (within_negated e h.value)
  | bitNot => exact Fragment.within_ofValue e (within_complemented h.value)
  | not => exact Fragment.within_ofJump e fun outcome target => h.jump (!outcome) target

end Lowering

/-- A fragment is of its expression. -/
theorem Expr.source_fragment (site : Site) (e : Expr) : (e.fragment site).source = e := by
  cases e with
  | unary op operand t => cases op <;> (rw [Expr.fragment]; rfl)
  | _ =>
    rw [Expr.fragment]
    rfl

theorem Expr.type_source (site : Site) {e : Expr} {t : FieldType} (h : e.type = some t) :
    (e.fragment site).source.type = some t := by
  rw [Expr.source_fragment]
  exact h

mutual

/-- **The code of every expression is in order**, in whichever way the expression is
asked for. -/
theorem Expr.within (free : Bool) (site : Site) (e : Expr) : (e.fragment site).Within free := by
  open Lowering in
  match e with
  | .int value t =>
    rw [Expr.fragment]
    exact Fragment.within_ofValue _ (within_emit (.pushInt value))
  | .float value t =>
    rw [Expr.fragment]
    exact Fragment.within_ofValue _ (within_emit (.pushFloat value))
  | .boolean value t =>
    rw [Expr.fragment]
    exact { Fragment.within_ofValue _ (within_emit (.pushInt _)) with
      jump := within_jumpConstant value }
  | .string value t =>
    rw [Expr.fragment]
    exact Fragment.within_ofValue _ (within_emit (.pushString value))
  | .null t =>
    rw [Expr.fragment]
    exact Fragment.within_ofValue _ (within_simple rfl)
  | .this t =>
    rw [Expr.fragment]
    exact Fragment.within_ofValue _ (within_loadThis site)
  | .var id t =>
    rw [Expr.fragment]
    exact Fragment.within_ofPlace _ (within_loadVar id) trivial
  | .staticField f t =>
    rw [Expr.fragment]
    exact Fragment.within_ofPlace _ (within_emit (.getField f)) trivial
  | .field object f t =>
    rw [Expr.fragment]
    have hobject := (object.within free site).value
    exact Fragment.within_ofPlace _
      (hobject.bind fun _ => within_emit (.getField f)) hobject
  | .element array index t =>
    rw [Expr.fragment]
    have harray := (array.within free site).value
    have hindex := (index.within free site).value
    exact Fragment.within_ofPlace _ (within_elementValue _ harray hindex) ⟨harray, hindex⟩
  | .length array t =>
    rw [Expr.fragment]
    exact Fragment.within_ofValue _ ((array.within free site).value.bind fun _ => within_simple rfl)
  | .assign target value t =>
    rw [Expr.fragment]
    exact Fragment.within_ofUpdate _
      (within_assign (target.within free site) (value.within free site).value)
  | .compound op target value t =>
    rw [Expr.fragment]
    exact Fragment.within_ofUpdate _
      (within_compound op (target.within free site) (value.within free site).value)
  | .increment target decrement inFront t =>
    rw [Expr.fragment]
    exact Fragment.within_ofUpdate _ (within_increment (target.within free site) decrement inFront)
  | .unary op operand t =>
    rw [Expr.fragment]
    exact within_unaryFragment _ op (operand.within free site)
  | .binary op left right t =>
    rw [Expr.fragment]
    exact within_binaryFragment _ op (left.within free site) (right.within free site)
  | .compare op left right t =>
    rw [Expr.fragment]
    exact Fragment.within_ofJump _
      (within_jumpCompare _ op (left.within free site).value (right.within free site).value)
  | .logical op left right t =>
    rw [Expr.fragment]
    exact Fragment.within_ofJump _
      (within_jumpLogical op (left.within free site).jump (right.within free site).jump)
  | .conditional condition thenValue elseValue t =>
    rw [Expr.fragment]
    exact Fragment.within_ofValue _ (within_conditionalValue _ (condition.within free site).jump
      (thenValue.within free site).value (elseValue.within free site).value)
  | .call object method operands viaSuper t =>
    rw [Expr.fragment]
    exact Fragment.within_ofValue _ (within_called site method viaSuper
      (Expr.within_operand? free site object) (Expr.within_operands free site operands))
  | .new constructor operands t =>
    rw [Expr.fragment]
    exact Fragment.within_ofValue _
      (within_created constructor (Expr.within_operands free site operands))
  | .newArray dimensions t =>
    rw [Expr.fragment]
    exact Fragment.within_ofValue _
      (within_createdArray _ (Expr.within_operands free site dimensions))
  | .arrayOf elements t =>
    rw [Expr.fragment]
    exact Fragment.within_ofValue _ (within_filledArray _ (Expr.within_operands free site elements))
  | .cast operand t =>
    rw [Expr.fragment]
    exact Fragment.within_ofValue _ (within_castValue _ (operand.within free site).value)
  | .instanceOf operand tested t =>
    rw [Expr.fragment]
    exact Fragment.within_ofValue _ ((operand.within free site).value.bind fun _ =>
      within_emit (.instanceOf tested))

/-- The operands of a list branch nowhere but inside themselves. -/
theorem Expr.within_operands (free : Bool) (site : Site) (es : List Expr) :
    ∀ o ∈ Expr.operands site es, o.value.Within free [] := by
  match es with
  | [] =>
    intro o ho
    rw [Expr.operands] at ho
    cases ho
  | e :: es =>
    intro o ho
    rw [Expr.operands, List.mem_cons] at ho
    rcases ho with rfl | ho
    · exact (e.within free site).value
    · exact Expr.within_operands free site es o ho

/-- An operand that may be missing branches nowhere but inside itself. -/
theorem Expr.within_operand? (free : Bool) (site : Site) (e : Option Expr) :
    ∀ o, Expr.operand? site e = some o → o.value.Within free [] := by
  match e with
  | none =>
    intro o ho
    rw [Expr.operand?] at ho
    cases ho
  | some e =>
    intro o ho
    rw [Expr.operand?] at ho
    cases ho
    exact (e.within free site).value

end

/-! ### Statements

Statements may branch to the labels of the loops around them; a loop adds its own two to these
(`Stmt.within`). -/

/-- The labels of loops. -/
def Loop.labels (loops : List Loop) : List Label := loops.flatMap fun l => [l.exit, l.next]

namespace Lowering

variable {free : Bool} {labels : List Label}
  {condition : Jump} {body : Label → Label → Lowering Unit}

theorem within_inBlock {x : Lowering Unit} (h : Within true labels x) :
    Within true labels (inBlock x) :=
  fun K U hK => (Orderly.modify rfl _).bind fun _ => (h K U hK).bind fun _ =>
    (Orderly.modify rfl _).bind fun _ => Orderly.nextSlot.bind fun _ => .emit (.killLocals _)

theorem mem_of_findLoop {loops : List Loop} {label : Option String} {l : Loop}
    (h : findLoop loops label = some l) : l ∈ loops := by
  cases label with
  | none => exact List.mem_of_head? h
  | some name => exact List.mem_of_find?_eq_some h

theorem within_jumpTo {loops : List Loop} (label : Option String) {side : Loop → Label}
    (h : ∀ l ∈ loops, side l ∈ labels) : Within free labels (jumpTo loops label side) := by
  unfold jumpTo
  split
  · rename_i l hl
    exact within_branch rfl (h l (mem_of_findLoop hl))
  · exact within_throw rfl

/-- A return branches nowhere but inside its value. -/
theorem within_returned (site : Site) (value : Option Expr) :
    Within free [] (returned site value) := by
  have hexit : Within free [] (emit (Assembler.exit site.method.returns)) := within_emit (.exit _)
  unfold returned
  split
  · rename_i e type _
    exact (within_converted (e.within free site).value type).bind fun _ => hexit
  · exact (within_unsupported _).bind fun _ => hexit
  · exact (within_pure ()).bind fun _ => hexit

theorem within_constructed (site : Site) (constructor : MethodRef) (operands : List Expr) :
    Within free [] (constructed site constructor operands) := by
  have harguments := within_arguments (Expr.within_operands free site operands)
    constructor.descriptor
  exact .ite
    ((within_loadThis site).bind fun _ => harguments.bind fun _ => within_emit (.construct _ _))
    (within_throw rfl)

theorem within_declared (site : Site) (id : LocalId) (type : FieldType) (initial : Option Expr) :
    Within true [] (declared site id type initial) := by
  refine fun K U hK => (Orderly.declare rfl id type).bind fun slot => ?_
  split
  · rename_i e
    exact (within_converted (e.within true site).value type).orderly.bind fun _ =>
      .emit (.storeLocal _ _)
  · exact .pure ()

/-- A condition with branches needs labels of its own, and places both of them. -/
theorem within_branched (hc : JumpsWithin true condition) {thenBranch : Lowering Unit}
    (ht : Within true labels thenBranch) {elseBranch : Option (Lowering Unit)}
    (he : ∀ x, elseBranch = some x → Within true labels x) :
    Within true labels (branched condition thenBranch elseBranch) := by
  refine fun K U hK => .fresh none fun elseLabel =>
    (hc.orderly false List.mem_cons_self).bind fun _ =>
      (within_inBlock ht _ _ (List.subset_cons_of_subset elseLabel hK)).bind fun _ => ?_
  split
  · exact .place [] elseLabel
  · rename_i other
    refine .fresh none fun endLabel => (Orderly.branch rfl List.mem_cons_self).bind fun _ =>
      (Orderly.place [endLabel] elseLabel).bind fun _ => ?_
    have hknown := List.subset_cons_of_subset endLabel (List.subset_cons_of_subset elseLabel hK)
    exact (within_inBlock (he other rfl) _ _ hknown).bind fun _ => .place [] endLabel

theorem within_whileLoop (hc : JumpsWithin true condition)
    (hb : ∀ exit next, Within true (exit :: next :: labels) (body exit next)) :
    Within true labels (whileLoop condition body) := by
  refine fun K U hK => Orderly.nextSlot.bind fun limit => .fresh _ fun head =>
    .fresh _ fun exit => ?_
  have hknown := List.cons_subset_cons exit (List.cons_subset_cons head hK)
  exact (Orderly.place [exit] head).bind fun _ =>
    (hc.orderly false List.mem_cons_self).bind fun _ =>
      (within_inBlock (hb exit head) _ _ hknown).bind fun _ =>
        (Orderly.branch rfl (List.mem_cons_of_mem exit List.mem_cons_self)).bind fun _ =>
          .place [] exit

/-- A loop with its test last makes its labels and places all of them. -/
theorem within_doWhileLoop (hc : JumpsWithin true condition)
    (hb : ∀ exit next, Within true (exit :: next :: labels) (body exit next)) :
    Within true labels (doWhileLoop condition body) := by
  refine fun K U hK => Orderly.nextSlot.bind fun limit => .fresh _ fun head =>
    .fresh _ fun next => .fresh _ fun exit => ?_
  have hknown := List.cons_subset_cons exit
    (List.cons_subset_cons next (List.subset_cons_of_subset head hK))
  have hhead : head ∈ exit :: next :: head :: K := by simp
  exact (Orderly.place [exit, next] head).bind fun _ =>
    (within_inBlock (hb exit next) _ _ hknown).bind fun _ =>
      (Orderly.place [exit] next).bind fun _ => (hc.orderly true hhead).bind fun _ =>
        .place [] exit

/-- The rounds of a counting loop place the labels that they make: one for the test, one for
the update and one behind. -/
theorem within_rounds {condition : Option Jump}
    (hc : ∀ jump, condition = some jump → JumpsWithin true jump) {update : Lowering Unit}
    (hu : Within true [] update)
    (hb : ∀ exit next, Within true (exit :: next :: labels) (body exit next)) :
    Within true labels (rounds condition update body) := by
  refine fun K U hK => Orderly.nextSlot.bind fun limit => .fresh _ fun head =>
    .fresh _ fun next => .fresh _ fun exit => (Orderly.place [exit, next] head).bind fun _ => ?_
  have hknown := List.cons_subset_cons exit
    (List.cons_subset_cons next (List.subset_cons_of_subset head hK))
  have hhead : head ∈ exit :: next :: head :: K := by simp
  have hrest : Orderly true (exit :: next :: head :: K) (exit :: next :: U) U (do
      inBlock (body exit next)
      emit (Assembler.place next)
      update
      emit (Assembler.branch .goto head)
      emit (Assembler.place exit)) :=
    (within_inBlock (hb exit next) _ _ hknown).bind fun _ =>
      (Orderly.place [exit] next).bind fun _ => hu.orderly.bind fun _ =>
        (Orderly.branch rfl hhead).bind fun _ => .place [] exit
  split
  · rename_i jump
    exact ((hc jump rfl).orderly false List.mem_cons_self).bind fun _ => hrest
  · exact (Orderly.pure ()).bind fun _ => hrest

theorem within_forLoop {init : Lowering Unit} (hi : Within true labels init)
    {condition : Option Jump} (hc : ∀ jump, condition = some jump → JumpsWithin true jump)
    {update : Lowering Unit} (hu : Within true [] update)
    (hb : ∀ exit next, Within true (exit :: next :: labels) (body exit next)) :
    Within true labels (forLoop init condition update body) :=
  within_inBlock (hi.bind fun _ => within_rounds hc hu hb)

end Lowering

mutual

/-- **The code of every statement is in order**, within the labels of the loops around
it. -/
theorem Stmt.within (site : Site) (loops : List Loop) (s : Stmt) :
    (s.lower site loops).Within true (Loop.labels loops) := by
  open Lowering in
  have hside : ∀ l ∈ loops, l.exit ∈ Loop.labels loops ∧ l.next ∈ Loop.labels loops := by
    intro l hl
    exact ⟨List.mem_flatMap.2 ⟨l, hl, by simp⟩, List.mem_flatMap.2 ⟨l, hl, by simp⟩⟩
  match s with
  | .expr e =>
    rw [Stmt.lower]
    exact (e.within true site).effect.anywhere
  | .declare id type initial =>
    rw [Stmt.lower]
    exact (within_declared site id type initial).anywhere
  | .block body =>
    rw [Stmt.lower]
    exact within_inBlock (Stmt.within_lowerAll site loops body)
  | .branch condition thenBranch elseBranch =>
    rw [Stmt.lower]
    exact within_branched (condition.within true site).jump (thenBranch.within site loops)
      (Stmt.within_lower? site loops elseBranch)
  | .whileLoop label condition body =>
    rw [Stmt.lower]
    exact within_whileLoop (condition.within true site).jump fun exit next =>
      body.within site (⟨label, exit, next⟩ :: loops)
  | .doWhileLoop label body condition =>
    rw [Stmt.lower]
    exact within_doWhileLoop (condition.within true site).jump fun exit next =>
      body.within site (⟨label, exit, next⟩ :: loops)
  | .forLoop label init condition update body =>
    rw [Stmt.lower]
    refine within_forLoop (Stmt.within_lowerAll site loops init) (fun jump hjump => ?_)
      (within_forM fun e _ => (e.within true site).effect)
      fun exit next => body.within site (⟨label, exit, next⟩ :: loops)
    obtain ⟨e, -, rfl⟩ := Option.map_eq_some_iff.1 hjump
    exact (e.within true site).jump
  | .breakLoop label =>
    rw [Stmt.lower]
    exact within_jumpTo label fun l hl => (hside l hl).1
  | .continueLoop label =>
    rw [Stmt.lower]
    exact within_jumpTo label fun l hl => (hside l hl).2
  | .returnValue value =>
    rw [Stmt.lower]
    exact (within_returned site value).anywhere
  | .construct constructor operands =>
    rw [Stmt.lower]
    exact (within_constructed site constructor operands).anywhere

theorem Stmt.within_lowerAll (site : Site) (loops : List Loop) (ss : List Stmt) :
    (Stmt.lowerAll site loops ss).Within true (Loop.labels loops) := by
  match ss with
  | [] =>
    rw [Stmt.lowerAll]
    exact Lowering.within_pure ()
  | s :: ss =>
    rw [Stmt.lowerAll]
    exact (s.within site loops).bind fun _ => Stmt.within_lowerAll site loops ss

/-- A statement that may be missing stays within these labels, too. -/
theorem Stmt.within_lower? (site : Site) (loops : List Loop) (s : Option Stmt) :
    ∀ x, Stmt.lower? site loops s = some x → x.Within true (Loop.labels loops) := by
  match s with
  | none =>
    intro x hx
    rw [Stmt.lower?] at hx
    cases hx
  | some s =>
    intro x hx
    rw [Stmt.lower?] at hx
    cases hx
    exact s.within site loops

end

namespace Site

open Lowering

variable {free : Bool}

theorem within_lowerSuper (site : Site) : Within free [] site.lowerSuper := by
  unfold lowerSuper
  split
  · exact (within_loadThis site).bind fun _ => within_emit (.construct _ _)
  · exact within_pure ()

theorem within_lowerEnd (site : Site) : Within free [] site.lowerEnd := by
  refine fun K U hK => (Orderly.ask fun _ reachable => reachable).bind fun reachable => ?_
  split
  · exact .pure ()
  · exact .emit (.exit none)
  · exact .throw rfl

/-- Makes the code of the method, without the room for its slots. -/
def lowerCode (site : Site) : Lowering Unit := do
  site.lowerSuper
  Stmt.lowerAll site [] site.method.body
  site.lowerEnd

theorem lower_eq_lowerCode (site : Site) : site.lower = (do site.lowerCode; lowerSlots) := by
  unfold lower lowerCode
  simp only [bind_assoc]

/-- **The code of every method is in order.** -/
theorem within_lowerCode (site : Site) : Within true [] site.lowerCode :=
  site.within_lowerSuper.bind fun _ =>
    (Stmt.within_lowerAll site [] site.method.body).bind fun _ => site.within_lowerEnd

end Site

/-! ### Code is emitted -/

/-- In whichever way an expression is asked for, its code is emitted and the slots
stay as they are. -/
structure Fragment.Emits (f : Fragment) : Prop where
  value : f.value.Emits
  effect : f.effect.Emits
  jump : ∀ outcome target, (f.jump outcome target).Emits

/-- **The code of every expression is emitted**, and the slots of locals stay as they
are. -/
theorem Expr.emits (site : Site) (e : Expr) : (e.fragment site).Emits where
  value := (e.within false site).value.emits
  effect := (e.within false site).effect.emits
  jump outcome target := ((e.within false site).jump outcome target).emits

theorem Site.emits_lowerSlots : Site.lowerSlots.Emits := by
  rintro slots a v slots' b ⟨⟩
  exact ⟨Emitted.refl.step (.noteLocals slots.max) rfl, rfl⟩

/-- **The code of every method is emitted** -/
theorem Site.adds_lower (site : Site) : site.lower.Adds := by
  intro slots a v slots' c h
  rw [site.lower_eq_lowerCode] at h
  obtain ⟨_, slots₁, b, hcode, hslots⟩ := Lowering.bind_eq_ok h
  have hemitted : Emitted a b := site.within_lowerCode.adds _ _ _ _ _ hcode
  exact hemitted.trans (Site.emits_lowerSlots _ _ _ _ _ hslots).1

end ClassForge
