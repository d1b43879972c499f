/-
# The balance of the stack

Code takes a number of values off the stack and leaves a number of others on it,
whatever lies below (`Lowering.Balances`).  The numbers do not depend on the way that
control takes:

| code | takes | gives |
| --- | --- | --- |
| the value of an expression | 0 | 1, or 0 for a call without a result |
| its effect | 0 | 0 |
| a condition that branches | 0 | 0 on both ways |
| the address of a place | 0 | its width |
| loading from a place | the width | 1 |
| storing to a place | the width and 1 | 0 |

For that an expression has to say rightly whether it has a value, and where it has none
its value must not be used (`Expr.isBalanced`).  A discipline for which the number of
values does not matter holds without that.

The proof walks through the combinators; each of them is as wide as the parts it is put
together from (`Fragment.Balanced`), hence every expression is (`Expr.balanced`).
-/

import ClassForge.Proofs.Discipline

namespace ClassForge

/-! ### Expressions with and without a value -/

/-- Is the expression a call of a method without a result? -/
def Expr.isVoid : Expr → Bool
  | .call _ method _ _ _ => method.descriptor.returns.isNone
  | _ => false

/-- How many values the expression leaves. -/
def Expr.outputs (e : Expr) : Nat := if e.isVoid then 0 else 1

mutual

/-- Does each expression have a type just if it has a value, and are only those used that
have one?  Fields have to be static or not as the expression says, and the number of
lengths of a new array fits into a byte. -/
def Expr.isBalanced (e : Expr) : Bool :=
  (e.type.isNone == e.isVoid) &&
    match e with
    | .int .. | .float .. | .boolean .. | .string .. | .null _ | .this _ | .var .. => true
    | .staticField f _ => f.isStatic
    | .field object f _ => !f.isStatic && (!object.isVoid && object.isBalanced)
    | .element array index _ =>
      (!array.isVoid && array.isBalanced) && (!index.isVoid && index.isBalanced)
    | .assign target value _ | .compound _ target value _ =>
      (!target.isVoid && target.isBalanced) && (!value.isVoid && value.isBalanced)
    | .length operand _ | .increment operand _ _ _ | .unary _ operand _ | .cast operand _
    | .instanceOf operand _ _ => !operand.isVoid && operand.isBalanced
    | .binary _ left right _ | .compare _ left right _ | .logical _ left right _ =>
      (!left.isVoid && left.isBalanced) && (!right.isVoid && right.isBalanced)
    | .conditional condition thenValue elseValue _ =>
      (!condition.isVoid && condition.isBalanced) &&
        ((!thenValue.isVoid && thenValue.isBalanced) && (!elseValue.isVoid && elseValue.isBalanced))
    | .call receiver _ operands _ _ =>
      Expr.isOperand? receiver && Expr.areOperands operands
    | .new _ operands _ | .arrayOf operands _ => Expr.areOperands operands
    | .newArray dimensions _ => dimensions.length ≤ 255 && Expr.areOperands dimensions

/-- Are the expressions balanced, and do they have values? -/
def Expr.areOperands (es : List Expr) : Bool :=
  match es with
  | [] => true
  | e :: es => (!e.isVoid && e.isBalanced) && Expr.areOperands es

/-- Is the expression balanced, and does it have a value, unless it is missing? -/
def Expr.isOperand? (e : Option Expr) : Bool :=
  match e with
  | none => true
  | some e => !e.isVoid && e.isBalanced

end

/-- Is the expression balanced, and does it have a value? -/
def Expr.isOperand (e : Expr) : Bool := !e.isVoid && e.isBalanced

namespace Lowering

variable {α β : Type} {D : Discipline} {keeps : Bool} {n m l : Nat}
  {x : Lowering α} {op : Opcode} {left right : Operand}

/-- The code takes `n` values off the stack and leaves `m` others, whatever lies below. -/
def Balances (D : Discipline) (n m : Nat) (x : Lowering α) : Prop :=
  ∀ (P : Standing) (k : Nat), D.Same P.level (k + n) →
    Leads D true P.context P (fun _ => P.having (k + m)) x

theorem balances_pure (v : α) : Balances D n n (pure v) := by
  intro P k hk
  exact (leads_pure (Q := fun _ => P.having P.level) v).relevel hk

theorem balances_throw (e : CompileError) : Balances D n m (throw e : Lowering α) :=
  fun _ _ _ => leads_throw e

theorem balances_unsupported (e : Expr) : Balances D n m (unsupported e : Lowering α) :=
  balances_throw _

theorem Balances.bind {f : α → Lowering β} (hx : Balances D n m x)
    (hf : ∀ v, Balances D m l (f v)) : Balances D n l (x >>= f) :=
  fun P k hk => (hx P k hk).bind fun v => hf v (P.having (k + m)) k (Discipline.same_refl _)

theorem Balances.bindYields {p : α → Prop} {f : α → Lowering β} (hx : Balances D n m x)
    (hp : Yields p x) (hf : ∀ v, p v → Balances D m l (f v)) :
    Balances D n l (x >>= f) :=
  fun P k hk => (hx P k hk).bindYields hp fun v hv =>
    hf v hv (P.having (k + m)) k (Discipline.same_refl _)

theorem Balances.ite {p : Prop} [Decidable p] {y : Lowering α} (hx : p → Balances D n m x)
    (hy : ¬ p → Balances D n m y) : Balances D n m (if p then x else y) :=
  fun P k hk => .ite (fun h => hx h P k hk) fun h => hy h P k hk

/-- Numbers of values matter only where they are counted. -/
theorem Balances.cast {n' m' : Nat} (h : Balances D n m x) (hn : D.Same n' n) (hm : D.Same m m') :
    Balances D n' m' x := by
  intro P k hk
  have hk' : D.Same P.level (k + n) := by
    rcases hn with hflat | rfl
    · exact .inl hflat
    · exact hk
  exact (h P k hk').relevel (hm.imp_right (congrArg (k + ·)))

/-- What lies below does not matter. -/
theorem Balances.above (j : Nat) (h : Balances D n m x) : Balances D (j + n) (j + m) x := by
  intro P k hk
  rw [← Nat.add_assoc] at hk ⊢
  exact h P (k + j) hk

theorem balances_lookup (id : LocalId) : Balances D n n (lookup id) :=
  fun P _ hk => (leads_lookup (P := P) id).relevel (R := P) (k := P.level) hk

theorem balances_typeOf (e : Expr) : Balances D n n (typeOf e) :=
  fun P _ hk => (leads_typeOf (P := P) e).relevel (R := P) (k := P.level) hk

theorem balances_arrayTypeOf (e : Expr) : Balances D n n (arrayTypeOf e) :=
  fun P _ hk => (leads_arrayTypeOf (P := P) e).relevel (R := P) (k := P.level) hk

theorem balances_forM {xs : List α} {f : α → Lowering Unit}
    (h : ∀ x ∈ xs, Balances D 0 1 (f x)) : Balances D 0 xs.length (xs.forM f) := by
  induction xs with
  | nil => exact balances_pure ()
  | cons x xs ih =>
    change Balances D 0 (xs.length + 1) (f x >>= fun _ => xs.forM f)
    refine (h x List.mem_cons_self).bind fun _ => ?_
    rw [Nat.add_comm]
    exact (ih fun y hy => h y (List.mem_cons_of_mem x hy)).above 1

theorem balances_forM_self {xs : List α} {f : α → Lowering Unit}
    (h : ∀ x ∈ xs, Balances D n n (f x)) : Balances D n n (xs.forM f) := by
  induction xs with
  | nil => exact balances_pure ()
  | cons x xs ih =>
    change Balances D n n (f x >>= fun _ => xs.forM f)
    exact (h x List.mem_cons_self).bind fun _ => ih fun y hy => h y (List.mem_cons_of_mem x hy)

/-! ### Instructions

Each instruction takes and gives what its effect says; the numbers are those of the table above. -/

/-- An instruction with a known effect. -/
theorem balances_push {i : Instruction} {types : OperandTypes} {e : Effect} (hi : i.Plain)
    (he : i.opcode.effect = e) (hstore : e.isStore = false) (hkeeps : e.isUnconditional = false)
    (hn : e.takes i.operands types = n) (hm : e.gives types = m) :
    Balances D n m (emit (Assembler.push i types)) := by
  subst he hn hm
  exact fun _ _ hk => leads_push hi.target hstore hkeeps hk (Discipline.same_refl _)

theorem balances_simple (hop : op.operandBytes = 0) (hstore : op.effect.isStore = false)
    (hkeeps : op.effect.isUnconditional = false) (hn : op.effect.takes [] .none = n)
    (hm : op.effect.gives .none = m) :
    Balances D n m (emit (Assembler.simple op)) :=
  balances_push (Instruction.plain_simple hop) rfl hstore hkeeps hn hm

theorem balances_constant {x : Interning UInt16} {f : UInt16 → Assembling α}
    (hf : ∀ index, Balances D n m (emit (f index))) :
    Balances D n m (emit (x.toAssembling >>= f)) :=
  fun P k hk => leads_constant fun index => hf index P k hk

theorem balances_withConstant {x : Interning UInt16} {types : OperandTypes}
    (hop : op.operandBytes = 2) (hstore : op.effect.isStore = false)
    (hkeeps : op.effect.isUnconditional = false)
    (hn : ∀ operands, op.effect.takes operands types = n) (hm : op.effect.gives types = m) :
    Balances D n m (emit (do
      let index ← x.toAssembling
      Assembler.push (.withConstant op index) types)) :=
  balances_constant fun index =>
    balances_push (Instruction.plain_withConstant hop index) rfl hstore hkeeps (hn _) hm

theorem balances_loadConstant (x : Interning UInt16) (type : FrameType) :
    Balances D 0 1 (emit (do
      let index ← x.toAssembling
      Assembler.push (.loadConstant index) (.value type))) := by
  refine balances_constant fun index => ?_
  have heffect : (Instruction.loadConstant index).opcode.effect = .pushConstant := by
    unfold Instruction.loadConstant
    split <;> rfl
  exact balances_push (Instruction.plain_loadConstant index) heffect rfl rfl rfl rfl

theorem balances_pushInt (value : Int32) : Balances D 0 1 (emit (Assembler.pushInt value)) := by
  unfold Assembler.pushInt
  split
  · rename_i i hi
    exact balances_push (Instruction.plain_pushInt hi) (Frame.effect_pushInt hi) rfl rfl rfl rfl
  · exact balances_loadConstant _ _

theorem balances_pushFloat (value : Binary32) :
    Balances D 0 1 (emit (Assembler.pushFloat value)) := by
  unfold Assembler.pushFloat
  split
  · rename_i i hi
    exact balances_push (Instruction.plain_pushFloat hi) (Frame.effect_pushFloat hi) rfl rfl rfl
      rfl
  · exact balances_loadConstant _ _

theorem balances_loadLocal (slot : UInt16) (type : FieldType) :
    Balances D 0 1 (emit (Assembler.loadLocal slot type)) :=
  balances_push (Instruction.plain_load type.kind slot) (Frame.effect_load _ _).1 rfl rfl rfl rfl

theorem balances_increment (slot : UInt16) (amount : Int16) :
    Balances D 0 0 (emit (Assembler.increment slot amount)) := by
  refine balances_push (e := .incrementLocal) (Instruction.plain_increment slot amount) ?_ rfl rfl
    rfl rfl
  unfold Instruction.increment
  split <;> rfl

/-- A local that is in scope is given a value. -/
theorem balances_storeVar (id : LocalId) :
    Balances D 1 0 (do
      let (slot, declared) ← lookup id
      emit (Assembler.storeLocal slot declared)) := by
  intro P k hk w s a v s' b hP hx
  obtain ⟨⟨slot, type⟩, s'', a', hlookup, hx⟩ := bind_eq_ok hx
  unfold lookup at hlookup
  split at hlookup
  · rename_i hfound
    cases hlookup
    exact ⟨w, progress_storeLocal hP hfound hx hk⟩
  · cases hlookup

/-- How many values lie where the instance of a field is expected. -/
def instances (isStatic : Bool) : Nat := if isStatic then 0 else 1

theorem balances_getField (f : FieldRef) :
    Balances D (instances f.isStatic) 1 (emit (Assembler.getField f)) := by
  unfold Assembler.getField instances
  split
  · exact balances_withConstant rfl rfl rfl (fun _ => rfl) rfl
  · exact balances_withConstant rfl rfl rfl (fun _ => rfl) rfl

theorem balances_putField (f : FieldRef) :
    Balances D (instances f.isStatic + 1) 0 (emit (Assembler.putField f)) := by
  unfold Assembler.putField instances
  split
  · exact balances_withConstant rfl rfl rfl (fun _ => rfl) rfl
  · exact balances_withConstant rfl rfl rfl (fun _ => rfl) rfl

/-- A call takes the object, unless the method is static, and the arguments, and leaves the
result if there is one. -/
theorem balances_invoke (method : MethodRef) (viaSuper : Bool) :
    Balances D (instances method.isStatic + method.descriptor.parameters.length)
      method.descriptor.returns.toList.length (emit (Assembler.invoke method viaSuper)) := by
  refine balances_constant fun index => ?_
  have hgives : (OperandTypes.call method.descriptor.parameters.length
      (method.descriptor.returns.map FieldType.verification)).types.length =
        method.descriptor.returns.toList.length := by
    cases method.descriptor.returns <;> rfl
  unfold Assembler.callInstruction MethodRef.invokeKind instances
  by_cases hstatic : method.isStatic = true
  · simp only [if_pos hstatic, Nat.zero_add]
    exact balances_push (e := .invokeStatic) (Instruction.plain_withConstant rfl index) rfl rfl rfl
      rfl hgives
  · simp only [if_neg hstatic, Nat.add_comm 1]
    split
    · exact balances_push (e := .invoke) (Instruction.plain_withConstant rfl index) rfl rfl rfl rfl
        hgives
    · exact balances_push (e := .invokeSpecial) (Instruction.plain_withConstant rfl index) rfl rfl
        rfl rfl hgives
    · rename_i h
      split at h
      · cases h
      · split at h <;> cases h
    · exact balances_push (e := .invoke) (Instruction.plain_of_narrow rfl rfl rfl) rfl rfl rfl rfl
        hgives

theorem balances_construct (method : MethodRef) (type : RefType) :
    Balances D (1 + method.descriptor.parameters.length) 0
      (emit (Assembler.construct method type)) := by
  rw [Nat.add_comm]
  exact balances_withConstant rfl rfl rfl (fun _ => rfl) rfl

theorem balances_newArray {count : Nat} (h : D.Flat ∨ count ≤ 255) (type : RefType) :
    Balances D count 1 (emit (Assembler.newArray type count)) := by
  -- the number of lengths is one byte of the instruction
  have hmulti : ∀ index, Balances D count 1
      (emit (Assembler.push (.newMultiArray index (UInt8.ofNat count))
        (.value (.object type)))) := by
    intro index
    have hbyte : Balances D (UInt8.ofNat count).toNat 1 (emit (Assembler.push
        (.newMultiArray index (UInt8.ofNat count)) (.value (.object type)))) :=
      balances_push (e := .newMultiArray) (Instruction.plain_of_narrow rfl rfl rfl) rfl rfl rfl rfl
        rfl
    refine hbyte.cast (h.imp_right fun hcount => ?_) (Discipline.same_refl _)
    rw [UInt8.toNat_ofNat', Nat.mod_eq_of_lt (by omega)]
  unfold Assembler.newArray
  split
  · exact balances_push (e := .newPrimitiveArray) (Instruction.plain_of_narrow rfl rfl rfl) rfl
      rfl rfl rfl rfl
  · exact balances_withConstant rfl rfl rfl (fun _ => rfl) rfl
  · exact balances_constant hmulti

theorem balances_loadElement (type : FieldType) :
    Balances D 2 1 (emit (Assembler.loadElement type)) := by
  cases type with
  | base t => cases t <;> exact balances_simple rfl rfl rfl rfl rfl
  | ref t => exact balances_simple rfl rfl rfl rfl rfl

theorem balances_storeElement (type : FieldType) :
    Balances D 3 0 (emit (Assembler.storeElement type)) := by
  cases type with
  | base t => cases t <;> exact balances_simple rfl rfl rfl rfl rfl
  | ref t => exact balances_simple rfl rfl rfl rfl rfl

theorem balances_loadThis (site : Site) : Balances D 0 1 (loadThis site) :=
  .ite (fun _ => balances_throw _) fun _ => balances_loadLocal _ _

theorem balances_generalizeTop (type : FieldType) : Balances D 1 1 (generalizeTop type) :=
  .ite (fun _ P _ hk => (leads_generalize _ hk).relevel (R := P) (k := P.level) hk) fun _ =>
    balances_pure ()

/-! ### Values

Each combinator takes nothing and leaves one value if its operands do. -/

theorem balances_converted {o : Operand} (h : Balances D 0 1 o.value) (expected : FieldType) :
    Balances D 0 1 (o.converted expected) :=
  h.bind fun _ => (balances_typeOf _).bind fun _ =>
    .ite (fun _ => balances_simple rfl rfl rfl rfl rfl) fun _ => balances_pure ()

theorem balances_arguments {operands : List Operand} (h : ∀ o ∈ operands, Balances D 0 1 o.value)
    (d : MethodDescriptor) : Balances D 0 d.parameters.length (arguments operands d) := by
  refine .ite (fun _ => balances_throw _) fun hlength => ?_
  have hzip : (operands.zip d.parameters).length = d.parameters.length := by
    rw [List.length_zip]
    omega
  rw [← hzip]
  refine balances_forM ?_
  rintro ⟨o, parameter⟩ hmem
  exact balances_converted (h o (List.of_mem_zip hmem).1) parameter

theorem balances_operate (e : Expr) (op : BinaryOp) (kind : ValueKind) :
    Balances D 2 1 (operate e op kind) := by
  unfold operate
  split
  · rename_i opcode hop
    unfold binaryOpcode at hop
    split at hop <;> cases hop <;> exact balances_simple rfl rfl rfl rfl rfl
  · exact balances_unsupported e

theorem balances_newBuilder : Balances D 0 1 newBuilder :=
  (balances_withConstant rfl rfl rfl (fun _ => rfl) rfl : Balances D 0 1 _).bind fun _ =>
    (balances_simple rfl rfl rfl rfl rfl : Balances D 1 2 _).bind fun _ =>
      (balances_construct (.constructor .stringBuilder []) builderType).above 1

theorem balances_append (type : FieldType) : Balances D 2 1 (append type) :=
  balances_invoke (appendMethod type) false

theorem balances_builderString : Balances D 1 1 builderString :=
  balances_invoke toStringMethod false

theorem balances_joined {pieces : List Operand} (h : ∀ o ∈ pieces, Balances D 0 1 o.value) :
    Balances D 0 1 (joined pieces) := by
  refine balances_newBuilder.bind fun _ => (balances_forM_self fun o ho => ?_).bind fun _ =>
    balances_builderString
  exact ((h o ho).above 1).bind fun _ => (balances_typeOf _).bind fun _ => balances_append _

theorem balances_binaryValue (e : Expr) (op : BinaryOp) {pieces : List Operand}
    (hl : Balances D 0 1 left.value) (hr : Balances D 0 1 right.value)
    (h : ∀ o ∈ pieces, Balances D 0 1 o.value) :
    Balances D 0 1 (binaryValue e op left right pieces) :=
  (balances_typeOf e).bind fun _ => .ite (fun _ => balances_joined h) fun _ =>
    (balances_converted hl _).bind fun _ => ((balances_converted hr _).above 1).bind fun _ =>
      balances_operate _ _ _

/-! ### Conditions

A condition leaves the stack as it was on both ways, and so do the labels inside it. -/

/-- The code goes to a label, or on, with the same number of values. -/
def JumpBalances (D : Discipline) (jump : Jump) : Prop :=
  ∀ (P : Standing) (outcome : Bool) (m : Mark), m ∈ P.marks →
    D.Admits m.landing P.context P.level →
      Leads D true P.context P (fun _ => P) (jump outcome m.label)

theorem balances_jumpOn {value : Lowering Unit} (h : Balances D 0 1 value) :
    JumpBalances D (jumpOn value) := by
  intro P outcome m hm hadmits
  refine (h P P.level (Discipline.same_refl _)).bind fun _ => ?_
  have hbranch : ∀ op : Opcode, op.effect = .ifZero →
      Leads D true P.context (P.having (P.level + 1)) (fun _ => P)
        (emit (Assembler.branch op m.label)) := by
    intro op hop
    refine leads_branch (P := P.having (P.level + 1)) (k := P.level) (by rw [hop]; rfl) hm
      (by rw [hop]; exact Discipline.same_refl _) hadmits fun _ => Discipline.same_refl _
  split
  · exact hbranch .ifne rfl
  · exact hbranch .ifeq rfl

theorem balances_jumpConstant (value : Bool) : JumpBalances D (jumpConstant value) := by
  intro P outcome m hm hadmits
  refine .ite (fun _ => ?_) fun _ => leads_pure (Q := fun _ => P) ()
  exact leads_branch (P := P) (k := P.level) (n := P.level) rfl hm (Discipline.same_refl _) hadmits
    fun _ => Discipline.same_refl _

theorem admits_here (P : Standing) (k : Nat) : D.Admits ⟨P.context, k, none⟩ P.context k :=
  Discipline.admits_of_none rfl (Discipline.same_refl k) rfl

theorem balances_jumpLogical (op : LogicalOp) {left right : Jump} (hl : JumpBalances D left)
    (hr : JumpBalances D right) : JumpBalances D (jumpLogical op left right) := by
  intro P outcome m hm hadmits
  have hboth : Leads D true P.context P (fun _ => P) (do
      left outcome m.label
      right outcome m.label) :=
    (hl P outcome m hm hadmits).bind fun _ => hr P outcome m hm hadmits
  have hskip : Leads D true P.context P (fun _ => P) (do
      let skip ← emit Assembler.freshLabel
      left (!outcome) skip
      right outcome m.label
      emit (Assembler.place skip)) := by
    refine leads_newLabel none P.level fun skip => ?_
    have hhere := admits_here (D := D) P P.level
    exact (hl (P.marking _) (!outcome) ⟨skip, ⟨P.context, P.level, none⟩, true⟩
        List.mem_cons_self hhere).bind fun _ =>
      (hr (P.marking _) outcome m (List.mem_cons_of_mem _ hm) hadmits).bind fun _ =>
        leads_place (P := P.marking _) [] rfl rfl hhere rfl
  unfold jumpLogical
  split
  · exact hboth
  · exact hboth
  · exact hskip
  · exact hskip

/-- What a comparison needs is on the stack for the branch that it yields. -/
def BalancesFor (D : Discipline) (x : Lowering Opcode) : Prop :=
  ∀ P : Standing, Leads D true P.context P
    (fun taken => P.having (P.level + taken.effect.takes [0, 0] .none)) x

/-- Values are pushed for a known branch. -/
theorem Balances.forBranch {x : Lowering Unit} (h : Balances D 0 n x) (op : Opcode)
    (hop : op.effect.takes [0, 0] .none = n) :
    BalancesFor D (do x; return op) := by
  intro P
  subst hop
  exact (h P P.level (Discipline.same_refl _)).bind fun _ =>
    leads_pure (Q := fun taken : Opcode => P.having (P.level + taken.effect.takes [0, 0] .none)) op

theorem balancesFor_throw (e : CompileError) : BalancesFor D (throw e) := fun _ => leads_throw e

/-- References are compared with each other or with nothing; either way the comparison takes
what the operands leave. -/
theorem balances_compareReferences (e : Expr) (op : CompareOp) (hl : Balances D 0 1 left.value)
    (hr : Balances D 0 1 right.value) :
    BalancesFor D (compareReferences e op left right) := by
  have hchecked : ∀ o, nullChecked left right = some o → Balances D 0 1 o.value := by
    intro o ho
    unfold nullChecked at ho
    repeat' split at ho
    all_goals cases ho
    · exact hl
    · exact hr
  have hboth : Balances D 0 2 (do left.value; right.value) := hl.bind fun _ => hr.above 1
  unfold compareReferences
  split
  · rename_i o ho
    exact (hchecked o ho).forBranch _ rfl
  · rename_i o ho
    exact (hchecked o ho).forBranch _ rfl
  · simpa only [bind_assoc] using hboth.forBranch .ifAcmpeq rfl
  · simpa only [bind_assoc] using hboth.forBranch .ifAcmpne rfl
  · exact balancesFor_throw _

theorem balances_compareOperands (e : Expr) (op : CompareOp) (hl : Balances D 0 1 left.value)
    (hr : Balances D 0 1 right.value) :
    BalancesFor D (compareOperands e op left right) := by
  intro P
  refine (leads_typeOf _).bind fun leftType => (leads_typeOf _).bind fun rightType => ?_
  split
  · have hboth : Balances D 0 2 (do left.value; right.value) := hl.bind fun _ => hr.above 1
    split
    · exact hl.forBranch (zeroBranch op) (by cases op <;> rfl) P
    · simpa only [bind_assoc] using
        hboth.forBranch (intBranch op) (by cases op <;> rfl) P
  · have hcompared : Balances D 0 1 (do
        left.converted .float
        right.converted .float
        emit (Assembler.simple (floatCompare op))) :=
      (balances_converted hl _).bind fun _ => ((balances_converted hr _).above 1).bind fun _ => by
        cases op <;> exact balances_simple rfl rfl rfl rfl rfl
    simpa only [bind_assoc] using
      hcompared.forBranch (zeroBranch op) (by cases op <;> rfl) P
  · exact balances_compareReferences e op hl hr P

theorem effect_of_negate {opposite : Opcode} (h : op.negate = some opposite) :
    opposite.effect = op.effect := by
  unfold Opcode.negate at h
  split at h <;> cases h <;> rfl

/-- A jump on a comparison leaves the stack as it was before the operands. -/
theorem balances_jumpCompare (e : Expr) (op : CompareOp) (hl : Balances D 0 1 left.value)
    (hr : Balances D 0 1 right.value) :
    JumpBalances D (jumpCompare e op left right) := by
  intro P outcome m hm hadmits
  refine (balances_compareOperands e op hl hr P).bindYields (yields_compareOperands e op left right)
    fun taken htaken => ?_
  have hbranch : ∀ branch : Opcode, branch.effect = taken.effect →
      Leads D true P.context (P.having (P.level + taken.effect.takes [0, 0] .none)) (fun _ => P)
        (emit (Assembler.branch branch m.label)) := by
    intro branch heffect
    rw [← heffect] at htaken ⊢
    exact leads_branch (P := P.having _) (k := P.level) htaken hm (Discipline.same_refl _) hadmits
      fun _ => Discipline.same_refl _
  split
  · exact hbranch taken rfl
  · split
    · rename_i opposite hopposite
      exact hbranch opposite (effect_of_negate hopposite)
    · exact leads_unsupported e

/-- One of two pieces of code is run, as a condition says, and each leaves one value. -/
theorem balances_either {condition : Jump} (hc : JumpBalances D condition)
    {x y : Lowering Unit} (hx : Balances D 0 1 x) (hy : Balances D 0 1 y) :
    Balances D 0 1 (do
      let elseLabel ← emit Assembler.freshLabel
      let endLabel ← emit Assembler.freshLabel
      condition false elseLabel
      x
      emit (Assembler.branch .goto endLabel)
      emit (Assembler.place elseLabel)
      y
      emit (Assembler.place endLabel)) := by
  intro P k hk
  refine leads_newLabel none P.level fun elseLabel => leads_newLabel none (k + 1) fun endLabel => ?_
  let elseMark : Mark := ⟨elseLabel, ⟨P.context, P.level, none⟩, true⟩
  let endMark : Mark := ⟨endLabel, ⟨P.context, k + 1, none⟩, true⟩
  let both : Standing := P.marking (endMark :: elseMark :: P.marks)
  let last : Standing := P.marking (endMark :: P.marks)
  have helse := admits_here (D := D) P P.level
  have hend := admits_here (D := D) P (k + 1)
  have hcondition : Leads D true P.context both (fun _ => both) (condition false elseLabel) :=
    hc both false elseMark (List.mem_cons_of_mem _ List.mem_cons_self) helse
  -- the label of the second branch is reached with what the condition leaves
  have hgoto : Leads D true P.context (both.having (k + 1)) (fun _ => both)
      (emit (Assembler.branch .goto endLabel)) :=
    leads_branch (m := endMark) (k := k + 1) (n := P.level) rfl List.mem_cons_self
      (Discipline.same_refl _) hend fun h => absurd rfl h
  have helsePlace : Leads D true P.context both (fun _ => last)
      (emit (Assembler.place elseLabel)) :=
    leads_place (m := elseMark) [endMark] rfl rfl helse rfl
  have hendPlace : Leads D true P.context (last.having (k + 1)) (fun _ => P.having (k + 1))
      (emit (Assembler.place endLabel)) :=
    leads_place (m := endMark) [] rfl rfl hend rfl
  exact hcondition.bind fun _ => (hx both k hk).bind fun _ => hgoto.bind fun _ =>
    helsePlace.bind fun _ => (hy last k hk).bind fun _ => hendPlace

theorem balances_outcomeValue {jump : Jump} (h : JumpBalances D jump) :
    Balances D 0 1 (outcomeValue jump) :=
  balances_either h (balances_pushInt 1) (balances_pushInt 0)

theorem balances_conditionalValue (e : Expr) {condition : Jump} {thenValue elseValue : Operand}
    (hc : JumpBalances D condition) (ht : Balances D 0 1 thenValue.value)
    (he : Balances D 0 1 elseValue.value) :
    Balances D 0 1 (conditionalValue e condition thenValue elseValue) := by
  refine (balances_typeOf e).bind fun type => ?_
  have hvalue : ∀ o : Operand, Balances D 0 1 o.value →
      Balances D 0 1 (do o.converted type; generalizeTop type) := fun o ho =>
    (balances_converted ho type).bind fun _ => balances_generalizeTop type
  simpa only [bind_assoc] using balances_either hc (hvalue _ ht) (hvalue _ he)

end Lowering

/-! ### Places

A place is as wide as what says where it is: nothing, an object, or an array and an index. -/

/-- The number of values that say where a place is. -/
def Place.width : Place → Nat
  | .slot _ | .staticField _ => 0
  | .field _ _ => 1
  | .element _ _ => 2

/-- The code that says where a place is leaves as many values as the place is wide. -/
def Place.Balanced (D : Discipline) : Place → Prop
  | .slot _ => True
  | .staticField f => D.Flat ∨ f.isStatic = true
  | .field object f => (D.Flat ∨ f.isStatic = false) ∧ object.Balances D 0 1
  | .element array index => array.Balances D 0 1 ∧ index.Balances D 0 1

namespace Place

open Lowering

variable {D : Discipline} {p : Place}

theorem balances_address (h : p.Balanced D) : Balances D 0 p.width p.address := by
  cases p with
  | slot id => exact balances_pure ()
  | staticField f => exact balances_pure ()
  | field object f => exact h.2
  | element array index => exact h.1.bind fun _ => h.2.above 1

/-- An address that is copied is there twice. -/
theorem balances_copyAddress (p : Place) :
    Balances D p.width (p.width + p.width) p.copyAddress := by
  cases p with
  | slot id => exact balances_pure ()
  | staticField f => exact balances_pure ()
  | field object f => exact balances_simple rfl rfl rfl rfl rfl
  | element array index => exact balances_simple rfl rfl rfl rfl rfl

/-- Reading a place takes its address and leaves its value. -/
theorem balances_load (h : p.Balanced D) (type : FieldType) :
    Balances D p.width 1 (p.load type) := by
  cases p with
  | slot id => exact (balances_lookup id).bind fun _ => balances_loadLocal _ _
  | staticField f =>
    refine (balances_getField f).cast (h.imp_right fun hf => ?_) (Discipline.same_refl _)
    rw [hf]
    rfl
  | field object f =>
    refine (balances_getField f).cast (h.1.imp_right fun hf => ?_) (Discipline.same_refl _)
    rw [hf]
    rfl
  | element array index => exact balances_loadElement type

/-- Writing a place takes its address and the value above it. -/
theorem balances_store (h : p.Balanced D) (type : FieldType) :
    Balances D (p.width + 1) 0 (p.store type) := by
  cases p with
  | slot id => exact balances_storeVar id
  | staticField f =>
    refine (balances_putField f).cast (h.imp_right fun hf => ?_) (Discipline.same_refl _)
    rw [hf]
    rfl
  | field object f =>
    refine (balances_putField f).cast (h.1.imp_right fun hf => ?_) (Discipline.same_refl _)
    rw [hf]
    rfl
  | element array index => exact balances_storeElement type

theorem balances_keepIf (p : Place) (wanted : Bool) :
    Balances D (p.width + 1) (wanted.toNat + (p.width + 1)) (p.keepIf wanted) := by
  cases wanted with
  | false =>
    rw [Bool.toNat_false, Nat.zero_add]
    exact balances_pure ()
  | true => cases p <;> exact balances_simple rfl rfl rfl rfl rfl

theorem balances_loadForUpdate (h : p.Balanced D) (type : FieldType) :
    Balances D 0 (p.width + 1) (p.loadForUpdate type) :=
  (balances_address h).bind fun _ => p.balances_copyAddress.bind fun _ =>
    (balances_load h type).above p.width

theorem balances_keepStore (h : p.Balanced D) (type : FieldType) (wanted : Bool) :
    Balances D (p.width + 1) wanted.toNat (do
      p.keepIf wanted
      p.store type) :=
  (p.balances_keepIf wanted).bind fun _ => (balances_store h type).above wanted.toNat

end Place

/-! ### Fragments -/

/-- In whichever way an expression is asked for, its code is balanced. -/
structure Fragment.Balanced (D : Discipline) (f : Fragment) : Prop where
  value : f.value.Balances D 0 f.source.outputs
  effect : f.effect.Balances D 0 0
  jump : D.Flat ∨ f.source.isVoid = false → Lowering.JumpBalances D f.jump
  place : ∀ p, f.place = some p → p.Balanced D
  pieces : D.Flat ∨ f.source.isVoid = false → ∀ o ∈ f.pieces, o.value.Balances D 0 1

/-- The value of an expression that has one. -/
theorem Fragment.Balanced.operand {D : Discipline} {f : Fragment} (h : f.Balanced D)
    (hvoid : D.Flat ∨ f.source.isVoid = false) : f.value.Balances D 0 1 := by
  refine h.value.cast (Discipline.same_refl _) (hvoid.imp_right fun hvoid => ?_)
  rw [Expr.outputs, hvoid]
  rfl

namespace Lowering

variable {D : Discipline} {target : Fragment} {value : Operand}

theorem yields_placeOf_balanced (h : target.Balanced D) :
    Yields (Place.Balanced D) (placeOf target) := by
  unfold placeOf
  split
  · rename_i p hp
    exact yields_pure (h.place p hp)
  · exact yields_throw _

theorem balances_placeOf (target : Fragment) : Balances D 0 0 (placeOf target) := by
  unfold placeOf
  split
  · exact balances_pure _
  · exact balances_unsupported _

theorem balances_assign (ht : target.Balanced D) (hv : Balances D 0 1 value.value) (wanted : Bool) :
    Balances D 0 wanted.toNat (assign target value wanted) :=
  (balances_typeOf _).bind fun type =>
    (balances_placeOf target).bindYields (yields_placeOf_balanced ht) fun p hp =>
      (Place.balances_address hp).bind fun _ =>
        ((balances_converted hv type).above p.width).bind fun _ =>
          Place.balances_keepStore hp type wanted

theorem balances_updateArithmetic (target : Expr) (op : BinaryOp) (type : FieldType)
    (hv : Balances D 0 1 value.value) (valueType : FieldType) :
    Balances D 1 1 (updateArithmetic target op type value valueType) :=
  .ite
    (fun _ => (balances_simple rfl rfl rfl rfl rfl : Balances D 1 1 _).bind fun _ =>
      ((balances_converted hv _).above 1).bind fun _ => (balances_operate _ _ _).bind fun _ =>
        balances_simple rfl rfl rfl rfl rfl)
    fun _ => ((balances_converted hv _).above 1).bind fun _ => balances_operate _ _ _

theorem balances_updateString (type : FieldType) (hv : Balances D 0 1 value.value)
    (valueType : FieldType) :
    Balances D 1 1 (updateString type value valueType) :=
  (balances_newBuilder.above 1).bind fun _ =>
    (balances_simple rfl rfl rfl rfl rfl : Balances D 2 2 _).bind fun _ =>
      (balances_append _).bind fun _ => (hv.above 1).bind fun _ =>
        (balances_append _).bind fun _ => balances_builderString

theorem balances_compoundThrough (ht : target.Balanced D) (op : BinaryOp)
    (hv : Balances D 0 1 value.value) (type valueType : FieldType) (wanted : Bool) :
    Balances D 0 wanted.toNat (compoundThrough target op value type valueType wanted) := by
  refine (balances_placeOf target).bindYields (yields_placeOf_balanced ht) fun p hp =>
    (Place.balances_loadForUpdate hp type).bind fun _ => ?_
  have hstore := Place.balances_keepStore hp type wanted
  split
  · exact ((balances_updateString type hv valueType).above p.width).bind fun _ => hstore
  · exact ((balances_updateArithmetic _ op type hv valueType).above p.width).bind fun _ => hstore

theorem balances_compound (op : BinaryOp) (ht : target.Balanced D) (hv : Balances D 0 1 value.value)
    (wanted : Bool) :
    Balances D 0 wanted.toNat (compound op target value wanted) := by
  refine (balances_typeOf _).bind fun type => (balances_typeOf _).bind fun valueType => ?_
  have hthrough := balances_compoundThrough ht op hv type valueType wanted
  split
  · refine .ite (fun h => ?_) fun _ => hthrough
    rw [Bool.eq_false_iff.2 h.1]
    exact (balances_lookup _).bind fun _ => balances_increment _ _
  · exact hthrough

theorem balances_pushOne (target : Expr) (kind : ValueKind) :
    Balances D 0 1 (pushOne target kind) := by
  cases kind with
  | int => exact balances_pushInt _
  | float => exact balances_pushFloat _
  | reference => exact balances_unsupported target

/-- An increment through an address leaves the value before or after it if it is wanted, and
else nothing. -/
theorem balances_incrementThrough (ht : target.Balanced D) (type : FieldType)
    (decrement inFront wanted : Bool) :
    Balances D 0 wanted.toNat (incrementThrough target type decrement inFront wanted) := by
  refine (balances_placeOf target).bindYields (yields_placeOf_balanced ht) fun p hp =>
    (Place.balances_loadForUpdate hp type).bind fun _ =>
      (p.balances_keepIf (wanted && !inFront)).bind fun _ => ?_
  -- one copy is kept if it is wanted, before the change or after it
  have hcopies : (wanted && !inFront).toNat + (wanted && inFront).toNat = wanted.toNat := by
    cases wanted <;> cases inFront <;> rfl
  have hchange : Balances D (p.width + 1) (wanted && inFront).toNat (do
      pushOne target.source type.kind
      operate target.source (if decrement then .sub else .add) type.kind
      p.keepIf (wanted && inFront)
      p.store type) :=
    ((balances_pushOne _ _).above (p.width + 1)).bind fun _ =>
      ((balances_operate _ _ _).above p.width).bind fun _ => Place.balances_keepStore hp type _
  exact (hchange.above (wanted && !inFront).toNat).cast (Discipline.same_refl _) (.inr hcopies)

theorem balances_incrementSlot (id : LocalId) (type : FieldType)
    (decrement inFront wanted : Bool) :
    Balances D 0 wanted.toNat (incrementSlot id type decrement inFront wanted) := by
  refine (balances_lookup id).bind fun found => ?_
  have hload : Balances D 0 1 (emit (Assembler.loadLocal found.1 type)) := balances_loadLocal _ _
  have hincrement : Balances D 0 0
      (emit (Assembler.increment found.1 (if decrement then -1 else 1))) := balances_increment _ _
  cases wanted with
  | false => exact hincrement.bind fun _ => balances_pure ()
  | true =>
    cases inFront with
    | false => exact hload.bind fun _ => (hincrement.above 1).bind fun _ => balances_pure ()
    | true => exact hincrement.bind fun _ => hload

theorem balances_increment_place (ht : target.Balanced D) (decrement inFront wanted : Bool) :
    Balances D 0 wanted.toNat (increment target decrement inFront wanted) := by
  refine (balances_typeOf _).bind fun type => ?_
  have hthrough := balances_incrementThrough ht type decrement inFront wanted
  split
  · exact .ite (fun _ => balances_incrementSlot _ _ _ _ _) fun _ => hthrough
  · exact hthrough

end Lowering

namespace Fragment

open Lowering

variable {D : Discipline} {source : Expr}

theorem balanced_ofValue {value : Lowering Unit} (h : Balances D 0 source.outputs value)
    (htype : D.Flat ∨ source.type.isNone = source.isVoid) : (ofValue source value).Balanced D := by
  have hoperand : D.Flat ∨ source.isVoid = false → Balances D 0 1 value := fun hvoid =>
    h.cast (Discipline.same_refl _) (hvoid.imp_right fun hvoid => by rw [Expr.outputs, hvoid]; rfl)
  refine ⟨h, ?_, fun hvoid => balances_jumpOn (hoperand hvoid), (fun p hp => nomatch hp),
    fun hvoid o ho => ?_⟩
  · refine h.bind fun _ => .ite (fun hsome => ?_) fun hnone => ?_
    · have hpop : Balances D 1 0 (emit (Assembler.simple .pop)) :=
        balances_simple rfl rfl rfl rfl rfl
      refine hpop.cast (htype.imp_right fun htype => ?_) (Discipline.same_refl _)
      rw [Option.isNone_eq_false_iff.2 hsome] at htype
      rw [Expr.outputs, ← htype]
      rfl
    · refine (balances_pure ()).cast (Discipline.same_refl _) (htype.imp_right fun htype => ?_)
      rw [Option.not_isSome_iff_eq_none.1 hnone] at htype
      rw [Expr.outputs, ← htype]
      rfl
  · rw [ofValue, List.mem_singleton] at ho
    rw [ho]
    exact hoperand hvoid

theorem balanced_ofPlace {value : Lowering Unit} (h : Balances D 0 source.outputs value)
    (htype : D.Flat ∨ source.type.isNone = source.isVoid) {p : Place} (hp : p.Balanced D) :
    (ofPlace source value p).Balanced D :=
  { balanced_ofValue h htype with
    place := fun q hq => by
      cases hq
      exact hp }

theorem balanced_ofJump {jump : Jump} (h : JumpBalances D jump) (houtputs : source.outputs = 1)
    (htype : D.Flat ∨ source.type.isNone = source.isVoid) : (ofJump source jump).Balanced D :=
  { balanced_ofValue (houtputs ▸ balances_outcomeValue h) htype with jump := fun _ => h }

theorem balanced_ofUpdate {update : Bool → Lowering Unit}
    (h : ∀ wanted, Balances D 0 wanted.toNat (update wanted)) (houtputs : source.outputs = 1)
    (htype : D.Flat ∨ source.type.isNone = source.isVoid) : (ofUpdate source update).Balanced D :=
  { balanced_ofValue (houtputs ▸ h true) htype with effect := h false }

end Fragment

/-! ### Expressions

The combinators of single expressions, and from them the walk over the tree (`Expr.balanced`). -/

namespace Lowering

variable {D : Discipline} {operands : List Operand} {operand : Operand}

theorem balances_loadVar (id : LocalId) : Balances D 0 1 (loadVar id) :=
  (balances_lookup id).bind fun _ => balances_loadLocal _ _

theorem balances_negated (e : Expr) (h : Balances D 0 1 operand.value) :
    Balances D 0 1 (negated e operand) := by
  refine h.bind fun _ => (balances_typeOf _).bind fun _ => ?_
  split
  · exact balances_simple rfl rfl rfl rfl rfl
  · exact balances_simple rfl rfl rfl rfl rfl
  · exact balances_unsupported e

theorem balances_complemented (h : Balances D 0 1 operand.value) :
    Balances D 0 1 (complemented operand) :=
  h.bind fun _ => ((balances_pushInt _).above 1).bind fun _ => balances_simple rfl rfl rfl rfl rfl

theorem balances_elementValue (e : Expr) {array index : Operand}
    (ha : Balances D 0 1 array.value) (hi : Balances D 0 1 index.value) :
    Balances D 0 1 (elementValue e array index) :=
  ha.bind fun _ => (hi.above 1).bind fun _ => (balances_typeOf e).bind fun _ =>
    balances_loadElement _

theorem balances_receiver (site : Site) (method : MethodRef) {object : Option Operand}
    (h : ∀ o, object = some o → Balances D 0 1 o.value) :
    Balances D 0 (instances method.isStatic) (receiver site method object) := by
  unfold instances
  cases object with
  | none =>
    unfold receiver
    split
    · exact balances_pure ()
    · exact balances_loadThis site
  | some o =>
    refine (h o rfl).bind fun _ => ?_
    split
    · exact balances_simple rfl rfl rfl rfl rfl
    · exact balances_pure ()

theorem balances_called (site : Site) {object : Option Operand} (method : MethodRef)
    (viaSuper : Bool) (ho : ∀ o, object = some o → Balances D 0 1 o.value)
    (h : ∀ o ∈ operands, Balances D 0 1 o.value) :
    Balances D 0 method.descriptor.returns.toList.length
      (called site object method operands viaSuper) :=
  (balances_receiver site method ho).bind fun _ =>
    ((balances_arguments h method.descriptor).above _).bind fun _ =>
      balances_invoke method viaSuper

theorem balances_created (constructor : MethodRef) (h : ∀ o ∈ operands, Balances D 0 1 o.value) :
    Balances D 0 1 (created constructor operands) := by
  have hnew : Balances D 0 1 (emit (Assembler.newObject (.object constructor.owner))) :=
    balances_withConstant rfl rfl rfl (fun _ => rfl) rfl
  have hdup : Balances D 1 2 (emit (Assembler.simple .dup)) := balances_simple rfl rfl rfl rfl rfl
  exact hnew.bind fun _ => hdup.bind fun _ =>
    ((balances_arguments h constructor.descriptor).above 2).bind fun _ =>
      ((balances_construct constructor _).above 1).cast (.inr (by omega)) (Discipline.same_refl _)

theorem balances_createdArray (e : Expr) {dimensions : List Operand}
    (hlength : D.Flat ∨ dimensions.length ≤ 255)
    (h : ∀ o ∈ dimensions, Balances D 0 1 o.value) :
    Balances D 0 1 (createdArray e dimensions) :=
  (balances_arrayTypeOf e).bind fun type => .ite (fun _ => balances_unsupported e) fun _ =>
    (balances_forM h).bind fun _ => balances_newArray hlength type

theorem balances_storeElements (type : FieldType) (index : Nat)
    (h : ∀ o ∈ operands, Balances D 0 1 o.value) :
    Balances D 1 1 (storeElements type index operands) := by
  induction operands generalizing index with
  | nil => exact balances_pure ()
  | cons o operands ih =>
    have hdup : Balances D 1 2 (emit (Assembler.simple .dup)) := balances_simple rfl rfl rfl rfl rfl
    exact hdup.bind fun _ => ((balances_pushInt _).above 2).bind fun _ =>
      ((balances_converted (h o List.mem_cons_self) type).above 3).bind fun _ =>
        ((balances_storeElement type).above 1).bind fun _ =>
          ih (index + 1) fun p hp => h p (List.mem_cons_of_mem o hp)

/-- An array with given elements leaves one value. -/
theorem balances_filledArray (e : Expr) {elements : List Operand}
    (h : ∀ o ∈ elements, Balances D 0 1 o.value) :
    Balances D 0 1 (filledArray e elements) := by
  refine (balances_arrayTypeOf e).bind fun type => ?_
  split
  · exact balances_unsupported e
  · exact .ite (fun _ => balances_unsupported e) fun _ => (balances_pushInt _).bind fun _ =>
      (balances_newArray (.inr (by decide)) type).bind fun _ => balances_storeElements _ _ h

theorem balances_castValue (e : Expr) (h : Balances D 0 1 operand.value) :
    Balances D 0 1 (castValue e operand) := by
  refine (balances_typeOf _).bind fun _ => (balances_typeOf e).bind fun _ => h.bind fun _ => ?_
  split
  · exact balances_simple rfl rfl rfl rfl rfl
  · exact balances_simple rfl rfl rfl rfl rfl
  · exact .ite (fun _ => balances_pure ()) fun _ =>
      balances_withConstant rfl rfl rfl (fun _ => rfl) rfl
  · exact .ite (fun _ => balances_pure ()) fun _ => balances_unsupported e

theorem balanced_binaryFragment {e : Expr} (op : BinaryOp) {left right : Fragment}
    (houtputs : e.outputs = 1) (htype : D.Flat ∨ e.type.isNone = e.isVoid)
    (hl : left.Balanced D) (hleft : D.Flat ∨ left.source.isVoid = false)
    (hr : Balances D 0 1 right.value) : (binaryFragment e op left right).Balanced D := by
  have hpieces : ∀ o ∈ left.pieces ++ [right.toOperand], Balances D 0 1 o.value := by
    intro o ho
    rw [List.mem_append, List.mem_singleton] at ho
    rcases ho with ho | rfl
    · exact hl.pieces hleft o ho
    · exact hr
  have hvalue := balances_binaryValue e op (hl.operand hleft) hr hpieces
  refine { Fragment.balanced_ofValue (houtputs ▸ hvalue) htype with pieces := fun _ o ho => ?_ }
  unfold binaryFragment chain at ho
  dsimp only at ho
  split at ho
  · exact hpieces o ho
  · rw [List.mem_singleton] at ho
    rw [ho]
    exact hvalue

theorem balanced_unaryFragment {e : Expr} (op : UnaryOp) {operand : Fragment}
    (houtputs : e.outputs = 1) (htype : D.Flat ∨ e.type.isNone = e.isVoid)
    (h : operand.Balanced D) (hvoid : D.Flat ∨ operand.source.isVoid = false) :
    (unaryFragment e op operand).Balanced D := by
  have hoperand := h.operand hvoid
  cases op with
  | negate =>
    exact Fragment.balanced_ofValue (houtputs ▸ balances_negated e hoperand) htype
  | bitNot => exact Fragment.balanced_ofValue (houtputs ▸ balances_complemented hoperand) htype
  | not =>
    exact Fragment.balanced_ofJump (fun P outcome m => h.jump hvoid P (!outcome) m) houtputs htype

end Lowering

theorem Expr.length_operands (site : Site) (es : List Expr) :
    (Expr.operands site es).length = es.length := by
  induction es with
  | nil => rfl
  | cons e es ih => rw [Expr.operands, List.length_cons, List.length_cons, ih]

theorem Fragment.Balanced.ofOperand {D : Discipline} {site : Site} {e : Expr}
    (h : (e.fragment site).Balanced D) (hvoid : D.Flat ∨ e.isVoid = false) :
    (e.fragment site).value.Balances D 0 1 :=
  h.operand (by rwa [Expr.source_fragment])

mutual

/-- **The code of every balanced expression is balanced**, in whichever way the expression
is asked for. -/
theorem Expr.balanced (D : Discipline) (site : Site) (e : Expr)
    (h : D.Flat ∨ e.isBalanced = true) : (e.fragment site).Balanced D := by
  open Lowering in
  have htype : D.Flat ∨ e.type.isNone = e.isVoid := by
    refine h.imp_right fun h => ?_
    rw [Expr.isBalanced.eq_def, Bool.and_eq_true, beq_iff_eq] at h
    exact h.1
  match e with
  | .int value t =>
    rw [Expr.fragment]
    exact Fragment.balanced_ofValue (balances_pushInt value) htype
  | .float value t =>
    rw [Expr.fragment]
    exact Fragment.balanced_ofValue (balances_pushFloat value) htype
  | .boolean value t =>
    rw [Expr.fragment]
    exact { Fragment.balanced_ofValue (balances_pushInt _) htype with
      jump := fun _ => balances_jumpConstant value }
  | .string value t =>
    rw [Expr.fragment]
    exact Fragment.balanced_ofValue (balances_loadConstant _ _) htype
  | .null t =>
    rw [Expr.fragment]
    exact Fragment.balanced_ofValue (balances_simple rfl rfl rfl rfl rfl) htype
  | .this t =>
    rw [Expr.fragment]
    exact Fragment.balanced_ofValue (balances_loadThis site) htype
  | .var id t =>
    rw [Expr.fragment]
    exact Fragment.balanced_ofPlace (balances_loadVar id) htype trivial
  | .staticField f t =>
    simp only [Expr.isBalanced, Bool.and_eq_true] at h
    have hstatic : Place.Balanced D (.staticField f) := h.imp_right And.right
    rw [Expr.fragment]
    exact Fragment.balanced_ofPlace (Place.balances_load hstatic .int) htype hstatic
  | .field object f t =>
    simp only [Expr.isBalanced, Bool.and_eq_true, Bool.not_eq_true'] at h
    have hobject := (object.balanced D site (h.imp_right (·.2.2.2))).ofOperand
      (h.imp_right (·.2.2.1))
    have hplace : Place.Balanced D (.field (object.fragment site).value f) :=
      ⟨h.imp_right (·.2.1), hobject⟩
    have hvalue : Balances D 0 1 (do
        (object.fragment site).value
        emit (Assembler.getField f)) :=
      hobject.bind fun _ => Place.balances_load hplace .int
    rw [Expr.fragment]
    exact Fragment.balanced_ofPlace hvalue htype hplace
  | .element array index t =>
    simp only [Expr.isBalanced, Bool.and_eq_true, Bool.not_eq_true'] at h
    have harray := (array.balanced D site (h.imp_right (·.2.1.2))).ofOperand
      (h.imp_right (·.2.1.1))
    have hindex := (index.balanced D site (h.imp_right (·.2.2.2))).ofOperand
      (h.imp_right (·.2.2.1))
    rw [Expr.fragment]
    exact Fragment.balanced_ofPlace (balances_elementValue _ harray hindex) htype ⟨harray, hindex⟩
  | .length array t =>
    simp only [Expr.isBalanced, Bool.and_eq_true, Bool.not_eq_true'] at h
    have harray := (array.balanced D site (h.imp_right (·.2.2))).ofOperand (h.imp_right (·.2.1))
    rw [Expr.fragment]
    exact Fragment.balanced_ofValue
      (harray.bind fun _ => balances_simple rfl rfl rfl rfl rfl) htype
  | .assign target value t =>
    simp only [Expr.isBalanced, Bool.and_eq_true, Bool.not_eq_true'] at h
    have hvalue := (value.balanced D site (h.imp_right (·.2.2.2))).ofOperand
      (h.imp_right (·.2.2.1))
    rw [Expr.fragment]
    exact Fragment.balanced_ofUpdate
      (balances_assign (target.balanced D site (h.imp_right (·.2.1.2))) hvalue) rfl htype
  | .compound op target value t =>
    simp only [Expr.isBalanced, Bool.and_eq_true, Bool.not_eq_true'] at h
    have hvalue := (value.balanced D site (h.imp_right (·.2.2.2))).ofOperand
      (h.imp_right (·.2.2.1))
    rw [Expr.fragment]
    exact Fragment.balanced_ofUpdate
      (balances_compound op (target.balanced D site (h.imp_right (·.2.1.2))) hvalue) rfl htype
  | .increment target decrement inFront t =>
    simp only [Expr.isBalanced, Bool.and_eq_true, Bool.not_eq_true'] at h
    rw [Expr.fragment]
    exact Fragment.balanced_ofUpdate
      (balances_increment_place (target.balanced D site (h.imp_right (·.2.2))) decrement inFront)
      rfl htype
  | .unary op operand t =>
    simp only [Expr.isBalanced, Bool.and_eq_true, Bool.not_eq_true'] at h
    rw [Expr.fragment]
    exact balanced_unaryFragment op rfl htype (operand.balanced D site (h.imp_right (·.2.2)))
      (by rw [Expr.source_fragment]; exact h.imp_right (·.2.1))
  | .binary op left right t =>
    simp only [Expr.isBalanced, Bool.and_eq_true, Bool.not_eq_true'] at h
    have hright := (right.balanced D site (h.imp_right (·.2.2.2))).ofOperand
      (h.imp_right (·.2.2.1))
    rw [Expr.fragment]
    exact balanced_binaryFragment op rfl htype (left.balanced D site (h.imp_right (·.2.1.2)))
      (by rw [Expr.source_fragment]; exact h.imp_right (·.2.1.1)) hright
  | .compare op left right t =>
    simp only [Expr.isBalanced, Bool.and_eq_true, Bool.not_eq_true'] at h
    have hleft := (left.balanced D site (h.imp_right (·.2.1.2))).ofOperand
      (h.imp_right (·.2.1.1))
    have hright := (right.balanced D site (h.imp_right (·.2.2.2))).ofOperand
      (h.imp_right (·.2.2.1))
    rw [Expr.fragment]
    exact Fragment.balanced_ofJump (balances_jumpCompare _ op hleft hright) rfl htype
  | .logical op left right t =>
    simp only [Expr.isBalanced, Bool.and_eq_true, Bool.not_eq_true'] at h
    have hleft := (left.balanced D site (h.imp_right (·.2.1.2))).jump
      (by rw [Expr.source_fragment]; exact h.imp_right (·.2.1.1))
    have hright := (right.balanced D site (h.imp_right (·.2.2.2))).jump
      (by rw [Expr.source_fragment]; exact h.imp_right (·.2.2.1))
    rw [Expr.fragment]
    exact Fragment.balanced_ofJump (balances_jumpLogical op hleft hright) rfl htype
  | .conditional condition thenValue elseValue t =>
    simp only [Expr.isBalanced, Bool.and_eq_true, Bool.not_eq_true'] at h
    have hcondition := (condition.balanced D site (h.imp_right (·.2.1.2))).jump
      (by rw [Expr.source_fragment]; exact h.imp_right (·.2.1.1))
    have hthen := (thenValue.balanced D site (h.imp_right (·.2.2.1.2))).ofOperand
      (h.imp_right (·.2.2.1.1))
    have helse := (elseValue.balanced D site (h.imp_right (·.2.2.2.2))).ofOperand
      (h.imp_right (·.2.2.2.1))
    rw [Expr.fragment]
    exact Fragment.balanced_ofValue (balances_conditionalValue _ hcondition hthen helse) htype
  | .call object method operands viaSuper t =>
    simp only [Expr.isBalanced, Bool.and_eq_true] at h
    have hcalled := balances_called site method viaSuper
      (Expr.balanced_operand? D site object (h.imp_right (·.2.1)))
      (Expr.balanced_operands D site operands (h.imp_right (·.2.2)))
    have houtputs : Expr.outputs (.call object method operands viaSuper t) =
        method.descriptor.returns.toList.length := by
      rw [Expr.outputs, Expr.isVoid]
      cases method.descriptor.returns <;> rfl
    rw [Expr.fragment]
    exact Fragment.balanced_ofValue (houtputs ▸ hcalled) htype
  | .new constructor operands t =>
    simp only [Expr.isBalanced, Bool.and_eq_true] at h
    rw [Expr.fragment]
    exact Fragment.balanced_ofValue
      (balances_created constructor
        (Expr.balanced_operands D site operands (h.imp_right And.right))) htype
  | .newArray dimensions t =>
    simp only [Expr.isBalanced, Bool.and_eq_true, decide_eq_true_eq] at h
    rw [Expr.fragment]
    refine Fragment.balanced_ofValue (balances_createdArray _ ?_
      (Expr.balanced_operands D site dimensions (h.imp_right (·.2.2)))) htype
    rw [Expr.length_operands]
    exact h.imp_right (·.2.1)
  | .arrayOf elements t =>
    simp only [Expr.isBalanced, Bool.and_eq_true] at h
    rw [Expr.fragment]
    exact Fragment.balanced_ofValue
      (balances_filledArray _ (Expr.balanced_operands D site elements (h.imp_right And.right)))
      htype
  | .cast operand t =>
    simp only [Expr.isBalanced, Bool.and_eq_true, Bool.not_eq_true'] at h
    have hoperand := (operand.balanced D site (h.imp_right (·.2.2))).ofOperand
      (h.imp_right (·.2.1))
    rw [Expr.fragment]
    exact Fragment.balanced_ofValue (balances_castValue _ hoperand) htype
  | .instanceOf operand tested t =>
    simp only [Expr.isBalanced, Bool.and_eq_true, Bool.not_eq_true'] at h
    have hoperand := (operand.balanced D site (h.imp_right (·.2.2))).ofOperand
      (h.imp_right (·.2.1))
    rw [Expr.fragment]
    exact Fragment.balanced_ofValue
      (hoperand.bind fun _ => balances_withConstant rfl rfl rfl (fun _ => rfl) rfl) htype

theorem Expr.balanced_operands (D : Discipline) (site : Site) (es : List Expr)
    (h : D.Flat ∨ Expr.areOperands es = true) :
    ∀ o ∈ Expr.operands site es, o.value.Balances D 0 1 := by
  match es with
  | [] =>
    intro o ho
    rw [Expr.operands] at ho
    cases ho
  | e :: es =>
    intro o ho
    simp only [Expr.areOperands, Bool.and_eq_true, Bool.not_eq_true'] at h
    rw [Expr.operands, List.mem_cons] at ho
    rcases ho with rfl | ho
    · exact (e.balanced D site (h.imp_right (·.1.2))).ofOperand (h.imp_right (·.1.1))
    · exact Expr.balanced_operands D site es (h.imp_right And.right) o ho

/-- An operand that may be missing leaves one value if it is there. -/
theorem Expr.balanced_operand? (D : Discipline) (site : Site) (e : Option Expr)
    (h : D.Flat ∨ Expr.isOperand? e = true) :
    ∀ o, Expr.operand? site e = some o → o.value.Balances D 0 1 := by
  match e with
  | none =>
    intro o ho
    rw [Expr.operand?] at ho
    cases ho
  | some e =>
    intro o ho
    simp only [Expr.isOperand?, Bool.and_eq_true, Bool.not_eq_true'] at h
    rw [Expr.operand?] at ho
    cases ho
    exact (e.balanced D site (h.imp_right And.right)).ofOperand (h.imp_right And.left)

end

theorem Expr.isOperand_iff {e : Expr} :
    e.isOperand = true ↔ e.isVoid = false ∧ e.isBalanced = true := by
  rw [Expr.isOperand, Bool.and_eq_true, Bool.not_eq_true']

section Operands

variable {D : Discipline} {e : Expr}

theorem Expr.balances_value (site : Site) (h : D.Flat ∨ e.isOperand = true) :
    (e.fragment site).value.Balances D 0 1 :=
  (e.balanced D site (h.imp_right fun h => (isOperand_iff.1 h).2)).ofOperand
    (h.imp_right fun h => (isOperand_iff.1 h).1)

theorem Expr.balances_jump (site : Site) (h : D.Flat ∨ e.isOperand = true) :
    Lowering.JumpBalances D (e.fragment site).jump := by
  refine (e.balanced D site (h.imp_right fun h => (isOperand_iff.1 h).2)).jump ?_
  rw [Expr.source_fragment]
  exact h.imp_right fun h => (isOperand_iff.1 h).1

end Operands

mutual

/-- Are the expressions in a statement balanced, and are only those used that have a
value?  It is asked separately whether there may be a `bare` return, one without a
value. -/
def Stmt.isBalanced (bare : Bool) (s : Stmt) : Bool :=
  match s with
  | .expr e => e.isBalanced
  | .declare _ _ initial => Expr.isOperand? initial
  | .block body => Stmt.areBalanced bare body
  | .branch condition thenBranch elseBranch =>
    condition.isOperand && (thenBranch.isBalanced bare && Stmt.isBalanced? bare elseBranch)
  | .whileLoop _ condition body | .doWhileLoop _ body condition =>
    condition.isOperand && body.isBalanced bare
  | .forLoop _ init condition update body =>
    Stmt.areBalanced bare init &&
      (Expr.isOperand? condition && (update.all Expr.isBalanced && body.isBalanced bare))
  | .breakLoop _ | .continueLoop _ => true
  | .returnValue value => value.elim bare Expr.isOperand
  | .construct _ operands => Expr.areOperands operands

/-- Are the expressions in all of the statements balanced? -/
def Stmt.areBalanced (bare : Bool) (ss : List Stmt) : Bool :=
  match ss with
  | [] => true
  | s :: ss => s.isBalanced bare && Stmt.areBalanced bare ss

/-- Are the expressions in a statement balanced, unless it is missing? -/
def Stmt.isBalanced? (bare : Bool) (s : Option Stmt) : Bool :=
  match s with
  | none => true
  | some s => s.isBalanced bare

end

end ClassForge
