/-
# Expressions run as they mean

The code of an expression over integers and truth values does what the expression
means (`Expr.runs`), in each of the ways in which it can be asked for:

| asked for | the code |
| --- | --- |
| its value | pushes the value |
| its effect | leaves the stack as it was |
| a jump | goes to the label just if the condition has the outcome |

In each case the slots hold the values of the locals as they are after the
expression (`Holds`).  A truth value is held as one or zero.
-/

import ClassForge.Proofs.Control
import ClassForge.Proofs.Evaluation

namespace ClassForge

open Machine

/-- How the machine holds a value. -/
def Value.bits : Value → Int32
  | .int n => n
  | .bool b => if b then 1 else 0

/-- The slots hold the values of the locals in scope. -/
def Agrees (Γ : Context) (σ : Store) (locals : Nat → Option Int32) : Prop :=
  ∀ (n : Nat) (id : LocalId) (type : FieldType), Γ[n]? = some (id, type) →
    ∃ v, σ id = some v ∧ locals n = some v.bits

/-- The memory holds the values of the locals in scope, and a stack. -/
def Holds (Γ : Context) (σ : Store) (S : List Int32) (m : Memory) : Prop :=
  Agrees Γ σ m.locals ∧ m.stack = S

/-- Control after a branch that may be taken. -/
def Control.jumping (taken : Bool) (target : Label) (M : Memory → Prop) : Control :=
  if taken then .label target M else .here M

/-! ### Bits of values

Values are words of the machine, and the operators act on these as the instructions do. -/

/-- Operators do on bits what they do on values. -/
theorem BinaryOp.ints_bits {op : BinaryOp} {v w u : Value} (h : op.apply v w = some u) :
    op.ints v.bits w.bits = some u.bits := by
  cases v with
  | int a =>
    cases w with
    | int b =>
      obtain ⟨n, hn, rfl⟩ := Option.map_eq_some_iff.1 h
      exact hn
    | bool b => cases h
  | bool a =>
    cases w with
    | int b => cases h
    | bool b =>
      obtain ⟨c, hc, rfl⟩ := Option.map_eq_some_iff.1 h
      cases op <;> cases hc <;> revert a b <;> decide

/-- Comparisons do on bits what they do on values. -/
theorem CompareOp.ints_bits {op : CompareOp} {v w : Value} {b : Bool}
    (h : op.apply v w = some b) : op.ints v.bits w.bits = b := by
  cases v with
  | int m =>
    cases w with
    | int n =>
      unfold CompareOp.apply at h
      cases op <;> cases h <;> rfl
    | bool c => cases op <;> cases h
  | bool c =>
    cases w with
    | int n => cases op <;> cases h
    | bool d => cases op <;> cases h <;> revert c d <;> decide

/-- The instruction of an operator. -/
theorem binary?_binaryOpcode (op : BinaryOp) :
    ∃ opcode, Lowering.binaryOpcode op .int = some opcode ∧ opcode.operandBytes = 0 ∧
      ∀ (k : Constants) (m : Memory) (a b : Int32) (S : List Int32), m.stack = b :: a :: S →
        exec k opcode false [] m = (op.ints a b).map fun v => .go { m with stack := v :: S } := by
  cases op <;> refine ⟨_, rfl, rfl, fun k m a b S hm => ?_⟩ <;>
    simp only [exec, hm, binary?, BinaryOp.ints] <;> first | rfl | (split <;> rfl)

theorem branch?_intBranch (op : CompareOp) (a b : Int32) (S : List Int32) :
    branch? (Lowering.intBranch op) (b :: a :: S) = some (op.ints a b, S) := by
  cases op <;> rfl

theorem branch?_zeroBranch (op : CompareOp) (a : Int32) (S : List Int32) :
    branch? (Lowering.zeroBranch op) (a :: S) = some (op.ints a 0, S) := by
  cases op <;> rfl

theorem branch?_negate {op opposite : Opcode} {S S' : List Int32} {taken : Bool}
    (hop : op.negate = some opposite) (h : branch? op S = some (taken, S')) :
    branch? opposite S = some (!taken, S') := by
  unfold branch? at h
  split at h <;> cases h <;> cases hop <;>
    simp only [branch?, ← decide_not, ne_eq, Decidable.not_not, Int32.not_le, Int32.not_lt]

/-- What a branch does. -/
theorem exec_branch {k : Constants} {op : Opcode} {m : Memory} {taken : Bool} {S : List Int32}
    (h : branch? op m.stack = some (taken, S)) (wide : Bool) (operands : Bytes) :
    exec k op wide operands m =
      some (if taken then .jump { m with stack := S } else .go { m with stack := S }) := by
  obtain ⟨locals, stack⟩ := m
  dsimp only at h
  have hexec : exec k op wide operands ⟨locals, stack⟩ =
      (branch? op stack).bind fun next =>
        some (if next.1 then .jump ⟨locals, next.2⟩ else .go ⟨locals, next.2⟩) := by
    unfold branch? at h
    split at h <;> first | rfl | cases h
  rw [hexec, h]
  rfl

/-- Only these are branches of the machine. -/
theorem effect_of_branch {op : Opcode} {taken : Bool} {S S' : List Int32}
    (h : branch? op S = some (taken, S')) :
    op.effect.isBranch = true ∧ (taken = false → op.effect ≠ .goto) := by
  unfold branch? at h
  split at h <;> cases h <;> refine ⟨rfl, fun ht => ?_⟩ <;> first | cases ht | decide

/-! ### Instructions over the locals in scope

Each instruction does to the slots what the expression does to the locals in scope. -/

section Slots

variable {Γ : Context} {σ : Store} {locals : Nat → Option Int32} {id : LocalId} {n : Nat}
  {type : FieldType}

theorem Agrees.slot (h : Agrees Γ σ locals) (hn : Γ[n]? = some (id, type)) {v : Value}
    (hv : σ id = some v) : locals n = some v.bits := by
  obtain ⟨w, hw, hlocals⟩ := h n id type hn
  rw [hv] at hw
  cases hw
  exact hlocals

/-- A local is set in its slot. -/
theorem Agrees.set (h : Agrees Γ σ locals) (hdistinct : (Γ.map Prod.fst).Nodup)
    (hn : Γ[n]? = some (id, type)) (v : Value) :
    Agrees Γ (σ.set id v) fun slot => if slot = n then some v.bits else locals slot := by
  intro n' id' type' hn'
  by_cases heq : id' = id
  · subst heq
    -- a local has one slot only
    have hsame : n' = n := by
      have hget (i : Nat) (t : FieldType) (hi : Γ[i]? = some (id', t)) :
          (Γ.map Prod.fst)[i]? = some id' := by
        rw [List.getElem?_map, hi]
        rfl
      have hlt := (List.getElem?_eq_some_iff.1 (hget n' type' hn')).1
      exact (List.getElem?_inj hlt hdistinct).1 ((hget n' type' hn').trans (hget n type hn).symm)
    exact ⟨v, if_pos rfl, if_pos hsame⟩
  · obtain ⟨w, hw, hlocals⟩ := h n' id' type' hn'
    refine ⟨w, (if_neg heq).trans hw, (if_neg ?_).trans hlocals⟩
    rintro rfl
    rw [hn] at hn'
    cases hn'
    exact heq rfl

end Slots

namespace Lowering

variable {W : Whole} {P : LocalSlots → Prop} {Γ : Context} {σ : Store} {S S' : List Int32}
  {id : LocalId} {n : Nat} {type : FieldType}

/-- An instruction on the stack. -/
theorem goes_simple {op : Opcode} (hbytes : op.operandBytes = 0)
    (hexec : ∀ m, m.stack = S →
      exec W.constants op false [] m = some (.go { m with stack := S' })) :
    Goes W P P (emit (Assembler.simple op)) (.here (Holds Γ σ S)) (.here (Holds Γ σ S')) :=
  goes_push (Instruction.plain_simple hbytes) fun _ m _ hm =>
    ⟨_, hexec m hm.2, hm.1, rfl⟩

theorem goes_dup (v : Int32) :
    Goes W P P (emit (Assembler.simple .dup)) (.here (Holds Γ σ (v :: S)))
      (.here (Holds Γ σ (v :: v :: S))) :=
  goes_simple rfl fun m hm => by simp only [exec, hm]

theorem goes_pop (v : Int32) :
    Goes W P P (emit (Assembler.simple .pop)) (.here (Holds Γ σ (v :: S)))
      (.here (Holds Γ σ S)) :=
  goes_simple rfl fun m hm => by simp only [exec, hm]

/-- A branch on the stack. -/
theorem goes_branch {op : Opcode} {taken : Bool} (h : branch? op S = some (taken, S'))
    (target : Label) :
    Goes W P P (emit (Assembler.branch op target)) (.here (Holds Γ σ S))
      (.jumping taken target (Holds Γ σ S')) := by
  obtain ⟨hbranch, hgoto⟩ := effect_of_branch h
  have hexec : ∀ m, Holds Γ σ S m → exec W.constants op false [0, 0] m =
      some (if taken then .jump { m with stack := S' } else .go { m with stack := S' }) :=
    fun m hm => exec_branch (hm.2 ▸ h) false [0, 0]
  cases taken with
  | true => exact goes_jump hbranch target fun m hm => ⟨_, hexec m hm, hm.1, rfl⟩
  | false => exact goes_fall hbranch (hgoto rfl) target fun m hm => ⟨_, hexec m hm, hm.1, rfl⟩

theorem goes_goto (target : Label) :
    Goes W P P (emit (Assembler.branch .goto target)) (.here (Holds Γ σ S))
      (.label target (Holds Γ σ S)) := by
  have htaken : branch? .goto S = some (true, S) := rfl
  exact goes_branch htaken target

/-- An integer is pushed, from the constants if it has no short form. -/
theorem goes_pushInt (value : Int32) :
    Goes W P P (emit (Assembler.pushInt value)) (.here (Holds Γ σ S))
      (.here (Holds Γ σ (value :: S))) := by
  have hpush : ∀ {m : Memory}, Holds Γ σ S m → Holds Γ σ (value :: S) (m.push value) :=
    fun hm => ⟨hm.1, congrArg (value :: ·) hm.2⟩
  refine ⟨(emits_emit (.common (.pushInt value))).tracks P,
    fun c slots a v slots' b hP hrun hgrows ha => ?_⟩
  obtain ⟨hpushed, rfl⟩ := emit_eq_ok hrun
  unfold Assembler.pushInt at hpushed
  cases hi : Instruction.pushInt? value.toInt with
  | some i =>
    rw [hi] at hpushed
    have hgoes : Goes W P P (emit (Assembler.push i .none)) (.here (Holds Γ σ S))
        (.here (Holds Γ σ (value :: S))) :=
      goes_push (Instruction.plain_pushInt hi) fun _ m _ hm => ⟨_, exec_pushInt hi, hpush hm⟩
    exact hgoes.goes c slots' a v slots' b hP (emit_of_ok hpushed) hgrows ha
  | none =>
    rw [hi] at hpushed
    obtain ⟨index, a', hintern, hpushed⟩ := ClassForge.bind_eq_ok hpushed
    have hplain := Instruction.plain_loadConstant index
    have hgrows' := (Assembler.builds_push hplain _ a' v b hpushed).grows.trans hgrows
    obtain ⟨pool, hpool, rfl⟩ := Interning.toAssembling_eq_ok.1 hintern
    -- the finished code has the constant at the same index
    have hk : W.constants index = some value :=
      W.integers index value (hgrows'.pool index _ (ConstantPool.intern_eq_ok hpool).2)
    have hgoes : Goes W P P (emit (Assembler.push (.loadConstant index) (.value .integer)))
        (.here (Holds Γ σ S)) (.here (Holds Γ σ (value :: S))) :=
      goes_push hplain fun _ m _ hm => ⟨_, exec_loadConstant hk, hpush hm⟩
    refine hgoes.goes c slots' _ v slots' b hP (emit_of_ok hpushed) hgrows ?_
    exact ha.of_eq (Interning.builds_intern _ a index _ hintern).grows rfl id

/-- The slot of a local, in a method without `this`. -/
theorem slot_eq {slots : LocalSlots} (hs : InSlots 0 Γ slots)
    (hn : Γ[n]? = some (id, type)) :
    slots.lookup? id = some (UInt16.ofNat n, type) ∧ (UInt16.ofNat n).toNat = n := by
  have hfinds := hs.finds n id type hn
  have hslot := hs.toNat_slot (List.getElem?_eq_some_iff.1 hn).1
  rw [Nat.zero_add] at hfinds hslot
  exact ⟨hfinds, hslot⟩

section Locals

variable {v : Value} (hn : Γ[n]? = some (id, type))

include hn

theorem goes_slot {f : UInt16 × FieldType → Lowering Unit} {e e' : Control}
    (hf : Goes W (InSlots 0 Γ) (InSlots 0 Γ) (f (UInt16.ofNat n, type))
      e e') :
    Goes W (InSlots 0 Γ) (InSlots 0 Γ) (lookup id >>= f) e e' :=
  goes_lookup (fun _ hs => (slot_eq hs hn).1) hf

/-- The value of a local is pushed. -/
theorem goes_load {t : FieldType} (hkind : t.kind = .int) (hv : σ id = some v) :
    Goes W (InSlots 0 Γ) (InSlots 0 Γ)
      (emit (Assembler.loadLocal (UInt16.ofNat n) t)) (.here (Holds Γ σ S))
      (.here (Holds Γ σ (v.bits :: S))) := by
  unfold Assembler.loadLocal
  rw [hkind]
  refine goes_push (Instruction.plain_load _ _) fun slots m hs hm => ⟨m.push v.bits, ?_, ?_⟩
  · refine exec_load ?_
    rw [(slot_eq hs hn).2]
    exact hm.1.slot hn hv
  · exact ⟨hm.1, congrArg (v.bits :: ·) hm.2⟩

/-- A value is popped into a local. -/
theorem goes_store (hkind : type.kind = .int) (v : Value) :
    Goes W (InSlots 0 Γ) (InSlots 0 Γ)
      (emit (Assembler.storeLocal (UInt16.ofNat n) type)) (.here (Holds Γ σ (v.bits :: S)))
      (.here (Holds Γ (σ.set id v) S)) := by
  unfold Assembler.storeLocal
  rw [hkind]
  refine goes_push (Instruction.plain_store _ _) fun slots m hs hm => ⟨_, exec_store hm.2, ?_⟩
  rw [(slot_eq hs hn).2]
  exact ⟨hm.1.set hs.distinct hn v, rfl⟩

/-- An amount is added to a local. -/
theorem goes_increment {old : Int32} (hold : σ id = some (.int old)) (amount : Int16) :
    Goes W (InSlots 0 Γ) (InSlots 0 Γ)
      (emit (Assembler.increment (UInt16.ofNat n) amount)) (.here (Holds Γ σ S))
      (.here (Holds Γ (σ.set id (.int (old + amount.toInt32))) S)) := by
  refine goes_push (Instruction.plain_increment _ _) fun slots m hs hm => ?_
  have hslot := (slot_eq hs hn).2
  have hlocal : m.locals (UInt16.ofNat n).toNat = some old := by
    rw [hslot]
    exact hm.1.slot hn hold
  refine ⟨_, exec_increment hlocal, ?_⟩
  rw [hslot]
  exact ⟨hm.1.set hs.distinct hn (.int (old + amount.toInt32)), hm.2⟩

end Locals

end Lowering

/-! ### Fragments -/

/-- **The code of an expression does what the expression means**, in whichever way it
is asked for. -/
structure Fragment.Runs (W : Whole) (Γ : Context) (e : Expr)
    (f : Fragment) : Prop where
  value : ∀ {σ σ' : Store} {v : Value} (S : List Int32), e.eval σ = some (v, σ') →
    Lowering.Goes W (InSlots 0 Γ) (InSlots 0 Γ) f.value
      (.here (Holds Γ σ S)) (.here (Holds Γ σ' (v.bits :: S)))
  effect : ∀ {σ σ' : Store} {v : Value} (S : List Int32), e.eval σ = some (v, σ') →
    Lowering.Goes W (InSlots 0 Γ) (InSlots 0 Γ) f.effect
      (.here (Holds Γ σ S)) (.here (Holds Γ σ' S))
  jump : ∀ {σ σ' : Store} {b : Bool} (S : List Int32) (outcome : Bool) (target : Label),
    e.eval σ = some (.bool b, σ') →
    Lowering.Goes W (InSlots 0 Γ) (InSlots 0 Γ) (f.jump outcome target)
      (.here (Holds Γ σ S)) (.jumping (b == outcome) target (Holds Γ σ' S))

namespace Lowering

variable {W : Whole} {Γ : Context} {σ σ' : Store} {S : List Int32}

/-- A branch on a truth value. -/
theorem goes_jumpOn {value : Lowering Unit} {b : Bool}
    (h : Goes W (InSlots 0 Γ) (InSlots 0 Γ) value (.here (Holds Γ σ S))
      (.here (Holds Γ σ' ((Value.bool b).bits :: S)))) (outcome : Bool) (target : Label) :
    Goes W (InSlots 0 Γ) (InSlots 0 Γ) (jumpOn value outcome target)
      (.here (Holds Γ σ S)) (.jumping (b == outcome) target (Holds Γ σ' S)) := by
  refine h.bind fun _ => goes_branch ?_ target
  cases b <;> cases outcome <;> rfl

/-- The outcome of a condition is pushed. -/
theorem goes_outcomeValue {jump : Jump} {b : Bool}
    (h : ∀ outcome target, Goes W (InSlots 0 Γ) (InSlots 0 Γ)
      (jump outcome target) (.here (Holds Γ σ S))
      (.jumping (b == outcome) target (Holds Γ σ' S))) :
    Goes W (InSlots 0 Γ) (InSlots 0 Γ) (outcomeValue jump)
      (.here (Holds Γ σ S)) (.here (Holds Γ σ' ((Value.bool b).bits :: S))) := by
  refine (goes_newLabel none).bind fun falseLabel => (goes_newLabel none).bind fun endLabel =>
    (h false falseLabel).bind fun _ => ?_
  cases b with
  | true =>
    refine (goes_pushInt 1).bind fun _ => (goes_goto endLabel).bind fun _ =>
      (goes_place falseLabel).bind fun _ => ?_
    exact (emits_emit (.common (.pushInt 0))).goes_past.bind fun _ => goes_arrive endLabel _
  | false =>
    refine (emits_emit (.common (.pushInt 1))).goes_past.bind fun _ =>
      (emits_branch rfl endLabel).goes_past.bind fun _ => ?_
    exact (goes_arrive falseLabel _).bind fun _ => (goes_pushInt 0).bind fun _ =>
      goes_place endLabel

end Lowering

namespace Fragment

open Lowering

variable {W : Whole} {Γ : Context} {e : Expr}

/-- An expression that is only good for its value. -/
theorem runs_ofValue {value : Lowering Unit} (htype : e.type.isSome = true)
    (h : ∀ {σ σ' : Store} {v : Value} (S : List Int32), e.eval σ = some (v, σ') →
      Goes W (InSlots 0 Γ) (InSlots 0 Γ) value (.here (Holds Γ σ S))
        (.here (Holds Γ σ' (v.bits :: S)))) :
    (ofValue e value).Runs W Γ e where
  value := h
  effect S he := by
    refine (h S he).bind fun _ => ?_
    rw [if_pos htype]
    exact goes_pop _
  jump S outcome target he := goes_jumpOn (h S he) outcome target

/-- A condition. -/
theorem runs_ofJump {jump : Jump} (htype : e.type.isSome = true)
    (hbool : ∀ {σ σ' : Store} {v : Value}, e.eval σ = some (v, σ') → ∃ b, v = .bool b)
    (h : ∀ {σ σ' : Store} {b : Bool} (S : List Int32) (outcome : Bool) (target : Label),
      e.eval σ = some (.bool b, σ') →
      Goes W (InSlots 0 Γ) (InSlots 0 Γ) (jump outcome target)
        (.here (Holds Γ σ S)) (.jumping (b == outcome) target (Holds Γ σ' S))) :
    (ofJump e jump).Runs W Γ e := by
  refine { runs_ofValue htype fun S he => ?_ with jump := h }
  obtain ⟨b, rfl⟩ := hbool he
  exact goes_outcomeValue fun outcome target => h S outcome target he

/-- An expression that changes something. -/
theorem runs_ofUpdate {update : Bool → Lowering Unit} (htype : e.type.isSome = true)
    (h : ∀ {σ σ' : Store} {v : Value} (S : List Int32) (wanted : Bool),
      e.eval σ = some (v, σ') →
      Goes W (InSlots 0 Γ) (InSlots 0 Γ) (update wanted) (.here (Holds Γ σ S))
        (.here (Holds Γ σ' (if wanted then v.bits :: S else S)))) :
    (ofUpdate e update).Runs W Γ e :=
  { runs_ofValue htype fun S he => h S true he with effect := fun S he => h S false he }

end Fragment

/-! ### Expressions over integers and truth values -/

theorem FieldType.kind_of_isIntegral {t : FieldType} (h : t.isIntegral = true) :
    t.kind = .int ∧ t.isReference = false ∧ t ≠ .float ∧ t ≠ .string := by
  unfold FieldType.isIntegral at h
  split at h
  · exact ⟨rfl, rfl, nofun, nofun⟩
  · exact ⟨rfl, rfl, nofun, nofun⟩
  · cases h

/-- An integral expression has an integral type. -/
theorem Expr.type_of_isIntegral {Γ : Context} {e : Expr} (h : e.isIntegral Γ = true) :
    ∃ t, e.type = some t ∧ t.isIntegral = true := by
  unfold Expr.isIntegral at h
  rw [Bool.and_eq_true, Option.any_eq_true] at h
  exact h.1

namespace Lowering

variable {W : Whole} {Γ : Context} {σ σ' : Store} {S : List Int32}

/-- Integers and truth values are not converted. -/
theorem converted_eq {o : Operand} {t expected : FieldType} (ht : o.source.type = some t)
    (hexpected : expected.isIntegral = true) : o.converted expected = o.value := by
  have hkind := (FieldType.kind_of_isIntegral hexpected).1
  unfold Operand.converted
  simp only [typeOf_of_some ht, pure_bind, hkind, reduceCtorEq, and_false, if_false]
  exact bind_pure o.value

theorem generalizeTop_eq {t : FieldType} (h : t.isIntegral = true) :
    generalizeTop t = pure () := by
  unfold generalizeTop
  rw [(FieldType.kind_of_isIntegral h).2.1]
  rfl

/-- An operator is applied to the two values on the stack. -/
theorem goes_operate (e : Expr) {op : BinaryOp} {v w u : Value} (h : op.apply v w = some u) :
    Goes W (InSlots 0 Γ) (InSlots 0 Γ) (operate e op .int)
      (.here (Holds Γ σ (w.bits :: v.bits :: S))) (.here (Holds Γ σ (u.bits :: S))) := by
  obtain ⟨opcode, hop, hbytes, hexec⟩ := binary?_binaryOpcode op
  unfold operate
  rw [hop]
  refine goes_simple hbytes fun m hm => ?_
  rw [hexec _ m _ _ S hm, BinaryOp.ints_bits h]
  rfl

/-! ### Changes of locals

Assignments, compound assignments and increments give a local the value that they are evaluated to.
-/

/-- A number of 16 bits. -/
theorem toInt32_small {m : Int} {amount : Int16}
    (h : incrementAmount.small m = some amount) : amount.toInt32 = Int32.ofInt m := by
  unfold incrementAmount.small at h
  split at h
  · rename_i hm
    cases h
    rw [← Int32.toInt_inj, Int16.toInt_toInt32, Int16.toInt_ofInt_of_le hm.1 hm.2,
      Int32.toInt_ofInt_of_le (by omega) (by omega)]
  · cases h

/-- The amount of a change in place is what the operator adds. -/
theorem incrementAmount_eq_some {op : BinaryOp} {value : Expr} {amount : Int16}
    (h : incrementAmount op value = some amount) :
    ∃ n t, value = .int n t ∧ ∀ old, op.ints old n = some (old + amount.toInt32) := by
  unfold incrementAmount at h
  cases value with
  | int n t =>
    refine ⟨n, t, rfl, fun old => ?_⟩
    cases op with
    | add =>
      rw [toInt32_small h, Int32.ofInt_toInt]
      rfl
    | sub =>
      rw [toInt32_small h, Int32.ofInt_neg, Int32.ofInt_toInt, ← Int32.sub_eq_add_neg]
      rfl
    | _ => cases h
  | _ => cases h

section Updates

variable {target : Fragment} {id : LocalId} {n : Nat} {declared type : FieldType}
  (hn : Γ[n]? = some (id, declared)) (hdeclared : declared.isIntegral = true)
  (htype : target.source.type = some type) (hintegral : type.isIntegral = true)
  (hplace : target.place = some (.slot id))

include hn hdeclared

theorem goes_loadVar {v : Value} (hv : σ id = some v) :
    Goes W (InSlots 0 Γ) (InSlots 0 Γ) (loadVar id) (.here (Holds Γ σ S))
      (.here (Holds Γ σ (v.bits :: S))) :=
  goes_slot hn (goes_load hn (FieldType.kind_of_isIntegral hdeclared).1 hv)

theorem goes_loadForUpdate (type : FieldType) {v : Value} (hv : σ id = some v) :
    Goes W (InSlots 0 Γ) (InSlots 0 Γ) ((Place.slot id).loadForUpdate type)
      (.here (Holds Γ σ S)) (.here (Holds Γ σ (v.bits :: S))) :=
  (goes_pure ()).bind fun _ => (goes_pure ()).bind fun _ => goes_loadVar hn hdeclared hv

/-- A value is popped into a local, and kept if it is wanted. -/
theorem goes_keepStore (wanted : Bool) (type : FieldType) (v : Value) :
    Goes W (InSlots 0 Γ) (InSlots 0 Γ)
      (do
        (Place.slot id).keepIf wanted
        (Place.slot id).store type)
      (.here (Holds Γ σ (v.bits :: S)))
      (.here (Holds Γ (σ.set id v) (if wanted then v.bits :: S else S))) := by
  have hkind := (FieldType.kind_of_isIntegral hdeclared).1
  cases wanted with
  | true => exact (goes_dup v.bits).bind fun _ => goes_slot hn (goes_store hn hkind v)
  | false => exact (goes_pure ()).bind fun _ => goes_slot hn (goes_store hn hkind v)

omit hdeclared in
/-- An integer local is changed by one, in place. -/
theorem goes_incrementSlot {old new : Value} {decrement : Bool} (hold : σ id = some old)
    (hnew : old.incremented decrement = some new) (inFront wanted : Bool) :
    Goes W (InSlots 0 Γ) (InSlots 0 Γ)
      (incrementSlot id .int decrement inFront wanted) (.here (Holds Γ σ S))
      (.here (Holds Γ (σ.set id new)
        (if wanted then (if inFront then new else old).bits :: S else S))) := by
  cases old with
  | bool b => cases hnew
  | int old =>
    cases hnew
    refine goes_slot hn ?_
    have hincrement : ∀ S, Goes W (InSlots 0 Γ) (InSlots 0 Γ)
        (emit (Assembler.increment (UInt16.ofNat n) (if decrement then -1 else 1)))
        (.here (Holds Γ σ S))
        (.here (Holds Γ (σ.set id (.int (if decrement then old - 1 else old + 1))) S)) := by
      intro S
      have hamount : old + (if decrement then (-1 : Int16) else 1).toInt32 =
          if decrement then old - 1 else old + 1 := by
        cases decrement with
        | false => rfl
        | true => exact (Int32.sub_eq_add_neg old 1).symm
      rw [← hamount]
      exact goes_increment hn hold _
    have hnew : (σ.set id (.int (if decrement then old - 1 else old + 1))) id =
        some (.int (if decrement then old - 1 else old + 1)) := if_pos rfl
    cases wanted with
    | false => exact (hincrement S).bind fun _ => goes_pure ()
    | true =>
      cases inFront with
      | false =>
        exact (goes_load hn rfl hold).bind fun _ => (hincrement _).bind fun _ => goes_pure ()
      | true => exact (hincrement S).bind fun _ => goes_load hn rfl hnew

include hintegral hplace

/-- A change of a local by an operator. -/
theorem goes_compoundThrough {op : BinaryOp} {value : Operand} {t : FieldType}
    (ht : value.source.type = some t) (htintegral : t.isIntegral = true) {old v new : Value}
    (hold : σ id = some old) (hnew : op.apply old v = some new)
    (hvalue : Goes W (InSlots 0 Γ) (InSlots 0 Γ) value.value
      (.here (Holds Γ σ (old.bits :: S))) (.here (Holds Γ σ' (v.bits :: old.bits :: S))))
    (wanted : Bool) :
    Goes W (InSlots 0 Γ) (InSlots 0 Γ)
      (compoundThrough target op value type t wanted) (.here (Holds Γ σ S))
      (.here (Holds Γ (σ'.set id new) (if wanted then new.bits :: S else S))) := by
  obtain ⟨hkind, -, -, hstring⟩ := FieldType.kind_of_isIntegral hintegral
  have hupdate : Goes W (InSlots 0 Γ) (InSlots 0 Γ)
      (updateArithmetic target.source op type value t) (.here (Holds Γ σ (old.bits :: S)))
      (.here (Holds Γ σ' (new.bits :: S))) := by
    unfold updateArithmetic
    rw [if_neg fun h => (FieldType.kind_of_isIntegral htintegral).2.2.1 h.2.1,
      converted_eq ht hintegral, hkind]
    exact hvalue.bind fun _ => goes_operate _ hnew
  simp only [compoundThrough, placeOf, hplace, pure_bind, hstring, and_false, if_false]
  exact (goes_loadForUpdate hn hdeclared type hold).bind fun _ => hupdate.bind fun _ =>
    goes_keepStore hn hdeclared wanted type new

/-- A change of a local by one. -/
theorem goes_incrementThrough {old new : Value} {decrement : Bool} (hold : σ id = some old)
    (hnew : old.incremented decrement = some new) (inFront wanted : Bool) :
    Goes W (InSlots 0 Γ) (InSlots 0 Γ)
      (incrementThrough target type decrement inFront wanted) (.here (Holds Γ σ S))
      (.here (Holds Γ (σ.set id new)
        (if wanted then (if inFront then new else old).bits :: S else S))) := by
  obtain ⟨hkind, -⟩ := FieldType.kind_of_isIntegral hintegral
  have happly : (if decrement then BinaryOp.sub else .add).apply old (.int 1) = some new := by
    cases old with
    | int m => cases decrement <;> exact hnew
    | bool b => cases hnew
  have hone : ∀ S, Goes W (InSlots 0 Γ) (InSlots 0 Γ)
      (pushOne target.source .int) (.here (Holds Γ σ (old.bits :: S)))
      (.here (Holds Γ σ ((Value.int 1).bits :: old.bits :: S))) := fun S => goes_pushInt 1
  simp only [incrementThrough, placeOf, hplace, pure_bind, hkind]
  refine (goes_loadForUpdate hn hdeclared type hold).bind fun _ => ?_
  cases wanted with
  | false =>
    exact (goes_pure ()).bind fun _ => (hone S).bind fun _ => (goes_operate _ happly).bind fun _ =>
      goes_keepStore hn hdeclared false type new
  | true =>
    cases inFront with
    | false =>
      exact (goes_dup old.bits).bind fun _ => (hone _).bind fun _ =>
        (goes_operate _ happly).bind fun _ => goes_keepStore hn hdeclared false type new
    | true =>
      exact (goes_pure ()).bind fun _ => (hone S).bind fun _ =>
        (goes_operate _ happly).bind fun _ => goes_keepStore hn hdeclared true type new

include htype

/-- An assignment to a local. -/
theorem goes_assign {value : Operand} {t : FieldType} (ht : value.source.type = some t)
    {v : Value}
    (hvalue : Goes W (InSlots 0 Γ) (InSlots 0 Γ) value.value
      (.here (Holds Γ σ S)) (.here (Holds Γ σ' (v.bits :: S)))) (wanted : Bool) :
    Goes W (InSlots 0 Γ) (InSlots 0 Γ) (assign target value wanted) (.here (Holds Γ σ S))
      (.here (Holds Γ (σ'.set id v) (if wanted then v.bits :: S else S))) := by
  simp only [assign, typeOf_of_some htype, placeOf, hplace, pure_bind, converted_eq ht hintegral]
  exact (goes_pure ()).bind fun _ => hvalue.bind fun _ =>
    goes_keepStore hn hdeclared wanted type v

/-- A change of a local by an operator, in place if that is possible. -/
theorem goes_compound {op : BinaryOp} {value : Operand} {t : FieldType}
    (ht : value.source.type = some t) (htintegral : t.isIntegral = true) {old v new : Value}
    (hold : σ id = some old) (heval : value.source.eval σ = some (v, σ'))
    (hnew : op.apply old v = some new)
    (hvalue : Goes W (InSlots 0 Γ) (InSlots 0 Γ) value.value
      (.here (Holds Γ σ (old.bits :: S))) (.here (Holds Γ σ' (v.bits :: old.bits :: S))))
    (wanted : Bool) :
    Goes W (InSlots 0 Γ) (InSlots 0 Γ) (compound op target value wanted)
      (.here (Holds Γ σ S))
      (.here (Holds Γ (σ'.set id new) (if wanted then new.bits :: S else S))) := by
  have hthrough := goes_compoundThrough hn hdeclared hintegral hplace ht htintegral hold hnew
    hvalue wanted
  simp only [compound, typeOf_of_some htype, typeOf_of_some ht, hplace, pure_bind]
  split
  · rename_i amount _ hamount
    split
    · rename_i hwanted
      obtain ⟨hwanted, -⟩ := hwanted
      -- the value is a literal, which changes nothing itself
      obtain ⟨m, t, hsource, hadds⟩ := incrementAmount_eq_some hamount
      rw [hsource] at heval
      cases heval
      cases old with
      | bool b => cases hnew
      | int old =>
        rw [BinaryOp.apply, hadds] at hnew
        cases hnew
        rw [if_neg hwanted]
        rename_i hid
        cases hid
        exact goes_slot hn (goes_increment hn hold amount)
    · exact hthrough
  · exact hthrough

/-- A change of a local by one, in place if that is possible. -/
theorem goes_incremented {old new : Value} {decrement : Bool} (hold : σ id = some old)
    (hnew : old.incremented decrement = some new) (inFront wanted : Bool) :
    Goes W (InSlots 0 Γ) (InSlots 0 Γ)
      (Lowering.increment target decrement inFront wanted) (.here (Holds Γ σ S))
      (.here (Holds Γ (σ.set id new)
        (if wanted then (if inFront then new else old).bits :: S else S))) := by
  simp only [Lowering.increment, typeOf_of_some htype, hplace, pure_bind]
  split
  · rename_i hint
    rw [hint]
    exact goes_incrementSlot hn hold hnew inFront wanted
  · exact goes_incrementThrough hn hdeclared hintegral hplace hold hnew inFront wanted

end Updates

/-! ### Conditions

Control goes to the target of a condition if its outcome is the one asked for, and on if not. -/

/-- A literal zero changes nothing, and its bits are zero. -/
theorem eval_of_isZero {e : Expr} (h : e.isZero = true) :
    ∃ w, w.bits = 0 ∧ ∀ σ, e.eval σ = some (w, σ) := by
  cases e with
  | int value t =>
    exact ⟨.int value, of_decide_eq_true h, fun σ => rfl⟩
  | boolean value t =>
    refine ⟨.bool value, ?_, fun σ => rfl⟩
    cases value with
    | true => cases h
    | false => rfl
  | _ => cases h

/-- The branch of a comparison, with its operands on the stack. -/
theorem goes_taken (e : Expr) {taken : Opcode} {b : Bool} {S' : List Int32}
    (h : branch? taken S' = some (b, S)) (outcome : Bool) (target : Label) :
    Goes W (InSlots 0 Γ) (InSlots 0 Γ)
      (if outcome then emit (Assembler.branch taken target)
      else
        match taken.negate with
        | some opposite => emit (Assembler.branch opposite target)
        | none => unsupported e)
      (.here (Holds Γ σ S')) (.jumping (b == outcome) target (Holds Γ σ S)) := by
  cases outcome with
  | true =>
    rw [beq_true]
    exact goes_branch h target
  | false =>
    rw [beq_false]
    cases hnegate : taken.negate with
    | some opposite => exact goes_branch (branch?_negate hnegate h) target
    | none => exact .never fun slots a v slots' b _ hrun => nomatch hrun

/-- A branch on a comparison of integers or truth values. -/
theorem goes_jumpCompare (e : Expr) {op : CompareOp} {left right : Operand} {t u : FieldType}
    (ht : left.source.type = some t) (htintegral : t.isIntegral = true)
    (hu : right.source.type = some u) (huintegral : u.isIntegral = true) {σ'' : Store}
    {v w : Value} {b : Bool}
    (hleft : Goes W (InSlots 0 Γ) (InSlots 0 Γ) left.value
      (.here (Holds Γ σ S)) (.here (Holds Γ σ' (v.bits :: S))))
    (heval : right.source.eval σ' = some (w, σ''))
    (hright : Goes W (InSlots 0 Γ) (InSlots 0 Γ) right.value
      (.here (Holds Γ σ' (v.bits :: S))) (.here (Holds Γ σ'' (w.bits :: v.bits :: S))))
    (hb : op.apply v w = some b) (outcome : Bool) (target : Label) :
    Goes W (InSlots 0 Γ) (InSlots 0 Γ)
      (jumpCompare e op left right outcome target) (.here (Holds Γ σ S))
      (.jumping (b == outcome) target (Holds Γ σ'' S)) := by
  have hkind : compareKind t.kind u.kind = .int := by
    rw [(FieldType.kind_of_isIntegral htintegral).1, (FieldType.kind_of_isIntegral huintegral).1]
    rfl
  simp only [jumpCompare, compareOperands, typeOf_of_some ht, typeOf_of_some hu, pure_bind, hkind,
    bind_assoc]
  refine hleft.bind fun _ => ?_
  split
  · rename_i hzero
    obtain ⟨w', hw', heval'⟩ := eval_of_isZero hzero
    rw [heval'] at heval
    cases heval
    rw [pure_bind]
    refine goes_taken e ?_ outcome target
    rw [branch?_zeroBranch, ← hw', CompareOp.ints_bits hb]
  · rw [bind_assoc]
    refine hright.bind fun _ => ?_
    rw [pure_bind]
    refine goes_taken e ?_ outcome target
    rw [branch?_intBranch, CompareOp.ints_bits hb]

/-- For the decisive outcome either operand may jump. -/
theorem jumpLogical_decisive (op : LogicalOp) (left right : Jump) (target : Label) :
    jumpLogical op left right op.decisive target =
      (do
        left op.decisive target
        right op.decisive target) := by
  cases op <;> rfl

theorem jumpLogical_not_decisive (op : LogicalOp) (left right : Jump) (target : Label) :
    jumpLogical op left right (!op.decisive) target =
      (do
        let skip ← emit Assembler.freshLabel
        left op.decisive skip
        right (!op.decisive) target
        emit (Assembler.place skip)) := by
  cases op <;> rfl

section Logical

variable {op : LogicalOp} {left right : Jump} {b : Bool}
  (hleft : ∀ outcome target, Goes W (InSlots 0 Γ) (InSlots 0 Γ)
    (left outcome target) (.here (Holds Γ σ S)) (.jumping (b == outcome) target (Holds Γ σ' S)))

include hleft

/-- The left operand decides. -/
theorem goes_jumpLogical_left (hb : b = op.decisive)
    (hright : ∀ outcome target, Emits (right outcome target)) (outcome : Bool) (target : Label) :
    Goes W (InSlots 0 Γ) (InSlots 0 Γ)
      (jumpLogical op left right outcome target) (.here (Holds Γ σ S))
      (.jumping (b == outcome) target (Holds Γ σ' S)) := by
  subst hb
  have hjump := hleft op.decisive
  rw [beq_self_eq_true] at hjump
  by_cases houtcome : outcome = op.decisive
  · subst houtcome
    rw [jumpLogical_decisive, beq_self_eq_true]
    exact (hjump target).bind fun _ => (hright _ target).goes_past
  · obtain rfl := Bool.eq_not.2 houtcome
    rw [jumpLogical_not_decisive, Bool.beq_not_self]
    exact (goes_newLabel none).bind fun skip => (hjump skip).bind fun _ =>
      (hright _ target).goes_past.bind fun _ => goes_arrive skip _

/-- The right operand decides. -/
theorem goes_jumpLogical_right (hb : b ≠ op.decisive) {σ'' : Store} {c : Bool}
    (hright : ∀ outcome target, Goes W (InSlots 0 Γ) (InSlots 0 Γ)
      (right outcome target) (.here (Holds Γ σ' S))
      (.jumping (c == outcome) target (Holds Γ σ'' S))) (outcome : Bool) (target : Label) :
    Goes W (InSlots 0 Γ) (InSlots 0 Γ)
      (jumpLogical op left right outcome target) (.here (Holds Γ σ S))
      (.jumping (c == outcome) target (Holds Γ σ'' S)) := by
  have hfall := hleft op.decisive
  rw [beq_false_of_ne hb] at hfall
  by_cases houtcome : outcome = op.decisive
  · subst houtcome
    rw [jumpLogical_decisive]
    exact (hfall target).bind fun _ => hright _ target
  · obtain rfl := Bool.eq_not.2 houtcome
    rw [jumpLogical_not_decisive]
    exact (goes_newLabel none).bind fun skip => (hfall skip).bind fun _ =>
      (hright _ target).bind fun _ => goes_place skip

end Logical

/-- One of two values is pushed. -/
theorem goes_conditionalValue {e : Expr} {type : FieldType} (htype : e.type = some type)
    (hintegral : type.isIntegral = true) {condition : Jump} {thenValue elseValue : Operand}
    {t u : FieldType} (ht : thenValue.source.type = some t) (hu : elseValue.source.type = some u)
    (hthen : Emits thenValue.value) (helse : Emits elseValue.value) {b : Bool} {σ'' : Store}
    {v : Value}
    (hcondition : ∀ outcome target, Goes W (InSlots 0 Γ) (InSlots 0 Γ)
      (condition outcome target) (.here (Holds Γ σ S))
      (.jumping (b == outcome) target (Holds Γ σ' S)))
    (hvalue : Goes W (InSlots 0 Γ) (InSlots 0 Γ)
      (if b then thenValue.value else elseValue.value) (.here (Holds Γ σ' S))
      (.here (Holds Γ σ'' (v.bits :: S)))) :
    Goes W (InSlots 0 Γ) (InSlots 0 Γ)
      (conditionalValue e condition thenValue elseValue) (.here (Holds Γ σ S))
      (.here (Holds Γ σ'' (v.bits :: S))) := by
  simp only [conditionalValue, typeOf_of_some htype, pure_bind, converted_eq ht hintegral,
    converted_eq hu hintegral, generalizeTop_eq hintegral]
  refine (goes_newLabel none).bind fun elseLabel => (goes_newLabel none).bind fun endLabel =>
    (hcondition false elseLabel).bind fun _ => ?_
  cases b with
  | true =>
    exact hvalue.bind fun _ => (goes_goto endLabel).bind fun _ =>
      (goes_place elseLabel).bind fun _ => helse.goes_past.bind fun _ => goes_arrive endLabel _
  | false =>
    exact hthen.goes_past.bind fun _ => (emits_branch rfl endLabel).goes_past.bind fun _ =>
      (goes_arrive elseLabel _).bind fun _ => hvalue.bind fun _ => goes_place endLabel

end Lowering

/-! ### Each kind of expression

One case for each constructor, and from them the walk over the tree (`Expr.runs`). -/

/-- The place of a local in scope. -/
theorem Context.exists_of_declares {Γ : Context} {id : LocalId} (h : Γ.declares id = true) :
    ∃ (n : Nat) (type : FieldType), Γ[n]? = some (id, type) := by
  obtain ⟨⟨id', type⟩, hmem, rfl⟩ := List.mem_map.1 (Context.declares_iff.1 h)
  obtain ⟨n, hn⟩ := List.mem_iff_getElem?.1 hmem
  exact ⟨n, type, hn⟩

namespace Expr

open Lowering

variable {W : Whole} {site : Site} {Γ : Context} {t type : FieldType}

/-- A truth value runs as one or zero, or as a jump that is taken always or never. -/
theorem runs_boolean (value : Bool) :
    ((Expr.boolean value (some t)).fragment site).Runs W Γ
      (.boolean value (some t)) := by
  rw [Expr.fragment]
  have hvalue : (Fragment.ofValue (.boolean value (some t))
      (emit (Assembler.pushInt (if value then 1 else 0)))).Runs W Γ
        (.boolean value (some t)) := by
    refine Fragment.runs_ofValue rfl fun S he => ?_
    cases he
    exact goes_pushInt _
  refine { hvalue with jump := fun S outcome target he => ?_ }
  cases he
  change Goes _ _ _ (if value = outcome then _ else _) _ _
  by_cases houtcome : value = outcome
  · rw [if_pos houtcome, houtcome, beq_self_eq_true]
    exact goes_goto target
  · rw [if_neg houtcome, beq_false_of_ne houtcome]
    exact goes_pure ()

/-- A unary expression runs if its operand does: a negation as the operand's jump the other
way, the others on the value. -/
theorem runs_unary (op : UnaryOp) {operand : Expr} (ht : operand.type = some t)
    (hintegral : t.isIntegral = true) (h : (operand.fragment site).Runs W Γ operand) :
    ((Expr.unary op operand (some type)).fragment site).Runs W Γ
      (.unary op operand (some type)) := by
  have hkind := (FieldType.kind_of_isIntegral hintegral).1
  have htype := typeOf_of_some (type_source site ht)
  have heval : ∀ {σ σ' : Store} {u : Value},
      (Expr.unary op operand (some type)).eval σ = some (u, σ') →
        ∃ v, operand.eval σ = some (v, σ') ∧ op.apply v = some u := by
    intro σ σ' u he
    obtain ⟨⟨v, σ₁⟩, hv, he⟩ := Option.bind_eq_some_iff.1 he
    obtain ⟨new, hnew, he⟩ := Option.bind_eq_some_iff.1 he
    cases he
    exact ⟨v, hv, hnew⟩
  rw [Expr.fragment]
  cases op with
  | negate =>
    refine Fragment.runs_ofValue rfl fun S he => ?_
    obtain ⟨v, hv, hnew⟩ := heval he
    simp only [negated, htype, pure_bind, hkind]
    refine (h.value S hv).bind fun _ => goes_simple rfl fun m hm => ?_
    cases v with
    | int n =>
      cases hnew
      simp only [exec, hm]
      rfl
    | bool b => cases hnew
  | bitNot =>
    refine Fragment.runs_ofValue rfl fun S he => ?_
    obtain ⟨v, hv, hnew⟩ := heval he
    refine (h.value S hv).bind fun _ => (goes_pushInt (-1)).bind fun _ =>
      goes_simple rfl fun m hm => ?_
    cases v with
    | int n =>
      cases hnew
      simp only [exec, hm]
      change some (Action.go { m with stack := (n ^^^ -1) :: S }) = _
      rw [Int32.xor_neg_one]
      rfl
    | bool b => cases hnew
  | not =>
    refine Fragment.runs_ofJump rfl (fun he => ?_) fun S outcome target he => ?_
    · obtain ⟨v, -, hnew⟩ := heval he
      cases v with
      | int n => cases hnew
      | bool b =>
        cases hnew
        exact ⟨!b, rfl⟩
    · obtain ⟨v, hv, hnew⟩ := heval he
      cases v with
      | int n => cases hnew
      | bool b =>
        cases hnew
        have hswap : (b == !outcome) = ((!b) == outcome) := by
          cases b <;> cases outcome <;> rfl
        rw [← hswap]
        exact h.jump S (!outcome) target hv

/-- A binary expression on integral operands runs if both do; the result is the one of the
operation on the machine's integers. -/
theorem runs_binary (op : BinaryOp) {left right : Expr} {u : FieldType}
    (hintegral : type.isIntegral = true) (ht : left.type = some t) (hu : right.type = some u)
    (hleft : (left.fragment site).Runs W Γ left)
    (hright : (right.fragment site).Runs W Γ right) :
    ((Expr.binary op left right (some type)).fragment site).Runs W Γ
      (.binary op left right (some type)) := by
  obtain ⟨hkind, -, -, hstring⟩ := FieldType.kind_of_isIntegral hintegral
  rw [Expr.fragment]
  have hvalue : (Fragment.ofValue (.binary op left right (some type))
      (binaryValue (.binary op left right (some type)) op (left.fragment site).toOperand
        (right.fragment site).toOperand
        ((left.fragment site).pieces ++ [(right.fragment site).toOperand]))).Runs W Γ
        (.binary op left right (some type)) := by
    refine Fragment.runs_ofValue rfl fun S he => ?_
    obtain ⟨⟨v, σ₁⟩, hv, he⟩ := Option.bind_eq_some_iff.1 he
    obtain ⟨⟨w, σ₂⟩, hw, he⟩ := Option.bind_eq_some_iff.1 he
    obtain ⟨new, hnew, he⟩ := Option.bind_eq_some_iff.1 he
    cases he
    have htype : (Expr.binary op left right (some type)).type = some type := rfl
    simp only [binaryValue, typeOf_of_some htype, pure_bind, hstring, and_false, if_false,
      converted_eq (type_source site ht) hintegral, converted_eq (type_source site hu) hintegral,
      hkind]
    exact (hleft.value S hv).bind fun _ => (hright.value _ hw).bind fun _ => goes_operate _ hnew
  exact ⟨hvalue.value, hvalue.effect, hvalue.jump⟩

/-- A comparison of integral operands runs if both do, as a branch on the sign of their
order. -/
theorem runs_compare (op : CompareOp) {left right : Expr} {u : FieldType}
    (ht : left.type = some t) (htintegral : t.isIntegral = true) (hu : right.type = some u)
    (huintegral : u.isIntegral = true) (hleft : (left.fragment site).Runs W Γ left)
    (hright : (right.fragment site).Runs W Γ right) :
    ((Expr.compare op left right (some type)).fragment site).Runs W Γ
      (.compare op left right (some type)) := by
  have heval : ∀ {σ σ'' : Store} {x : Value},
      (Expr.compare op left right (some type)).eval σ = some (x, σ'') →
        ∃ v σ' w b, left.eval σ = some (v, σ') ∧ right.eval σ' = some (w, σ'') ∧
          op.apply v w = some b ∧ x = .bool b := by
    intro σ σ'' x he
    obtain ⟨⟨v, σ₁⟩, hv, he⟩ := Option.bind_eq_some_iff.1 he
    obtain ⟨⟨w, σ₂⟩, hw, he⟩ := Option.bind_eq_some_iff.1 he
    obtain ⟨b, hb, he⟩ := Option.bind_eq_some_iff.1 he
    cases he
    exact ⟨v, σ₁, w, b, hv, hw, hb, rfl⟩
  rw [Expr.fragment]
  refine Fragment.runs_ofJump rfl (fun he => ?_) fun S outcome target he => ?_
  · obtain ⟨_, _, _, b, -, -, -, rfl⟩ := heval he
    exact ⟨b, rfl⟩
  · obtain ⟨v, σ', w, b, hv, hw, hb, hbool⟩ := heval he
    cases hbool
    refine goes_jumpCompare _ (type_source site ht) htintegral (type_source site hu) huintegral
      (hleft.value S hv) ?_ (hright.value _ hw) hb outcome target
    rw [Expr.source_fragment]
    exact hw

/-- A logical operation runs if both operands do, the second only if the first does not
settle it. -/
theorem runs_logical (op : LogicalOp) {left right : Expr}
    (hleft : (left.fragment site).Runs W Γ left)
    (hright : (right.fragment site).Runs W Γ right) :
    ((Expr.logical op left right (some type)).fragment site).Runs W Γ
      (.logical op left right (some type)) := by
  have heval : ∀ {σ σ'' : Store} {x : Value},
      (Expr.logical op left right (some type)).eval σ = some (x, σ'') →
        ∃ b σ' c, left.eval σ = some (.bool b, σ') ∧ x = .bool c ∧
          ((b = op.decisive ∧ c = b ∧ σ'' = σ') ∨
            (b ≠ op.decisive ∧ right.eval σ' = some (.bool c, σ''))) := by
    intro σ σ'' x he
    obtain ⟨⟨v, σ'⟩, hv, he⟩ := Option.bind_eq_some_iff.1 he
    obtain ⟨b, hb, he⟩ := Option.bind_eq_some_iff.1 he
    cases v with
    | int n => cases hb
    | bool b' =>
      cases hb
      change (if b = op.decisive then some (Value.bool b, σ') else _) = _ at he
      by_cases hdecisive : b = op.decisive
      · rw [if_pos hdecisive] at he
        cases he
        exact ⟨b, _, b, hv, rfl, .inl ⟨hdecisive, rfl, rfl⟩⟩
      · rw [if_neg hdecisive] at he
        obtain ⟨⟨w, σ₂⟩, hw, he⟩ := Option.bind_eq_some_iff.1 he
        obtain ⟨c, hc, he⟩ := Option.bind_eq_some_iff.1 he
        cases he
        cases w with
        | int n => cases hc
        | bool c' =>
          cases hc
          exact ⟨b, σ', c, hv, rfl, .inr ⟨hdecisive, hw⟩⟩
  rw [Expr.fragment]
  refine Fragment.runs_ofJump rfl (fun he => ?_) fun S outcome target he => ?_
  · obtain ⟨_, _, c, -, rfl, -⟩ := heval he
    exact ⟨c, rfl⟩
  · obtain ⟨b, σ', c, hb, hbool, hcases⟩ := heval he
    cases hbool
    have hjump := fun outcome target => hleft.jump S outcome target hb
    rcases hcases with ⟨hdecisive, rfl, rfl⟩ | ⟨hdecisive, hc⟩
    · exact goes_jumpLogical_left hjump hdecisive (right.emits site).jump outcome target
    · exact goes_jumpLogical_right hjump hdecisive (fun o l => hright.jump S o l hc) outcome target

/-- A conditional expression runs if its condition and both branches do; only one of them is
run. -/
theorem runs_conditional {condition thenValue elseValue : Expr} {u : FieldType}
    (hintegral : type.isIntegral = true) (ht : thenValue.type = some t)
    (hu : elseValue.type = some u)
    (hcondition : (condition.fragment site).Runs W Γ condition)
    (hthen : (thenValue.fragment site).Runs W Γ thenValue)
    (helse : (elseValue.fragment site).Runs W Γ elseValue) :
    ((Expr.conditional condition thenValue elseValue (some type)).fragment site).Runs W Γ
      (.conditional condition thenValue elseValue (some type)) := by
  rw [Expr.fragment]
  refine Fragment.runs_ofValue rfl fun S he => ?_
  obtain ⟨⟨x, σ'⟩, hx, he⟩ := Option.bind_eq_some_iff.1 he
  obtain ⟨b, hb, he⟩ := Option.bind_eq_some_iff.1 he
  cases x with
  | int n => cases hb
  | bool b' =>
    cases hb
    refine goes_conditionalValue rfl hintegral (type_source site ht) (type_source site hu)
      (thenValue.emits site).value (elseValue.emits site).value
      (fun outcome target => hcondition.jump S outcome target hx) ?_
    cases b with
    | true => exact hthen.value S he
    | false => exact helse.value S he

variable (hΓ : ∀ entry ∈ Γ, entry.2.isIntegral = true)

include hΓ

/-- A declared variable runs: its value is what its slot holds. -/
theorem runs_var {id : LocalId} (hid : Γ.declares id = true) :
    ((Expr.var id (some t)).fragment site).Runs W Γ (.var id (some t)) := by
  rw [Expr.fragment]
  obtain ⟨n, declared, hn⟩ := Context.exists_of_declares hid
  have hvalue : (Fragment.ofValue (.var id (some t)) (loadVar id)).Runs W Γ
      (.var id (some t)) := by
    refine Fragment.runs_ofValue rfl fun S he => ?_
    obtain ⟨v, hv, he⟩ := Option.bind_eq_some_iff.1 he
    cases he
    exact goes_loadVar hn (hΓ _ (List.mem_of_getElem? hn)) hv
  exact ⟨hvalue.value, hvalue.effect, hvalue.jump⟩

/-- What is needed to change a local. -/
theorem place_of_variable (site : Site) {target : Expr} {id : LocalId}
    (hid : target.variable? = some id) (h : target.isIntegral Γ = true) :
    ∃ (n : Nat) (declared type : FieldType), Γ[n]? = some (id, declared) ∧
      declared.isIntegral = true ∧ (target.fragment site).source.type = some type ∧
      type.isIntegral = true ∧ (target.fragment site).place = some (.slot id) := by
  obtain ⟨type, htype, hintegral⟩ := target.type_of_isIntegral h
  cases target with
  | var id' t =>
    cases hid
    rw [Expr.isIntegral, Bool.and_eq_true] at h
    obtain ⟨n, declared, hn⟩ := Context.exists_of_declares h.2
    refine ⟨n, declared, type, hn, hΓ _ (List.mem_of_getElem? hn), ?_, hintegral, ?_⟩
    · rw [Expr.source_fragment, htype]
    · rw [Expr.fragment]
      rfl
  | _ => cases hid

theorem runs_assign {target value : Expr} (htarget : target.isIntegral Γ = true)
    (ht : value.type = some t) (hvalue : (value.fragment site).Runs W Γ value) :
    ((Expr.assign target value (some type)).fragment site).Runs W Γ
      (.assign target value (some type)) := by
  rw [Expr.fragment]
  refine Fragment.runs_ofUpdate rfl fun S wanted he => ?_
  obtain ⟨id, hid, he⟩ := Option.bind_eq_some_iff.1 he
  obtain ⟨⟨v, σ⟩, hv, he⟩ := Option.bind_eq_some_iff.1 he
  cases he
  obtain ⟨n, declared, type, hn, hdeclared, htype, hintegral, hplace⟩ :=
    place_of_variable hΓ site hid htarget
  exact goes_assign hn hdeclared htype hintegral hplace (type_source site ht) (hvalue.value S hv)
    wanted

theorem runs_compound (op : BinaryOp) {target value : Expr} (htarget : target.isIntegral Γ = true)
    (ht : value.type = some t) (hintegral : t.isIntegral = true)
    (hvalue : (value.fragment site).Runs W Γ value) :
    ((Expr.compound op target value (some type)).fragment site).Runs W Γ
      (.compound op target value (some type)) := by
  rw [Expr.fragment]
  refine Fragment.runs_ofUpdate rfl fun S wanted he => ?_
  obtain ⟨id, hid, he⟩ := Option.bind_eq_some_iff.1 he
  obtain ⟨old, hold, he⟩ := Option.bind_eq_some_iff.1 he
  obtain ⟨⟨v, σ⟩, hv, he⟩ := Option.bind_eq_some_iff.1 he
  obtain ⟨new, hnew, he⟩ := Option.bind_eq_some_iff.1 he
  cases he
  obtain ⟨n, declared, type, hn, hdeclared, htype, hintegral', hplace⟩ :=
    place_of_variable hΓ site hid htarget
  refine goes_compound hn hdeclared htype hintegral' hplace (type_source site ht) hintegral hold
    ?_ hnew (hvalue.value _ hv) wanted
  rw [Expr.source_fragment]
  exact hv

theorem runs_increment {target : Expr} (decrement inFront : Bool)
    (htarget : target.isIntegral Γ = true) :
    ((Expr.increment target decrement inFront (some type)).fragment site).Runs W Γ
      (.increment target decrement inFront (some type)) := by
  rw [Expr.fragment]
  refine Fragment.runs_ofUpdate rfl fun S wanted he => ?_
  obtain ⟨id, hid, he⟩ := Option.bind_eq_some_iff.1 he
  obtain ⟨old, hold, he⟩ := Option.bind_eq_some_iff.1 he
  obtain ⟨new, hnew, he⟩ := Option.bind_eq_some_iff.1 he
  cases he
  obtain ⟨n, declared, type, hn, hdeclared, htype, hintegral, hplace⟩ :=
    place_of_variable hΓ site hid htarget
  exact goes_incremented hn hdeclared htype hintegral hplace hold hnew inFront wanted

/-- **The code of an expression over integers and truth values does what the
expression means.** -/
theorem runs (e : Expr) (h : e.isIntegral Γ = true) : (e.fragment site).Runs W Γ e := by
  obtain ⟨type, htype, hintegral⟩ := e.type_of_isIntegral h
  match e with
  | .int value t =>
    cases htype
    rw [Expr.fragment]
    refine Fragment.runs_ofValue rfl fun S he => ?_
    cases he
    exact goes_pushInt value
  | .boolean value t =>
    cases htype
    exact runs_boolean value
  | .var id t =>
    cases htype
    rw [Expr.isIntegral, Bool.and_eq_true] at h
    exact runs_var hΓ h.2
  | .assign target value t =>
    cases htype
    simp only [Expr.isIntegral, Bool.and_eq_true] at h
    obtain ⟨u, hu, -⟩ := value.type_of_isIntegral h.2.2
    exact runs_assign hΓ h.2.1.2 hu (runs value h.2.2)
  | .compound op target value t =>
    cases htype
    simp only [Expr.isIntegral, Bool.and_eq_true] at h
    obtain ⟨u, hu, huintegral⟩ := value.type_of_isIntegral h.2.2
    exact runs_compound hΓ op h.2.1.2 hu huintegral (runs value h.2.2)
  | .increment target decrement inFront t =>
    cases htype
    simp only [Expr.isIntegral, Bool.and_eq_true] at h
    exact runs_increment hΓ decrement inFront h.2.2
  | .unary op operand t =>
    cases htype
    simp only [Expr.isIntegral, Bool.and_eq_true] at h
    obtain ⟨u, hu, huintegral⟩ := operand.type_of_isIntegral h.2
    exact runs_unary op hu huintegral (runs operand h.2)
  | .binary op left right t =>
    cases htype
    simp only [Expr.isIntegral, Bool.and_eq_true] at h
    obtain ⟨u, hu, -⟩ := left.type_of_isIntegral h.2.1
    obtain ⟨w, hw, -⟩ := right.type_of_isIntegral h.2.2
    exact runs_binary op hintegral hu hw (runs left h.2.1) (runs right h.2.2)
  | .compare op left right t =>
    cases htype
    simp only [Expr.isIntegral, Bool.and_eq_true] at h
    obtain ⟨u, hu, huintegral⟩ := left.type_of_isIntegral h.2.1
    obtain ⟨w, hw, hwintegral⟩ := right.type_of_isIntegral h.2.2
    exact runs_compare op hu huintegral hw hwintegral (runs left h.2.1) (runs right h.2.2)
  | .logical op left right t =>
    cases htype
    simp only [Expr.isIntegral, Bool.and_eq_true] at h
    exact runs_logical op (runs left h.2.1) (runs right h.2.2)
  | .conditional condition thenValue elseValue t =>
    cases htype
    simp only [Expr.isIntegral, Bool.and_eq_true] at h
    obtain ⟨u, hu, -⟩ := thenValue.type_of_isIntegral h.2.1.2
    obtain ⟨w, hw, -⟩ := elseValue.type_of_isIntegral h.2.2
    exact runs_conditional hintegral hu hw (runs condition h.2.1.1) (runs thenValue h.2.1.2)
      (runs elseValue h.2.2)
  | .float .. | .string .. | .null .. | .this .. | .staticField .. | .field .. | .element ..
  | .length .. | .call .. | .new .. | .newArray .. | .arrayOf .. | .cast .. | .instanceOf .. =>
    simp [Expr.isIntegral] at h

end Expr
end ClassForge
