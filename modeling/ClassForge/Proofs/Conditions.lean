/-
# Conditions jump just when they should

Specification, section 4.6: short-circuit operators and comparisons.

A condition is put together from constants, `!`, `&&`, `||`, comparisons and other
expressions with a truth value.  Its code goes to a label if the condition has a given
outcome, and else goes on.

The code of operands is not looked into: it pushes one value.  It may do other things too,
and its value may depend on what was done before (`Evaluation`).  If the state beside the
stack is a log, the log says which operands were evaluated and which tests were made, and
in what order.

| | |
| --- | --- |
| `Evaluation.holds` | whether a condition holds, from left to right and no further than needed |
| `Evaluation.Pushes` | what is expected of the code of an operand |
| `Expr.Condition` | conditions over such operands |

The code of a condition does what its evaluation says (`Expr.Condition.follows`), and so
does the code for its value (`Expr.Condition.follows_outcomeValue`).
-/

import ClassForge.Proofs.InstructionSafety
import ClassForge.Proofs.MethodRun
import ClassForge.Proofs.Processor

namespace ClassForge

/-! ### What conditions mean -/

/-- The value of an operand, and what is there beside the stack after it. -/
abbrev Evaluation (R : Type) := Expr → R → Datum × R

namespace Evaluation

variable {R : Type}

/-- Literals stand for themselves. -/
def operand (E : Evaluation R) (x : Expr) (r : R) : Datum × R :=
  match x with
  | .int value _ => (.int value, r)
  | .float value _ => (.float value, r)
  | .boolean value _ => (.int (if value then 1 else 0), r)
  | .null _ => (.ref none, r)
  | _ => E x r

theorem operand_of_isZero (E : Evaluation R) {x : Expr} (h : x.isZero = true) (r : R) :
    E.operand x r = (.int 0, r) := by
  cases x with
  | int value t =>
    obtain rfl : value = 0 := of_decide_eq_true h
    rfl
  | boolean value t =>
    cases value with
    | true => cases h
    | false => rfl
  | _ => cases h

theorem operand_of_isNull (E : Evaluation R) {x : Expr} (h : x.isNull = true) (r : R) :
    E.operand x r = (.ref none, r) := by
  cases x with
  | null => rfl
  | _ => cases h

/-- Does a comparison hold? -/
def compares (E : Evaluation R) (p : Processor R) (op : CompareOp) (x y : Expr) (r : R) :
    Bool × R :=
  let (v, r) := E.operand x r
  let (w, r) := E.operand y r
  (op.accepts (v.order p.round w), p.test r)

/-- **Does a condition hold?**  The right operand of `&&` and `||` is left alone if the left
one decides. -/
def holds (E : Evaluation R) (p : Processor R) (e : Expr) (r : R) : Bool × R :=
  match e with
  | .boolean value _ => (value, r)
  | .unary .not operand _ => (E.holds p operand r).map (!·) id
  | .logical op left right _ =>
    let (b, r) := E.holds p left r
    if b = op.decisive then (b, r) else E.holds p right r
  | .compare op left right _ => E.compares p op left right r
  | e =>
    let (v, r) := E.operand e r
    (v ≠ .int 0, p.test r)

/-- The code of an operand pushes its value.  For the literals `0`, `false` and `null` this
goes without saying. -/
structure Pushes (E : Evaluation R) (p : Processor R) (W : Whole) (site : Site)
    (slots : LocalSlots) (x : Expr) : Prop where
  kind : ∀ (t : FieldType) (r : R), x.type = some t → (E.operand x r).1.kind = t.kind
  runs : x.isZero = false → x.isNull = false →
    ∀ (S : List Datum) (r : R) (a b : Assembler) (slots' : LocalSlots),
      (x.fragment site).value slots a = .ok ((), slots') b → b.Grows W.assembler →
      a.isReachable = true → b.isReachable = true ∧
        p.Crosses W a b ⟨S, r⟩ b.instructions.size ⟨(E.operand x r).1 :: S, (E.operand x r).2⟩

end Evaluation

namespace Expr

/-- Is the expression only good for its value when it is a condition? -/
def isLeaf : Expr → Bool
  | .boolean .. | .unary .not .. | .logical .. | .compare .. => false
  | _ => true

/-- **Conditions** over operands with some property.  References are compared with
references, and numbers with numbers. -/
inductive Condition (box : Expr → Prop) : Expr → Prop where
  | constant (value : Bool) (t : Option FieldType) : Condition box (.boolean value t)
  | not {e : Expr} (h : Condition box e) (t : Option FieldType) :
    Condition box (.unary .not e t)
  | logical (op : LogicalOp) {left right : Expr} (hleft : Condition box left)
    (hright : Condition box right) (t : Option FieldType) :
    Condition box (.logical op left right t)
  | compare (op : CompareOp) {left right : Expr} {l r : FieldType} (hl : left.type = some l)
    (hr : right.type = some r) (hkind : l.kind = .reference ↔ r.kind = .reference)
    (hleft : box left) (hright : box right) (t : Option FieldType) :
    Condition box (.compare op left right t)
  | leaf {e : Expr} {t : FieldType} (hleaf : e.isLeaf = true) (ht : e.type = some t)
    (hkind : t.kind = .int) (h : box e) : Condition box e

variable {e : Expr}

theorem jump_of_isLeaf (site : Site) (h : e.isLeaf = true) :
    (e.fragment site).jump = Lowering.jumpOn (e.fragment site).value := by
  cases e with
  | boolean | logical | compare => cases h
  | unary op operand t =>
    cases op with
    | not => cases h
    | negate | bitNot => rw [Expr.fragment]; rfl
  | _ => rw [Expr.fragment]; rfl

/-- The code of a zero is one instruction. -/
theorem value_of_isZero (site : Site) (h : e.isZero = true) :
    (e.fragment site).value = Lowering.emit (Assembler.simple .iconst0) := by
  cases e with
  | int value t =>
    obtain rfl : value = 0 := of_decide_eq_true h
    rw [Expr.fragment]
    rfl
  | boolean value t =>
    cases value with
    | true => cases h
    | false =>
      rw [Expr.fragment]
      rfl
  | _ => cases h

/-- The code of no object is one instruction. -/
theorem value_of_isNull (site : Site) (h : e.isNull = true) :
    (e.fragment site).value = Lowering.emit (Assembler.simple .aconstNull) := by
  cases e with
  | null =>
    rw [Expr.fragment]
    rfl
  | _ => cases h

theorem holds_of_isLeaf {R : Type} (E : Evaluation R) (p : Processor R) (h : e.isLeaf = true)
    (r : R) :
    E.holds p e r = (decide ((E.operand e r).1 ≠ .int 0), p.test (E.operand e r).2) := by
  cases e with
  | boolean | logical | compare => cases h
  | unary op operand t =>
    cases op with
    | not => cases h
    | negate | bitNot => rfl
  | _ => rfl

end Expr

/-! ### The code of conditions -/

/-- The branch of a comparison, or the opposite branch. -/
def Lowering.branchOn (e : Expr) (outcome : Bool) (target : Label) (taken : Opcode) :
    Lowering Unit :=
  if outcome then emit (Assembler.branch taken target)
  else
    match taken.negate with
    | some opposite => emit (Assembler.branch opposite target)
    | none => unsupported e

section Code

open Lowering Processor

variable {R : Type} {p : Processor R} {E : Evaluation R} {W : Whole} {site : Site}
  {slots : LocalSlots} {x y : Expr} {t u : FieldType} {S S' : List Datum} {r : R}

section Operands

variable {v : Datum} {r' : R} (h : E.Pushes p W site slots x) (hv : E.operand x r = (v, r'))

include h hv

theorem Evaluation.Pushes.kind_eq (ht : x.type = some t) : v.kind = t.kind := by
  have hkind := h.kind t r ht
  rw [hv] at hkind
  exact hkind

/-- An operand is pushed. -/
theorem Evaluation.Pushes.follows (S : List Datum) :
    p.Follows W slots (x.fragment site).value (.here ⟨S, r⟩) (.here ⟨v :: S, r'⟩) := by
  by_cases hzero : x.isZero = true
  · cases hv.symm.trans (E.operand_of_isZero hzero r)
    rw [Expr.value_of_isZero site hzero]
    exact follows_simple rfl r
  · by_cases hnull : x.isNull = true
    · cases hv.symm.trans (E.operand_of_isNull hnull r)
      rw [Expr.value_of_isNull site hnull]
      exact follows_simple rfl r
    · -- only here the promise is needed
      refine ⟨(x.emits site).value, fun c a _ b hrun hgrows ha => ?_⟩
      obtain ⟨hle, hreach, hsteps⟩ := ha
      obtain ⟨hreach', hpushes⟩ := h.runs (eq_false_of_ne_true hzero) (eq_false_of_ne_true hnull)
        S r a b slots hrun hgrows hreach
      rw [hv] at hpushes
      have hsize := ((x.emits site).value _ _ _ _ _ hrun).1.built.grows.size_le
      exact ⟨Nat.le_trans hle hsize, hreach',
        (hsteps.mono Nat.le.refl hsize).trans (hpushes.mono hle Nat.le.refl)⟩

/-- A number is pushed as a floating point number. -/
theorem Evaluation.Pushes.follows_converted (ht : x.type = some t) (S : List Datum) :
    p.Follows W slots ((x.fragment site).toOperand.converted .float) (.here ⟨S, r⟩)
      (.here ⟨v.rounded p.round :: S, r'⟩) := by
  have hkind := h.kind_eq hv ht
  unfold Operand.converted
  refine (h.follows hv S).bind fun _ => ?_
  rw [typeOf_of_some (Expr.type_source site ht), pure_bind]
  split
  · rename_i hint
    obtain ⟨n, rfl⟩ := Datum.eq_int (hkind.trans hint.1)
    exact follows_simple rfl r'
  · rename_i hint
    cases v with
    | int n => exact absurd ⟨hkind.symm, rfl⟩ hint
    | float | ref => exact follows_pure ()

end Operands

/-- The branch of a comparison, with its operands on the stack. -/
theorem follows_branchOn (e : Expr) {taken : Opcode} {b : Bool}
    (h : branch? taken S' = some (b, S)) (outcome : Bool) (target : Label) (r : R) :
    p.Follows W slots (branchOn e outcome target taken) (.here ⟨S', r⟩)
      (.decided outcome target S (b, p.test r)) := by
  unfold branchOn Spot.decided
  cases outcome with
  | true =>
    rw [beq_true]
    exact follows_branch h target r
  | false =>
    rw [beq_false]
    obtain ⟨opposite, hopposite⟩ := negate_of_branch? h
    simp only [hopposite]
    exact follows_branch (Processor.branch?_negate hopposite h) target r

section Compare

variable {v w : Datum} {r₁ r₂ : R} (e : Expr) (op : CompareOp)
  (hx : E.Pushes p W site slots x) (hv : E.operand x r = (v, r₁)) (ht : x.type = some t)
  (hy : E.Pushes p W site slots y) (hw : E.operand y r₁ = (w, r₂)) (hu : y.type = some u)
  (S : List Datum) (outcome : Bool) (target : Label)

include hx hv ht hy hw hu

/-- A comparison of integers.  Zero on the right is not pushed. -/
theorem follows_compareInts (htkind : t.kind = .int) (hukind : u.kind = .int) :
    p.Follows W slots
      ((do
        (x.fragment site).value
        if y.isZero then return zeroBranch op
        else
          (y.fragment site).value
          return intBranch op) >>= branchOn e outcome target)
      (.here ⟨S, r⟩)
      (.decided outcome target S (op.accepts (v.order p.round w), p.test r₂)) := by
  obtain ⟨a, rfl⟩ := Datum.eq_int ((hx.kind_eq hv ht).trans htkind)
  obtain ⟨b, rfl⟩ := Datum.eq_int ((hy.kind_eq hw hu).trans hukind)
  rw [bind_assoc]
  refine (hx.follows hv S).bind fun _ => ?_
  split
  · rename_i hzero
    cases hw.symm.trans (E.operand_of_isZero hzero r₁)
    rw [pure_bind]
    exact follows_branchOn e (Processor.branch?_zeroBranch op a S) outcome target r₁
  · simp only [bind_assoc, pure_bind]
    exact (hy.follows hw _).bind fun _ =>
      follows_branchOn e (Processor.branch?_intBranch op a b S) outcome target r₂

/-- A comparison of numbers of which one is a floating point number. -/
theorem follows_compareFloats (htkind : t.kind ≠ .reference) (hukind : u.kind ≠ .reference)
    (hfloat : t.kind = .float ∨ u.kind = .float) :
    p.Follows W slots
      ((do
        (x.fragment site).toOperand.converted .float
        (y.fragment site).toOperand.converted .float
        emit (Assembler.simple (floatCompare op))
        return zeroBranch op) >>= branchOn e outcome target)
      (.here ⟨S, r⟩)
      (.decided outcome target S (op.accepts (v.order p.round w), p.test r₂)) := by
  have hvkind := hx.kind_eq hv ht
  have hwkind := hy.kind_eq hw hu
  rw [← hvkind] at htkind hfloat
  rw [← hwkind] at hukind hfloat
  obtain ⟨a, ha⟩ := Datum.rounded_eq_float p.round htkind
  obtain ⟨b, hb⟩ := Datum.rounded_eq_float p.round hukind
  rw [Datum.order_of_rounded ha hb hfloat]
  simp only [bind_assoc, pure_bind]
  refine (hx.follows_converted hv ht S).bind fun _ =>
    (hy.follows_converted hw hu _).bind fun _ => ?_
  rw [ha, hb]
  obtain ⟨n, hwork, hbranch⟩ := branch?_zeroBranch_ordering op a b S
  exact (follows_simple hwork r₂).bind fun _ => follows_branchOn e hbranch outcome target r₂

/-- A comparison of references.  `null` is not pushed if the other operand is. -/
theorem follows_compareReferences (htkind : t.kind = .reference) (hukind : u.kind = .reference) :
    p.Follows W slots
      (compareReferences e op (x.fragment site).toOperand (y.fragment site).toOperand >>=
        branchOn e outcome target)
      (.here ⟨S, r⟩)
      (.decided outcome target S (op.accepts (v.order p.round w), p.test r₂)) := by
  obtain ⟨a, rfl⟩ := Datum.eq_ref ((hx.kind_eq hv ht).trans htkind)
  obtain ⟨b, rfl⟩ := Datum.eq_ref ((hy.kind_eq hw hu).trans hukind)
  by_cases hop : op = .eq ∨ op = .ne
  · rw [compareReferences_eq e hop]
    unfold nullChecked
    rw [Expr.source_fragment, Expr.source_fragment]
    by_cases hynull : y.isNull = true
    · rw [if_pos hynull]
      cases hw.symm.trans (E.operand_of_isNull hynull r₁)
      simp only [bind_assoc, pure_bind]
      exact (hx.follows hv S).bind fun _ =>
        follows_branchOn e (branch?_nullBranch hop a S).1 outcome target r₁
    · rw [if_neg hynull]
      by_cases hxnull : x.isNull = true
      · rw [if_pos hxnull]
        cases hv.symm.trans (E.operand_of_isNull hxnull r)
        simp only [bind_assoc, pure_bind]
        exact (hy.follows hw S).bind fun _ =>
          follows_branchOn e (branch?_nullBranch hop b S).2 outcome target r₂
      · rw [if_neg hxnull]
        simp only [bind_assoc, pure_bind]
        exact (hx.follows hv S).bind fun _ => (hy.follows hw _).bind fun _ =>
          follows_branchOn e (branch?_referenceBranch hop a b S) outcome target r₂
  · -- references have no order, so there is no code to run
    refine follows_never fun slots a v slots' b hrun => ?_
    cases op with
    | eq => exact hop (.inl rfl)
    | ne => exact hop (.inr rfl)
    | _ => cases hrun

/-- **A branch on a comparison.** Operands are evaluated from left to right, and the branch
is taken just if the comparison holds of their values; zero and no object are compared
without being pushed. -/
theorem follows_jumpCompare (hkind : t.kind = .reference ↔ u.kind = .reference) :
    p.Follows W slots
      (jumpCompare e op (x.fragment site).toOperand (y.fragment site).toOperand outcome target)
      (.here ⟨S, r⟩)
      (.decided outcome target S (op.accepts (v.order p.round w), p.test r₂)) := by
  have hints := follows_compareInts e op hx hv ht hy hw hu S outcome target
  have hfloats := follows_compareFloats e op hx hv ht hy hw hu S outcome target
  have hreferences := follows_compareReferences e op hx hv ht hy hw hu S outcome target
  change p.Follows W slots (compareOperands e op _ _ >>= branchOn e outcome target) _ _
  simp only [compareOperands, typeOf_of_some (Expr.type_source site ht),
    typeOf_of_some (Expr.type_source site hu), pure_bind]
  cases htkind : t.kind with
  | int =>
    cases hukind : u.kind with
    | int =>
      rw [Expr.source_fragment]
      exact hints htkind hukind
    | float => exact hfloats (by rw [htkind]; decide) (by rw [hukind]; decide) (.inr hukind)
    | reference => cases htkind.symm.trans (hkind.2 hukind)
  | float =>
    -- the other operand may be of either kind of number
    have htref : t.kind ≠ .reference := by
      rw [htkind]
      decide
    exact hfloats htref (mt hkind.2 htref) (.inl htkind)
  | reference =>
    have hukind := hkind.1 htkind
    rw [hukind]
    exact hreferences htkind hukind

end Compare

section Logical

variable {op : LogicalOp} {left right : Jump} {b : Bool} {r' : R}
  (hleft : ∀ outcome target, p.Follows W slots (left outcome target) (.here ⟨S, r⟩)
    (.decided outcome target S (b, r')))

include hleft

/-- The left operand decides. -/
theorem follows_jumpLogical_left (hb : b = op.decisive)
    (hright : ∀ outcome target, (right outcome target).Emits) (outcome : Bool) (target : Label) :
    p.Follows W slots (jumpLogical op left right outcome target) (.here ⟨S, r⟩)
      (.decided outcome target S (b, r')) := by
  subst hb
  have hjump := hleft op.decisive
  unfold Spot.decided at hjump ⊢
  rw [beq_self_eq_true] at hjump
  by_cases houtcome : outcome = op.decisive
  · subst houtcome
    rw [jumpLogical_decisive, beq_self_eq_true]
    exact (hjump target).bind fun _ => follows_past (hright _ target)
  · obtain rfl := Bool.eq_not.2 houtcome
    rw [jumpLogical_not_decisive, Bool.beq_not_self]
    exact follows_freshLabel.bind fun skip => (hjump skip).bind fun _ =>
      (follows_past (hright _ target)).bind fun _ => follows_arrive skip _

/-- The right operand decides. -/
theorem follows_jumpLogical_right (hb : b ≠ op.decisive) {result : Bool × R}
    (hright : ∀ outcome target, p.Follows W slots (right outcome target) (.here ⟨S, r'⟩)
      (.decided outcome target S result)) (outcome : Bool) (target : Label) :
    p.Follows W slots (jumpLogical op left right outcome target) (.here ⟨S, r⟩)
      (.decided outcome target S result) := by
  have hfall := hleft op.decisive
  unfold Spot.decided at hfall
  rw [beq_false_of_ne hb] at hfall
  by_cases houtcome : outcome = op.decisive
  · subst houtcome
    rw [jumpLogical_decisive]
    exact (hfall target).bind fun _ => hright _ target
  · obtain rfl := Bool.eq_not.2 houtcome
    rw [jumpLogical_not_decisive]
    exact follows_freshLabel.bind fun skip => (hfall skip).bind fun _ =>
      (hright _ target).bind fun _ => follows_place skip

end Logical

/-- A branch on an operand. -/
theorem Evaluation.Pushes.follows_jumpOn {v : Datum} {r' : R} (h : E.Pushes p W site slots x)
    (hv : E.operand x r = (v, r')) (ht : x.type = some t) (hkind : t.kind = .int)
    (S : List Datum) (outcome : Bool) (target : Label) :
    p.Follows W slots (jumpOn (x.fragment site).value outcome target) (.here ⟨S, r⟩)
      (.decided outcome target S (decide (v ≠ .int 0), p.test r')) := by
  obtain ⟨n, rfl⟩ := Datum.eq_int ((h.kind_eq hv ht).trans hkind)
  refine (h.follows hv S).bind fun _ => follows_branch ?_ target r'
  cases outcome <;> by_cases hn : n = 0 <;> simp [branch?, hn]

/-! ### Conditions -/

/-- **The code of a condition does what its evaluation says.** The induction is on the
condition: comparisons and leaves evaluate their operands once, and a logical operation its
second one only if the first does not settle it. -/
theorem Expr.Condition.follows {e : Expr} (h : e.Condition (E.Pushes p W site slots))
    (S : List Datum) (r : R) (outcome : Bool) (target : Label) :
    p.Follows W slots ((e.fragment site).jump outcome target) (.here ⟨S, r⟩)
      (.decided outcome target S (E.holds p e r)) := by
  induction h generalizing r outcome target with
  | constant value t =>
    rw [Expr.fragment]
    change p.Follows W slots (if value = outcome then _ else _) _ _
    by_cases houtcome : value = outcome
    · rw [if_pos houtcome, houtcome]
      unfold Spot.decided Evaluation.holds
      rw [beq_self_eq_true]
      exact follows_goto target _
    · rw [if_neg houtcome]
      unfold Spot.decided Evaluation.holds
      rw [beq_false_of_ne houtcome]
      exact follows_pure ()
  | not h t ih =>
    rw [Expr.fragment]
    have hswap : ∀ b : Bool, (b == !outcome) = ((!b) == outcome) := by
      cases outcome <;> decide
    have hjump := ih r (!outcome) target
    unfold Spot.decided at hjump ⊢
    rw [hswap] at hjump
    exact hjump
  | @logical op left right hleft hright t ihleft ihright =>
    rw [Expr.fragment, Evaluation.holds]
    have hjump := ihleft r
    generalize E.holds p left r = result at hjump ⊢
    obtain ⟨b, r'⟩ := result
    by_cases hb : b = op.decisive
    · dsimp only
      rw [if_pos hb]
      exact follows_jumpLogical_left hjump hb (right.emits site).jump outcome target
    · dsimp only
      rw [if_neg hb]
      exact follows_jumpLogical_right hjump hb (ihright r') outcome target
  | compare op hl hr hkind hleft hright t =>
    rw [Expr.fragment]
    exact follows_jumpCompare _ op hleft rfl hl hright rfl hr S outcome target hkind
  | leaf hleaf ht hkind h =>
    rw [Expr.jump_of_isLeaf site hleaf, Expr.holds_of_isLeaf E p hleaf]
    exact h.follows_jumpOn rfl ht hkind S outcome target

/-- The outcome of a condition is pushed. -/
theorem Expr.Condition.follows_outcomeValue {e : Expr}
    (h : e.Condition (E.Pushes p W site slots)) (S : List Datum) (r : R) :
    p.Follows W slots (outcomeValue (e.fragment site).jump) (.here ⟨S, r⟩)
      (.here ⟨.int (if (E.holds p e r).1 then 1 else 0) :: S, (E.holds p e r).2⟩) := by
  have hjump := h.follows S r false
  generalize E.holds p e r = result at hjump ⊢
  obtain ⟨b, r'⟩ := result
  have hzero : work? p.round .iconst0 S = some (.int 0 :: S) := rfl
  have hone : work? p.round .iconst1 S = some (.int 1 :: S) := rfl
  refine follows_freshLabel.bind fun falseLabel => follows_freshLabel.bind fun endLabel =>
    (hjump falseLabel).bind fun _ => ?_
  cases b with
  | true =>
    refine (follows_simple hone r').bind fun _ => (follows_goto endLabel _).bind fun _ =>
      (follows_place falseLabel).bind fun _ => ?_
    exact (follows_past (emits_emit (.common (.pushInt 0)))).bind fun _ =>
      follows_arrive endLabel _
  | false =>
    refine (follows_past (emits_emit (.common (.pushInt 1)))).bind fun _ =>
      (follows_past (emits_branch rfl endLabel)).bind fun _ => ?_
    exact (follows_arrive falseLabel _).bind fun _ => (follows_simple hzero r').bind fun _ =>
      follows_place endLabel

/-- What a run does that starts with the code. -/
theorem Processor.Follows.crosses {e' : Spot R} {code : Lowering Unit} {s : State R}
    {slots' : LocalSlots} {a b : Assembler} (h : p.Follows W slots code (.here s) e')
    (hrun : code slots a = .ok ((), slots') b) (hgrows : b.Grows W.assembler)
    (ha : a.isReachable = true) : p.At W ⟨a.instructions.size, s⟩ b e' := by
  obtain ⟨-, rfl⟩ := h.emits _ _ _ _ _ hrun
  exact h.follows _ a () b hrun hgrows ⟨Nat.le.refl, ha, .refl _⟩

/-- **Conditions jump just when they should.**  From the start of the code of a condition
the processor comes to the target if the condition holds or not, as asked for, and else to
the end of the code.  What it has done then is just what the evaluation of the condition
does, and the stack is as before.  The code for the value of the condition leaves one or
zero on it. -/
theorem Evaluation.condition_runs (E : Evaluation R) (p : Processor R) (W : Whole) (site : Site)
    (slots slots' : LocalSlots) (e : Expr) (he : e.Condition (E.Pushes p W site slots))
    (a b : Assembler) (ha : a.isReachable = true) (hgrows : b.Grows W.assembler)
    (S : List Datum) (r : R) :
    (∀ (outcome : Bool) (target : Label),
      (e.fragment site).jump outcome target slots a = .ok ((), slots') b →
        if (E.holds p e r).1 = outcome then
          ∃ n, W.assembler.position target = some n ∧
            p.Crosses W a b ⟨S, r⟩ n ⟨S, (E.holds p e r).2⟩
        else
          b.isReachable = true ∧
            p.Crosses W a b ⟨S, r⟩ b.instructions.size ⟨S, (E.holds p e r).2⟩) ∧
    (outcomeValue (e.fragment site).jump slots a = .ok ((), slots') b →
      b.isReachable = true ∧ p.Crosses W a b ⟨S, r⟩ b.instructions.size
        ⟨.int (if (E.holds p e r).1 then 1 else 0) :: S, (E.holds p e r).2⟩) := by
  refine ⟨fun outcome target hrun => ?_, fun hrun => ?_⟩
  · have hat := (he.follows S r outcome target).crosses hrun hgrows ha
    unfold Spot.decided at hat
    split
    · rename_i hresult
      rw [beq_iff_eq.2 hresult] at hat
      exact hat.2.2
    · rename_i hresult
      rw [beq_false_of_ne hresult] at hat
      exact hat.2
  · exact ((he.follows_outcomeValue S r).crosses hrun hgrows ha).2

/-- A local is pushed if the processor loads it from its slot. -/
theorem Evaluation.pushes_var {id : LocalId} {slot : UInt16} {declared : FieldType}
    {load : Instruction} (hload : load = Instruction.load declared.kind slot)
    (hslot : slots.lookup? id = some (slot, declared))
    (hkind : ∀ r, (E (.var id (some t)) r).1.kind = t.kind)
    (hexec : ∀ S r, p.exec load.opcode load.wide load.operands ⟨S, r⟩ =
      some (.go ⟨(E (.var id (some t)) r).1 :: S, (E (.var id (some t)) r).2⟩)) :
    E.Pushes p W site slots (.var id (some t)) where
  kind t' r ht := by
    cases ht
    exact hkind r
  runs _ _ S r a b slots' hrun hgrows ha := by
    subst hload
    rw [Expr.fragment] at hrun
    obtain ⟨found, slots'', a', hfound, hrun⟩ := Lowering.bind_eq_ok hrun
    unfold lookup at hfound
    rw [hslot] at hfound
    cases hfound
    have hconditional :
        (Instruction.load declared.kind slot).opcode.effect.isUnconditional = false := by
      rw [(Frame.effect_load _ _).1]
      rfl
    exact ((follows_push (.common (.loadLocal slot declared)) hconditional (hexec S r)).crosses
      hrun hgrows ha).2

end Code

/-! ### A condition with a NaN -/

/-- What can be seen of the evaluation of a condition. -/
inductive Event where
  | load (slot : Nat)
  | test
deriving DecidableEq

/-- A NaN, an integer and `null`. -/
def unorderedArgument : Nat → Datum
  | 0 => .float ⟨0x7fc00000⟩
  | 1 => .int 3
  | _ => .ref none

/-- A processor that keeps a log.  It knows of one integer that it has to round. -/
def recorder : Processor (List Event) where
  round _ := ⟨0x40400000⟩
  test log := log ++ [.test]
  other op _ _ s :=
    match op with
    | .fload0 => some (.go ⟨unorderedArgument 0 :: s.stack, s.rest ++ [.load 0]⟩)
    | .iload1 => some (.go ⟨unorderedArgument 1 :: s.stack, s.rest ++ [.load 1]⟩)
    | .aload2 => some (.go ⟨unorderedArgument 2 :: s.stack, s.rest ++ [.load 2]⟩)
    | _ => none

/-- The locals have the values of the arguments. -/
def recorded : Evaluation (List Event)
  | .var id _, log => (unorderedArgument id.index, log ++ [.load id.index])
  | _, log => (.int 0, log)

/-- The condition `!(x < n) && (n == 0 || xs == null)`. -/
def unordered : Expr :=
  .logical .and
    (.unary .not (Sample.compare .lt (Sample.var 0 .float) (Sample.var 1 .int)) (some .boolean))
    (.logical .or (Sample.compare .eq (Sample.var 1 .int) (Sample.int 0))
      (Sample.compare .eq (Sample.var 2 Sample.ints) (.null (some Sample.ints))) (some .boolean))
    (some .boolean)

/-- A method in which the locals are parameters. -/
def unorderedSite : Site where
  settings := {}
  owner := Sample.counter Sample.counterName
  method :=
    { name := ⟨"unordered", by decide⟩
      flags := Sample.publicStatic
      parameters := [⟨⟨0⟩, .float⟩, ⟨⟨1⟩, .int⟩, ⟨⟨2⟩, Sample.ints⟩]
      returns := some .boolean
      body := [.returnValue (some unordered)] }

/-- Code whose labels are placed. -/
def Whole.ofPlaced (a : Assembler)
    (h : a.labels.all (fun state => !state.jumpedTo || state.placed.isSome) = true) : Whole where
  assembler := a
  constants := a.pool.integers
  placed n state hstate hjumped := by
    have hstate := Array.all_eq_true_iff_forall_mem.1 h state (Array.mem_of_getElem? hstate)
    rw [hjumped] at hstate
    exact Option.isSome_iff_exists.1 hstate
  integers index v hv := by
    unfold ConstantPool.integers
    rw [hv]

/-- The start of the method, with a label there. -/
def unorderedStart : Assembler :=
  { Assembler.start .empty unorderedSite.entry with
    labels := #[{ placed := some 0 }]
    placedFrames := (Assembler.start .empty unorderedSite.entry).placedFrames.insert 0
      unorderedSite.entry }

/-- The NaN is not less than the integer, which is not zero; so the array is looked at too. -/
theorem unordered_runs :
    ∃ (slots : LocalSlots) (W : Whole) (b c : Assembler),
      unorderedSite.slots = .ok slots ∧
      unordered.Condition (recorded.Pushes recorder W unorderedSite slots) ∧
      (unordered.fragment unorderedSite).jump true ⟨0⟩ slots unorderedStart = .ok ((), slots) b ∧
      recorder.Crosses W unorderedStart b ⟨[], []⟩ 0
        ⟨[], [.load 0, .load 1, .test, .load 1, .test, .load 2, .test]⟩ ∧
      Lowering.outcomeValue (unordered.fragment unorderedSite).jump slots b = .ok ((), slots) c ∧
      recorder.Crosses W b c ⟨[], []⟩ 21
        ⟨[.int 1], [.load 0, .load 1, .test, .load 1, .test, .load 2, .test]⟩ := by
  have hruns : unorderedSite.slots.toOption.any (fun slots =>
      decide (slots.lookup? ⟨0⟩ = some (0, .float)) &&
      decide (slots.lookup? ⟨1⟩ = some (1, .int)) &&
      decide (slots.lookup? ⟨2⟩ = some (2, Sample.ints)) &&
      (outcome? ((unordered.fragment unorderedSite).jump true ⟨0⟩ slots unorderedStart)).any
        fun out => out.2.isReachable &&
          (outcome? (Lowering.outcomeValue (unordered.fragment unorderedSite).jump slots out.2)).any
            fun out => decide (out.2.instructions.size = 21) &&
              decide (out.2.position ⟨0⟩ = some 0) &&
              out.2.labels.all fun state => !state.jumpedTo || state.placed.isSome) = true := by
    decide +kernel
  obtain ⟨slots, hslots, hruns⟩ := exists_of_toOption hruns
  simp only [Bool.and_eq_true, decide_eq_true_eq] at hruns
  obtain ⟨⟨⟨hzero, hone⟩, htwo⟩, hruns⟩ := hruns
  obtain ⟨⟨⟨⟩, slots₁⟩, b, hjump, htest⟩ := exists_of_outcome hruns
  rw [Bool.and_eq_true] at htest
  obtain ⟨hreach, htest⟩ := htest
  obtain ⟨⟨⟨⟩, slots₂⟩, c, hvalue, htest⟩ := exists_of_outcome htest
  simp only [Bool.and_eq_true, decide_eq_true_eq] at htest
  obtain ⟨⟨hsize, hposition⟩, hplaced⟩ := htest
  obtain ⟨-, rfl⟩ := (unordered.emits unorderedSite).jump true ⟨0⟩ _ _ _ _ _ hjump
  -- the code is finished once the value is there too
  let W := Whole.ofPlaced c hplaced
  have hcondition : unordered.Condition (recorded.Pushes recorder W unorderedSite slots₁) := by
    have hx : recorded.Pushes recorder W unorderedSite slots₁ (Sample.var 0 .float) :=
      Evaluation.pushes_var rfl hzero (fun _ => rfl) fun _ _ => rfl
    have hn : recorded.Pushes recorder W unorderedSite slots₁ (Sample.var 1 .int) :=
      Evaluation.pushes_var rfl hone (fun _ => rfl) fun _ _ => rfl
    have hxs : recorded.Pushes recorder W unorderedSite slots₁ (Sample.var 2 Sample.ints) :=
      Evaluation.pushes_var rfl htwo (fun _ => rfl) fun _ _ => rfl
    have hzero : recorded.Pushes recorder W unorderedSite slots₁ (Sample.int 0) :=
      ⟨fun t _ ht => by cases ht; rfl, fun h => absurd h (by decide)⟩
    have hnull : recorded.Pushes recorder W unorderedSite slots₁ (.null (some Sample.ints)) :=
      ⟨fun t _ ht => by cases ht; rfl, fun _ h => absurd h (by decide)⟩
    exact .logical _ (.not (.compare _ rfl rfl (by decide) hx hn _) _)
      (.logical _ (.compare _ rfl rfl (by decide) hn hzero _)
        (.compare _ rfl rfl (by decide) hxs hnull _) _) _
  obtain ⟨hvalues, rfl⟩ := (hcondition.follows_outcomeValue [] []).emits _ _ _ _ _ hvalue
  have hholds : recorded.holds recorder unordered [] =
      (true, [.load 0, .load 1, .test, .load 1, .test, .load 2, .test]) := by decide +kernel
  have hjumped := (recorded.condition_runs recorder W unorderedSite slots₂ slots₂ unordered
    hcondition unorderedStart b rfl hvalues.built.grows [] []).1 true ⟨0⟩ hjump
  have hpushed := (recorded.condition_runs recorder W unorderedSite slots₂ slots₂ unordered
    hcondition b c hreach (.refl c) [] []).2 hvalue
  rw [hholds] at hjumped hpushed
  obtain ⟨n, hn, hjumped⟩ := hjumped
  cases hposition.symm.trans hn
  have hend := hpushed.2
  rw [hsize] at hend
  exact ⟨slots₂, W, b, c, hslots, hcondition, hjump, hjumped, hvalue, hend⟩

end ClassForge
