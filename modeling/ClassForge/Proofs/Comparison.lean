/-
# Comparisons

What the comparisons of a program mean, and what the instructions do that carry them
out.  Two data are ordered, or they are not ordered at all (`Datum.order`):

| data | order |
| --- | --- |
| integers | that of the integers |
| floating point numbers | that of the numbers, none with a NaN |
| an integer and a floating point number | as above, with the integer rounded first |
| references | equal, or none |

A comparison holds for some orders (`CompareOp.accepts`).  Without an order nothing
holds but `≠`, and that is where a branch and its opposite need care: a branch tests an
integer, for which one of the two always holds.  `floatCompare` picks the instruction
that makes of a NaN an integer for which the comparison fails
(`branch?_zeroBranch_ordering`).
-/

import ClassForge.Proofs.Evaluation

namespace ClassForge

/-! ### Orders -/

namespace Ieee

/-- A finite number as a multiple of `2 ^ least`. -/
def scaled (negative : Bool) (mantissa : Nat) (exponent least : Int) : Int :=
  let magnitude : Nat := mantissa <<< (exponent - least).toNat
  if negative then -(magnitude : Int) else magnitude

/-- The order of two numbers, if neither of them is a NaN. -/
def Number.order : Number → Number → Option Ordering
  | .nan, _ | _, .nan => none
  | .infinite s, .infinite t => some (compare t s)
  | .infinite s, .finite .. => some (if s then .lt else .gt)
  | .finite .., .infinite t => some (if t then .gt else .lt)
  | .finite s m e, .finite t n d =>
    some (compare (scaled s m e (min e d)) (scaled t n d (min e d)))

end Ieee

/-- Does the comparison hold between data of the given order? -/
def CompareOp.accepts (op : CompareOp) (order : Option Ordering) : Bool :=
  match op with
  | .eq => order = some .eq
  | .ne => order ≠ some .eq
  | .lt => order = some .lt
  | .le => order = some .lt ∨ order = some .eq
  | .gt => order = some .gt
  | .ge => order = some .gt ∨ order = some .eq

/-- What lies on the stack. -/
inductive Datum where
  | int (n : Int32)
  | float (x : Binary32)
  /-- An object by its address, or `null`. -/
  | ref (address : Option Nat)
deriving DecidableEq

namespace Datum

def kind : Datum → ValueKind
  | .int _ => .int
  | .float _ => .float
  | .ref _ => .reference

/-- The order of two data, given how integers are rounded. -/
def order (round : Int32 → Binary32) : Datum → Datum → Option Ordering
  | .int a, .int b => some (compareOfLessAndEq a b)
  | .float x, .float y => x.number.order y.number
  | .int a, .float y => (round a).number.order y.number
  | .float x, .int b => x.number.order (round b).number
  | .ref a, .ref b => if a = b then some .eq else none
  | _, _ => none

/-- The datum as a floating point number, if it is a number. -/
def rounded (round : Int32 → Binary32) : Datum → Datum
  | .int a => .float (round a)
  | d => d

variable {d : Datum}

theorem eq_int (h : d.kind = .int) : ∃ n, d = .int n := by
  cases d with
  | int n => exact ⟨n, rfl⟩
  | float | ref => cases h

theorem eq_float (h : d.kind = .float) : ∃ x, d = .float x := by
  cases d with
  | float x => exact ⟨x, rfl⟩
  | int | ref => cases h

theorem eq_ref (h : d.kind = .reference) : ∃ address, d = .ref address := by
  cases d with
  | ref address => exact ⟨address, rfl⟩
  | int | float => cases h

theorem rounded_eq_float (round : Int32 → Binary32) (h : d.kind ≠ .reference) :
    ∃ x, d.rounded round = .float x := by
  cases d with
  | int n => exact ⟨round n, rfl⟩
  | float x => exact ⟨x, rfl⟩
  | ref => exact absurd rfl h

theorem order_of_rounded {round : Int32 → Binary32} {d e : Datum} {x y : Binary32}
    (hd : d.rounded round = .float x) (he : e.rounded round = .float y)
    (h : d.kind = .float ∨ e.kind = .float) : d.order round e = x.number.order y.number := by
  cases d <;> cases e <;> cases hd <;> cases he <;> first | rfl | skip
  rcases h with h | h <;> cases h

end Datum

/-! ### Instructions

Each branch is taken just if the order of what is compared is one that its operator accepts. -/

namespace Lowering

/-- The branch that compares a reference with `null`. -/
def nullBranch : CompareOp → Opcode
  | .eq => .ifnull
  | _ => .ifnonnull

/-- The branch that compares two references. -/
def referenceBranch : CompareOp → Opcode
  | .eq => .ifAcmpeq
  | _ => .ifAcmpne

/-- References are compared with `==` and `!=` only. -/
theorem compareReferences_eq (e : Expr) {op : CompareOp} (hop : op = .eq ∨ op = .ne)
    (left right : Operand) :
    compareReferences e op left right =
      match nullChecked left right with
      | some operand => do
        operand.value
        return nullBranch op
      | none => do
        left.value
        right.value
        return referenceBranch op := by
  unfold compareReferences
  rcases hop with rfl | rfl <;> cases nullChecked left right <;> rfl

end Lowering

namespace Processor

/-- What a comparison of floating point numbers leaves; `unordered` is for NaNs. -/
def ordering (unordered : Int32) : Option Ordering → Int32
  | none => unordered
  | some .lt => -1
  | some .eq => 0
  | some .gt => 1

/-- The stack after an instruction that pushes a literal, or converts or compares numbers. -/
def work? (round : Int32 → Binary32) : Opcode → List Datum → Option (List Datum)
  | .aconstNull, s => some (.ref none :: s)
  | .iconst0, s => some (.int 0 :: s)
  | .iconst1, s => some (.int 1 :: s)
  | .i2f, .int a :: s => some (.float (round a) :: s)
  | .fcmpl, .float y :: .float x :: s =>
    some (.int (ordering (-1) (x.number.order y.number)) :: s)
  | .fcmpg, .float y :: .float x :: s =>
    some (.int (ordering 1 (x.number.order y.number)) :: s)
  | _, _ => none

/-- Is a conditional branch taken, and what is left of the stack? -/
def branch? : Opcode → List Datum → Option (Bool × List Datum)
  | .ifeq, .int a :: s => some (a = 0, s)
  | .ifne, .int a :: s => some (a ≠ 0, s)
  | .iflt, .int a :: s => some (a < 0, s)
  | .ifge, .int a :: s => some (0 ≤ a, s)
  | .ifgt, .int a :: s => some (0 < a, s)
  | .ifle, .int a :: s => some (a ≤ 0, s)
  | .ifIcmpeq, .int b :: .int a :: s => some (a = b, s)
  | .ifIcmpne, .int b :: .int a :: s => some (a ≠ b, s)
  | .ifIcmplt, .int b :: .int a :: s => some (a < b, s)
  | .ifIcmpge, .int b :: .int a :: s => some (b ≤ a, s)
  | .ifIcmpgt, .int b :: .int a :: s => some (b < a, s)
  | .ifIcmple, .int b :: .int a :: s => some (a ≤ b, s)
  | .ifAcmpeq, .ref b :: .ref a :: s => some (a = b, s)
  | .ifAcmpne, .ref b :: .ref a :: s => some (a ≠ b, s)
  | .ifnull, .ref a :: s => some (a = none, s)
  | .ifnonnull, .ref a :: s => some (a ≠ none, s)
  | _, _ => none

variable {round : Int32 → Binary32}

theorem branch?_negate {op opposite : Opcode} {S S' : List Datum} {taken : Bool}
    (hop : op.negate = some opposite) (h : branch? op S = some (taken, S')) :
    branch? opposite S = some (!taken, S') := by
  unfold branch? at h
  split at h <;> cases h <;> cases hop <;>
    simp only [branch?, ← decide_not, ne_eq, Decidable.not_not, Int32.not_le, Int32.not_lt]

theorem negate_of_branch? {op : Opcode} {S S' : List Datum} {taken : Bool}
    (h : branch? op S = some (taken, S')) : ∃ opposite, op.negate = some opposite := by
  unfold branch? at h
  split at h <;> first | exact ⟨_, rfl⟩ | cases h

theorem effect_of_branch? {op : Opcode} {S S' : List Datum} {taken : Bool}
    (h : branch? op S = some (taken, S')) :
    op.effect.isBranch = true ∧ op.effect ≠ .goto := by
  unfold branch? at h
  split at h <;> first | exact ⟨rfl, by decide⟩ | cases h

/-- Between integers a comparison holds as it does between their orders. -/
theorem accepts_compareOfLessAndEq (op : CompareOp) (a b : Int32) :
    op.accepts (some (compareOfLessAndEq a b)) = op.ints a b := by
  unfold compareOfLessAndEq
  split
  · rename_i hlt
    have hne : a ≠ b := Int32.ne_of_lt hlt
    have hle : a ≤ b := Int32.le_of_lt hlt
    cases op <;> simp [CompareOp.accepts, CompareOp.ints, *]
  · rename_i hlt
    have hle : b ≤ a := Int32.not_lt.1 hlt
    split
    · rename_i heq
      subst heq
      cases op <;> simp [CompareOp.accepts, CompareOp.ints]
    · rename_i hne
      have hgt : b < a := Int32.lt_of_le_of_ne hle (Ne.symm hne)
      cases op <;> simp [CompareOp.accepts, CompareOp.ints, *]

/-- **A branch on two integers is taken if the comparison holds.** -/
theorem branch?_intBranch (op : CompareOp) (a b : Int32) (S : List Datum) :
    branch? (Lowering.intBranch op) (.int b :: .int a :: S) =
      some (op.accepts ((Datum.int a).order round (.int b)), S) := by
  rw [Datum.order, accepts_compareOfLessAndEq]
  cases op <;> rfl

theorem branch?_zeroBranch (op : CompareOp) (a : Int32) (S : List Datum) :
    branch? (Lowering.zeroBranch op) (.int a :: S) =
      some (op.accepts ((Datum.int a).order round (.int 0)), S) := by
  rw [Datum.order, accepts_compareOfLessAndEq]
  cases op <;> rfl

/-- **A branch on compared floating point numbers is taken if the comparison holds**, also
with a NaN. -/
theorem branch?_zeroBranch_ordering (op : CompareOp) (x y : Binary32) (S : List Datum) :
    ∃ n, work? round (Lowering.floatCompare op) (.float y :: .float x :: S) =
        some (.int n :: S) ∧
      branch? (Lowering.zeroBranch op) (.int n :: S) =
        some (op.accepts (x.number.order y.number), S) := by
  cases hop : op <;> refine ⟨_, rfl, ?_⟩ <;>
    rcases x.number.order y.number with _ | _ | _ | _ <;> rfl

/-- **A branch on two references is taken if the comparison holds.** -/
theorem branch?_referenceBranch {op : CompareOp} (hop : op = .eq ∨ op = .ne) (a b : Option Nat)
    (S : List Datum) :
    branch? (Lowering.referenceBranch op) (.ref b :: .ref a :: S) =
      some (op.accepts ((Datum.ref a).order round (.ref b)), S) := by
  by_cases h : a = b <;> rcases hop with rfl | rfl <;>
    simp [branch?, Lowering.referenceBranch, Datum.order, CompareOp.accepts, h]

theorem branch?_nullBranch {op : CompareOp} (hop : op = .eq ∨ op = .ne) (a : Option Nat)
    (S : List Datum) :
    branch? (Lowering.nullBranch op) (.ref a :: S) =
        some (op.accepts ((Datum.ref a).order round (.ref none)), S) ∧
      branch? (Lowering.nullBranch op) (.ref a :: S) =
        some (op.accepts ((Datum.ref none).order round (.ref a)), S) := by
  cases a <;> rcases hop with rfl | rfl <;> exact ⟨rfl, rfl⟩

end Processor

end ClassForge
