/-
# What programs mean

The meaning of methods over integers and truth values.  Integers are 32 bits wide
and wrap around; operands are evaluated from left to right; `&&`, `||` and the
conditional leave out what is not needed; the count of a shift is taken modulo 32;
a division by zero has no result.

Each declaration has a number of its own, so a `Store` holds one value per local.
A loop runs for at most `fuel` rounds: a statement has no result if some loop in it
needs more.  Leaving a loop or the method is its `Completion`:

| completion | the next thing that happens |
| --- | --- |
| `normal` | the statement behind this one |
| `breaks` | what is behind the loop that is meant |
| `continues` | the next round of the loop that is meant |
| `returns` | the method is over |

`Stmt.isIntegral` says which statements are covered: those over integers and truth
values whose locals are in scope.
-/

import ClassForge.Proofs.Scope

namespace ClassForge

/-- A value of a program. -/
inductive Value where
  | int (n : Int32)
  | bool (b : Bool)
deriving DecidableEq

/-- A truth value. -/
def Value.truth? : Value → Option Bool
  | .bool b => some b
  | .int _ => none

/-- The values of locals. -/
abbrev Store := LocalId → Option Value

/-- The store after an assignment. -/
def Store.set (σ : Store) (id : LocalId) (v : Value) : Store :=
  fun other => if other = id then some v else σ other

/-! ### Operators -/

/-- What an operator yields for two integers. -/
def BinaryOp.ints : BinaryOp → Int32 → Int32 → Option Int32
  | .add, a, b => some (a + b)
  | .sub, a, b => some (a - b)
  | .mul, a, b => some (a * b)
  | .div, a, b => if b = 0 then none else some (a / b)
  | .rem, a, b => if b = 0 then none else some (a % b)
  | .bitAnd, a, b => some (a &&& b)
  | .bitOr, a, b => some (a ||| b)
  | .bitXor, a, b => some (a ^^^ b)
  | .shl, a, b => some (a <<< (b &&& 31))
  | .shr, a, b => some (a >>> (b &&& 31))
  | .ushr, a, b => some (a.toUInt32 >>> (b &&& 31).toUInt32).toInt32

/-- What an operator yields for two truth values. -/
def BinaryOp.bools : BinaryOp → Bool → Bool → Option Bool
  | .bitAnd, a, b => some (a && b)
  | .bitOr, a, b => some (a || b)
  | .bitXor, a, b => some (a ^^ b)
  | _, _, _ => none

/-- What an operator yields. -/
def BinaryOp.apply (op : BinaryOp) : Value → Value → Option Value
  | .int a, .int b => (op.ints a b).map .int
  | .bool a, .bool b => (op.bools a b).map .bool
  | _, _ => none

/-- Does a comparison of integers hold? -/
def CompareOp.ints : CompareOp → Int32 → Int32 → Bool
  | .eq, a, b => a = b
  | .ne, a, b => a ≠ b
  | .lt, a, b => a < b
  | .le, a, b => a ≤ b
  | .gt, a, b => b < a
  | .ge, a, b => b ≤ a

/-- Does a comparison hold? -/
def CompareOp.apply : CompareOp → Value → Value → Option Bool
  | op, .int a, .int b => some (op.ints a b)
  | .eq, .bool a, .bool b => some (a = b)
  | .ne, .bool a, .bool b => some (a ≠ b)
  | _, _, _ => none

/-- What an operator with one operand yields. -/
def UnaryOp.apply : UnaryOp → Value → Option Value
  | .negate, .int a => some (.int (-a))
  | .bitNot, .int a => some (.int (~~~a))
  | .not, .bool b => some (.bool !b)
  | _, _ => none

/-- The outcome of the left operand after which the right one is not needed. -/
def LogicalOp.decisive : LogicalOp → Bool
  | .and => false
  | .or => true

/-- One more or one less. -/
def Value.incremented (decrement : Bool) : Value → Option Value
  | .int n => some (.int (if decrement then n - 1 else n + 1))
  | .bool _ => none

/-! ### Expressions -/

/-- The local that an expression names. -/
def Expr.variable? : Expr → Option LocalId
  | .var id _ => some id
  | _ => none

/-- The value of an expression, and the store after it. -/
def Expr.eval (e : Expr) (σ : Store) : Option (Value × Store) :=
  match e with
  | .int value _ => some (.int value, σ)
  | .boolean value _ => some (.bool value, σ)
  | .var id _ => do
    let v ← σ id
    some (v, σ)
  | .assign target value _ => do
    let id ← target.variable?
    let (v, σ) ← value.eval σ
    some (v, σ.set id v)
  | .compound op target value _ => do
    let id ← target.variable?
    let old ← σ id
    let (v, σ) ← value.eval σ
    let new ← op.apply old v
    some (new, σ.set id new)
  | .increment target decrement inFront _ => do
    let id ← target.variable?
    let old ← σ id
    let new ← old.incremented decrement
    some (if inFront then new else old, σ.set id new)
  | .unary op operand _ => do
    let (v, σ) ← operand.eval σ
    let new ← op.apply v
    some (new, σ)
  | .binary op left right _ => do
    let (v, σ) ← left.eval σ
    let (w, σ) ← right.eval σ
    let new ← op.apply v w
    some (new, σ)
  | .compare op left right _ => do
    let (v, σ) ← left.eval σ
    let (w, σ) ← right.eval σ
    let b ← op.apply v w
    some (.bool b, σ)
  | .logical op left right _ => do
    let (v, σ) ← left.eval σ
    let b ← v.truth?
    if b = op.decisive then some (.bool b, σ)
    else do
      let (w, σ) ← right.eval σ
      let c ← w.truth?
      some (.bool c, σ)
  | .conditional condition thenValue elseValue _ => do
    let (v, σ) ← condition.eval σ
    let b ← v.truth?
    if b then thenValue.eval σ else elseValue.eval σ
  | _ => none

/-- Does a condition hold, and what is the store after it? -/
def Expr.holds (e : Expr) (σ : Store) : Option (Bool × Store) := do
  let (v, σ) ← e.eval σ
  let b ← v.truth?
  some (b, σ)

/-- The store after several expressions, whose values are not used. -/
def Expr.evalAll (σ : Store) : List Expr → Option Store
  | [] => some σ
  | e :: es => do
    let (_, σ) ← e.eval σ
    evalAll σ es

/-! ### Statements -/

/-- How a statement ends. -/
inductive Completion where
  | normal
  | breaks (label : Option String)
  | continues (label : Option String)
  | returns (value : Option Value)

/-- What the end of its body means for a loop with the given label: another round,
or the end of the loop. -/
def Completion.afterBody (label : Option String) : Completion → Option Completion
  | .normal => none
  | .breaks l => if l = none ∨ l = label then some .normal else some (.breaks l)
  | .continues l => if l = none ∨ l = label then none else some (.continues l)
  | .returns v => some (.returns v)

/-- A round of a loop: the store after it, and how the loop ends if this was
the last round. -/
abbrev Round := Store → Option (Store × Option Completion)

/-- At most `n` rounds of a loop. -/
def Round.repeated (round : Round) : Nat → Store → Option (Store × Completion)
  | 0, _ => none
  | n + 1, σ =>
    match round σ with
    | none => none
    | some (σ, none) => repeated round n σ
    | some (σ, some o) => some (σ, o)

/-- A round of a loop that tests its condition at the top. -/
def Round.testedFirst (label : Option String) (condition : Store → Option (Bool × Store))
    (update : Store → Option Store) (body : Store → Option (Store × Completion)) : Round :=
  fun σ => do
  let (b, σ) ← condition σ
  if b then do
    let (σ, o) ← body σ
    match o.afterBody label with
    | some o => some (σ, some o)
    | none => do
      let σ ← update σ
      some (σ, none)
  else some (σ, some .normal)

/-- A round of a loop that tests its condition at the end. -/
def Round.testedLast (label : Option String) (condition : Store → Option (Bool × Store))
    (body : Store → Option (Store × Completion)) : Round := fun σ => do
  let (σ, o) ← body σ
  match o.afterBody label with
  | some o => some (σ, some o)
  | none => do
    let (b, σ) ← condition σ
    some (σ, if b then none else some .normal)

/-- Does the condition of a loop hold?  One that is missing does. -/
def Expr.holds? (condition : Option Expr) (σ : Store) : Option (Bool × Store) :=
  match condition with
  | none => some (true, σ)
  | some e => e.holds σ

mutual

/-- The store after a statement, and how it ends. -/
def Stmt.run (fuel : Nat) (s : Stmt) (σ : Store) : Option (Store × Completion) :=
  match s with
  | .expr e => do
    let (_, σ) ← e.eval σ
    some (σ, .normal)
  | .declare id _ (some initial) => do
    let (v, σ) ← initial.eval σ
    some (σ.set id v, .normal)
  | .block body => Stmt.runAll fuel body σ
  | .branch condition thenBranch elseBranch => do
    let (b, σ) ← condition.holds σ
    if b then thenBranch.run fuel σ else Stmt.run? fuel elseBranch σ
  | .whileLoop label condition body =>
    (Round.testedFirst label condition.holds some fun σ => body.run fuel σ).repeated fuel σ
  | .doWhileLoop label body condition =>
    (Round.testedLast label condition.holds fun σ => body.run fuel σ).repeated fuel σ
  | .forLoop label init condition update body => do
    match ← Stmt.runAll fuel init σ with
    | (σ, .normal) =>
      (Round.testedFirst label (Expr.holds? condition) (Expr.evalAll · update)
        fun σ => body.run fuel σ).repeated fuel σ
    | (σ, o) => some (σ, o)
  | .breakLoop label => some (σ, .breaks label)
  | .continueLoop label => some (σ, .continues label)
  | .returnValue none => some (σ, .returns none)
  | .returnValue (some e) => do
    let (v, σ) ← e.eval σ
    some (σ, .returns (some v))
  | _ => none

/-- The store after statements one after the other, and how they end. -/
def Stmt.runAll (fuel : Nat) (ss : List Stmt) (σ : Store) : Option (Store × Completion) :=
  match ss with
  | [] => some (σ, .normal)
  | s :: ss => do
    match ← s.run fuel σ with
    | (σ, .normal) => Stmt.runAll fuel ss σ
    | (σ, o) => some (σ, o)

/-- The store after a statement that may be missing, and how it ends. -/
def Stmt.run? (fuel : Nat) (s : Option Stmt) (σ : Store) : Option (Store × Completion) :=
  match s with
  | none => some (σ, .normal)
  | some s => s.run fuel σ

end

/-- The store in which parameters have the values of arguments. -/
def Store.ofArguments : List Parameter → List Value → Store
  | p :: ps, v :: vs => (Store.ofArguments ps vs).set p.id v
  | _, _ => fun _ => none

/-- What a method returns for the given arguments: a value, or none if it ends
without one. -/
def MethodDecl.result? (fuel : Nat) (m : MethodDecl) (arguments : List Value) :
    Option (Option Value) :=
  match Stmt.runAll fuel m.body (Store.ofArguments m.parameters arguments) with
  | some (_, .returns v) => some v
  | some (_, .normal) => some none
  | _ => none

/-! ### The statements that are covered -/

/-- Is this the type of integers or of truth values? -/
def FieldType.isIntegral : FieldType → Bool
  | .base .int | .base .boolean => true
  | _ => false

/-- Is this an expression over integers and truth values whose locals are in
scope? -/
def Expr.isIntegral (Γ : Context) (e : Expr) : Bool :=
  e.type.any FieldType.isIntegral &&
    match e with
    | .int .. | .boolean .. => true
    | .var id _ => Γ.declares id
    | .assign target value _ | .compound _ target value _ =>
      target.variable?.isSome && target.isIntegral Γ && value.isIntegral Γ
    | .increment target _ _ _ => target.variable?.isSome && target.isIntegral Γ
    | .unary _ operand _ => operand.isIntegral Γ
    | .binary _ left right _ | .compare _ left right _ | .logical _ left right _ =>
      left.isIntegral Γ && right.isIntegral Γ
    | .conditional condition thenValue elseValue _ =>
      condition.isIntegral Γ && thenValue.isIntegral Γ && elseValue.isIntegral Γ
    | _ => false

mutual

/-- Is this a statement over integers and truth values whose locals are in scope?
`hasResult` says whether the method returns a value. -/
def Stmt.isIntegral (hasResult : Bool) (Γ : Context) (s : Stmt) : Bool :=
  match s with
  | .expr e => e.isIntegral Γ
  | .declare _ type (some initial) => type.isIntegral && initial.isIntegral Γ
  | .block body => Stmt.areIntegral hasResult Γ body
  | .branch condition thenBranch elseBranch =>
    condition.isIntegral Γ && thenBranch.isIntegral hasResult Γ &&
      Stmt.isIntegral? hasResult Γ elseBranch
  | .whileLoop _ condition body | .doWhileLoop _ body condition =>
    condition.isIntegral Γ && body.isIntegral hasResult Γ
  | .forLoop _ init condition update body =>
    let Γ' := Γ ++ init.flatMap Stmt.declared
    Stmt.areIntegral hasResult Γ init && condition.all (·.isIntegral Γ') &&
      update.all (·.isIntegral Γ') && body.isIntegral hasResult Γ'
  | .breakLoop _ | .continueLoop _ => true
  | .returnValue none => !hasResult
  | .returnValue (some e) => hasResult && e.isIntegral Γ
  | _ => false

/-- Are these such statements?  A local is in scope from its declaration on. -/
def Stmt.areIntegral (hasResult : Bool) (Γ : Context) (ss : List Stmt) : Bool :=
  match ss with
  | [] => true
  | s :: ss => s.isIntegral hasResult Γ && Stmt.areIntegral hasResult (Γ ++ s.declared) ss

/-- Is this such a statement, unless it is missing? -/
def Stmt.isIntegral? (hasResult : Bool) (Γ : Context) (s : Option Stmt) : Bool :=
  match s with
  | none => true
  | some s => s.isIntegral hasResult Γ

end

end ClassForge
