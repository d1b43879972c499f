/-
# Types of programs

The rules by which the type of each expression follows from its kind and its
operands, as a check of a whole method (`Site.isTyped`):

| where | what may stand there |
| --- | --- |
| a `float` is expected | an `int` or a `float` |
| a class is expected | any reference, as the classes above a class are not known |
| an array is expected | an array whose elements may stand for those expected |
| a value is expected | anything but a call that returns nothing |
| a break or a continue | inside the loop that it names |
| `this` | in a method that is not static |
| a constructor call | at the start of a constructor |

Every local is declared with a value, and it is in scope from its declaration on.

Two bounds are part of the check, since the code has a number for what they bound: a `new`
of an array has from 1 to 255 dimensions, which go into one byte, and an array that is
given by its elements has fewer than 2147483648 of them, as its length is an `int`.

What a frame knows about a value of some type need not be that type: `null` is all
that is known of `null`, and `this` is not constructed from the start.  `Conforms`
says what a frame may know of it.
-/

import ClassForge.Proofs.Scope

namespace ClassForge

/-! ### What may stand for what -/

namespace RefType

/-- May a value of the first type stand where one of the second is expected?  An
array of base types has no elements that are references. -/
def fits : RefType → RefType → Bool
  | _, .object _ => true
  | .object _, .array _ _ => false
  | .array m e, .array n (.base b) => m = n && e = .base b
  | .array m (.base _), .array n (.object _) => n < m
  | .array m (.object _), .array n (.object _) => n ≤ m

/-- Every reference type fits itself. -/
theorem fits_refl (t : RefType) : t.fits t = true := by
  match t with
  | .object _ => rfl
  | .array _ (.base _) => simp [fits]
  | .array _ (.object _) => simp [fits]

/-- Fitting is transitive: a type that fits one which fits a third fits the third. -/
theorem fits_trans {t u v : RefType} (htu : t.fits u = true) (huv : u.fits v = true) :
    t.fits v = true := by
  match t, u, v with
  | _, _, .object _ => simp [fits]
  | _, .object _, .array _ _ => simp [fits] at huv
  | .object _, .array _ _, .array _ _ => simp [fits] at htu
  | .array _ _, .array _ (.base _), .array _ (.base _) => simp_all [fits]
  | .array _ _, .array _ (.object _), .array _ (.base _) => simp [fits] at huv
  | .array _ (.base _), .array _ (.base _), .array _ (.object _) => simp_all [fits]
  | .array _ (.object _), .array _ (.base _), .array _ (.object _) => simp [fits] at htu
  | .array _ (.base _), .array _ (.object _), .array _ (.object _) =>
    simp only [fits, decide_eq_true_eq] at *
    omega
  | .array _ (.object _), .array _ (.object _), .array _ (.object _) =>
    simp only [fits, decide_eq_true_eq] at *
    omega

/-- An array is an array of its elements. -/
theorem eq_arrayOf {t : RefType} {u : FieldType} (h : t.component? = some u) : t = arrayOf u := by
  match t with
  | .object _ => cases h
  | .array 0 (.base _) =>
    cases h
    rfl
  | .array 0 (.object _) =>
    cases h
    rfl
  | .array (_ + 1) _ =>
    cases h
    rfl

/-- The elements of an array may stand for the elements expected. -/
theorem fits_component {t u c : RefType} (h : t.fits u = true)
    (hu : u.component? = some (.ref c)) :
    ∃ d, t.component? = some (.ref d) ∧ d.fits c = true := by
  match t, u with
  | _, .object _ => cases hu
  | .object _, .array _ _ => simp [fits] at h
  | .array _ _, .array 0 (.base _) => cases hu
  | .array m e, .array (n + 1) (.base b) =>
    cases hu
    simp only [fits, Bool.and_eq_true, decide_eq_true_eq] at h
    obtain ⟨rfl, rfl⟩ := h
    exact ⟨_, rfl, fits_refl _⟩
  | .array 0 (.base _), .array _ (.object _) => simp [fits] at h
  | .array 0 (.object _), .array (_ + 1) (.object _) => simp [fits] at h
  | .array 0 (.object _), .array 0 (.object _) =>
    cases hu
    exact ⟨_, rfl, rfl⟩
  | .array (m + 1) _, .array 0 (.object _) =>
    cases hu
    exact ⟨_, rfl, rfl⟩
  | .array (m + 1) (.base _), .array (n + 1) (.object _) =>
    cases hu
    exact ⟨_, rfl, by simpa [fits] using h⟩
  | .array (m + 1) (.object _), .array (n + 1) (.object _) =>
    cases hu
    exact ⟨_, rfl, by simpa [fits] using h⟩

end RefType

namespace FieldType

/-- May a value of the first type stand where one of the second is expected, as it
is? -/
def fits : FieldType → FieldType → Bool
  | .ref t, .ref u => t.fits u
  | t, u => t = u

/-- May a value of the first type stand where one of the second is expected, if
need be as a `float`? -/
def converts (t u : FieldType) : Bool := t.fits u || (t = .int && u = .float)

/-- Is this a type of numbers? -/
def isNumeric : FieldType → Bool
  | .base .int | .base .float => true
  | _ => false

/-- The type of the elements of an array. -/
def component? : FieldType → Option FieldType
  | .base _ => none
  | .ref t => t.component?

/-- What has elements is a reference. -/
theorem isReference_of_component {t u : FieldType} (h : t.component? = some u) :
    t.isReference = true := by
  cases t with
  | base => cases h
  | ref => rfl

/-- The number of dimensions of an array. -/
def dimensions : FieldType → Nat
  | .base _ => 0
  | .ref t => t.dimensions

/-- Is there a conversion from the first type to the second? -/
def casts (t u : FieldType) : Bool :=
  t = u || (t.isNumeric && u.isNumeric) || (t.isReference && u.isReference)

/-- The type of arithmetic on two numbers. -/
def numeric? (t u : FieldType) : Option FieldType :=
  if t.isNumeric && u.isNumeric then some (if t = .int ∧ u = .int then .int else .float) else none

end FieldType

/-! ### Operators -/

/-- The type of an operator on two values. -/
def BinaryOp.type? (op : BinaryOp) (left right : FieldType) : Option FieldType :=
  match op with
  | .add => if left = .string ∨ right = .string then some .string else left.numeric? right
  | .sub | .mul | .div | .rem => left.numeric? right
  | .bitAnd | .bitOr | .bitXor =>
    if left = right ∧ (left = .int ∨ left = .boolean) then some left else none
  | .shl | .shr | .ushr => if left = .int ∧ right = .int then some .int else none

/-- May the operator change a place of the first type by a value of the second?  An
`int` that is changed by a `float` is cut off. -/
def BinaryOp.updates (op : BinaryOp) (target value : FieldType) : Bool :=
  op.type? target value = some target || (target = .int && op.type? target value = some .float)

/-- The type of an operator on one value. -/
def UnaryOp.type? : UnaryOp → FieldType → Option FieldType
  | .negate, t => if t.isNumeric then some t else none
  | .bitNot, t => if t = .int then some t else none
  | .not, t => if t = .boolean then some t else none

/-- Can values of the two types be compared?  Only numbers have an order. -/
def CompareOp.compares (op : CompareOp) (left right : FieldType) : Bool :=
  (left.isNumeric && right.isNumeric) ||
    ((op = .eq || op = .ne) &&
      ((left = .boolean && right = .boolean) || (left.isReference && right.isReference)))

/-! ### Expressions -/

namespace Expr

/-- Can the expression be assigned to? -/
def isPlace : Expr → Bool
  | .var .. | .staticField .. | .field .. | .element .. => true
  | _ => false

/-- May the value of the expression stand where one of the given type is
expected? -/
def goesTo (e : Expr) (type : FieldType) : Bool := e.type.any (·.converts type)

/-- Is the value of the expression a reference? -/
def isReference (e : Expr) : Bool := e.type.any FieldType.isReference

mutual

/-- Is the type of the expression, and of each expression in it, the one that its
kind and its operands give?  A `new` of an array has from 1 to 255 dimensions, and an
array that is given by its elements has fewer than 2147483648 of them. -/
def isTyped (site : Site) (Γ : Context) (e : Expr) : Bool :=
  match e with
  | .int _ t => t = some .int
  | .float _ t => t = some .float
  | .boolean _ t => t = some .boolean
  | .string _ t => t = some .string
  | .null t => t.any FieldType.isReference
  | .this t => !site.method.isStatic && t = some (.ref site.owner.type)
  | .var id t => t.any fun type => decide ((id, type) ∈ Γ)
  | .staticField f t => f.isStatic && t = some f.type
  | .field object f t =>
    object.isTyped site Γ && object.isReference && !f.isStatic && t = some f.type
  | .element array index t =>
    array.isTyped site Γ && index.isTyped site Γ && index.type = some .int && t.isSome &&
      array.type.bind FieldType.component? = t
  | .length array t =>
    array.isTyped site Γ && (array.type.bind FieldType.component?).isSome && t = some .int
  | .assign target value t =>
    target.isTyped site Γ && target.isPlace && value.isTyped site Γ && t = target.type &&
      t.any value.goesTo
  | .compound op target value t =>
    target.isTyped site Γ && target.isPlace && value.isTyped site Γ && t = target.type &&
      t.any fun type => value.type.any fun other => op.updates type other
  | .increment target _ _ t =>
    target.isTyped site Γ && target.isPlace && t = target.type && t.any FieldType.isNumeric
  | .unary op operand t => operand.isTyped site Γ && t.isSome && operand.type.bind op.type? = t
  | .binary op left right t =>
    left.isTyped site Γ && right.isTyped site Γ && t.isSome &&
      (left.type.bind fun l => right.type.bind fun r => op.type? l r) = t
  | .compare op left right t =>
    left.isTyped site Γ && right.isTyped site Γ && t = some .boolean &&
      left.type.any fun l => right.type.any fun r => op.compares l r
  | .logical _ left right t =>
    left.isTyped site Γ && right.isTyped site Γ && left.type = some .boolean &&
      right.type = some .boolean && t = some .boolean
  | .conditional condition thenValue elseValue t =>
    condition.isTyped site Γ && condition.type = some .boolean && thenValue.isTyped site Γ &&
      elseValue.isTyped site Γ && t.any fun type => thenValue.goesTo type && elseValue.goesTo type
  | .call receiver method arguments _ t =>
    isReceiver site Γ method receiver && areTyped site Γ arguments method.descriptor.parameters &&
      t = method.descriptor.returns
  | .new constructor arguments t =>
    areTyped site Γ arguments constructor.descriptor.parameters &&
      t = some (.object constructor.owner)
  | .newArray dimensions t =>
    areTyped site Γ dimensions (List.replicate dimensions.length .int) && 1 ≤ dimensions.length &&
      dimensions.length ≤ 255 && t.any fun type => dimensions.length ≤ type.dimensions
  | .arrayOf elements t =>
    elements.length < 2147483648 && (t.bind FieldType.component?).any fun component =>
      areTyped site Γ elements (List.replicate elements.length component)
  | .cast operand t =>
    operand.isTyped site Γ && t.any fun type => operand.type.any fun source => source.casts type
  | .instanceOf operand _ t => operand.isTyped site Γ && operand.isReference && t = some .boolean

/-- May the values of the expressions stand where values of the given types are
expected? -/
def areTyped (site : Site) (Γ : Context) (es : List Expr) (types : List FieldType) : Bool :=
  match es, types with
  | [], [] => true
  | e :: es, type :: types => e.isTyped site Γ && e.goesTo type && areTyped site Γ es types
  | _, _ => false

/-- May the method be called on the expression, or on `this` if it is missing? -/
def isReceiver (site : Site) (Γ : Context) (method : MethodRef) (e : Option Expr) : Bool :=
  match e with
  | none => method.isStatic || !site.method.isStatic
  | some e => e.isTyped site Γ && e.isReference

end

/-- Is this a condition? -/
def isCondition (site : Site) (Γ : Context) (e : Expr) : Bool :=
  e.isTyped site Γ && e.type = some .boolean

end Expr

/-! ### Statements -/

namespace Stmt

/-- Is there a loop that a jump means, given the labels of the loops around it? -/
def namesLoop (loops : List (Option String)) : Option String → Bool
  | none => !loops.isEmpty
  | some name => decide (some name ∈ loops)

mutual

/-- Is the statement typed, given the labels of the loops around it and the locals in
scope? -/
def isTyped (site : Site) (loops : List (Option String)) (Γ : Context) (s : Stmt) : Bool :=
  match s with
  | .expr e => e.isTyped site Γ
  | .declare id type initial =>
    !Γ.declares id && initial.any fun e => e.isTyped site Γ && e.goesTo type
  | .block body => areTyped site loops Γ body
  | .branch condition thenBranch elseBranch =>
    condition.isCondition site Γ && thenBranch.isTyped site loops Γ &&
      isTyped? site loops Γ elseBranch
  | .whileLoop label condition body | .doWhileLoop label body condition =>
    condition.isCondition site Γ && body.isTyped site (label :: loops) Γ
  | .forLoop label init condition update body =>
    let Γ' := Γ ++ init.flatMap Stmt.declared
    areTyped site loops Γ init && condition.all (·.isCondition site Γ') &&
      update.all (·.isTyped site Γ') && body.isTyped site (label :: loops) Γ'
  | .breakLoop label | .continueLoop label => namesLoop loops label
  | .returnValue none => site.method.returns.isNone
  | .returnValue (some e) => e.isTyped site Γ && site.method.returns.any e.goesTo
  | .construct .. => false

/-- Are statements one after the other typed?  A local is in scope from its
declaration on. -/
def areTyped (site : Site) (loops : List (Option String)) (Γ : Context) (ss : List Stmt) :
    Bool :=
  match ss with
  | [] => true
  | s :: ss => s.isTyped site loops Γ && areTyped site loops (Γ ++ s.declared) ss

/-- Is the statement typed, unless it is missing? -/
def isTyped? (site : Site) (loops : List (Option String)) (Γ : Context) (s : Option Stmt) :
    Bool :=
  match s with
  | none => true
  | some s => s.isTyped site loops Γ

end

end Stmt

namespace Site

/-- Is the statement a call of another constructor where one may stand? -/
def startsTyped (site : Site) (constructor : MethodRef) (arguments : List Expr) : Bool :=
  site.method.isConstructor &&
    Expr.areTyped site site.method.context arguments constructor.descriptor.parameters

/-- Is the body of the method typed? -/
def isTyped (site : Site) : Bool :=
  decide (site.method.parameters.map Parameter.id).Nodup &&
    match site.method.body with
    | .construct constructor arguments :: rest =>
      site.startsTyped constructor arguments && Stmt.areTyped site [] site.method.context rest
    | body => Stmt.areTyped site [] site.method.context body

end Site

/-! ### What a frame knows of a value -/

/-- What a frame may know of a value of a type. -/
inductive Conforms : FrameType → FieldType → Prop where
  | int : Conforms .integer (.base .int)
  | boolean : Conforms .integer (.base .boolean)
  | float : Conforms .float (.base .float)
  | null (t : RefType) : Conforms .null (.ref t)
  | this (name : BinaryName) : Conforms .uninitializedThis (.ref (.object name))
  | object {t u : RefType} (h : t.fits u = true) : Conforms (.object t) (.ref u)

/-- A frame may know the type itself. -/
theorem conforms_verification (t : FieldType) : Conforms t.verification t := by
  match t with
  | .base .int => exact .int
  | .base .boolean => exact .boolean
  | .base .float => exact .float
  | .ref t => exact .object t.fits_refl

namespace Conforms

variable {t : FrameType} {type other : FieldType}

theorem hasKind (h : Conforms t type) : Frame.hasKind t type.kind = true := by cases h <;> rfl

theorem eq_verification (h : Conforms t type) (hbase : type.isReference = false) :
    t = type.verification := by
  cases h <;> first | rfl | cases hbase

theorem isReference (h : Conforms t type) (href : type.isReference = true) :
    t.isReference = true := by
  cases h <;> first | rfl | cases href

/-- A value may stand for one of another type. -/
theorem fits (h : Conforms t type) (hfits : type.fits other = true) : Conforms t other := by
  match type, other with
  | .ref u, .ref v =>
    cases h with
    | null => exact .null v
    | this =>
      match v with
      | .object name => exact .this name
      | .array _ _ => simp [FieldType.fits, RefType.fits] at hfits
    | object htu => exact .object (RefType.fits_trans htu hfits)
  | .base _, _ =>
    simp only [FieldType.fits, decide_eq_true_eq] at hfits
    exact hfits ▸ h
  | .ref _, .base _ => simp [FieldType.fits] at hfits

/-- An element of an array is what is known of the elements. -/
theorem element (h : Conforms t type) (hcomponent : type.component? = some other) :
    ∃ u, Frame.elementType other.kind t = .ok u ∧ Conforms u other := by
  match other with
  | .base .int => exact ⟨.integer, rfl, .int⟩
  | .base .boolean => exact ⟨.integer, rfl, .boolean⟩
  | .base .float => exact ⟨.float, rfl, .float⟩
  | .ref c =>
    cases h with
    | int | boolean | float => cases hcomponent
    | null => exact ⟨.null, rfl, .null c⟩
    | this => cases hcomponent
    | object hfits =>
      obtain ⟨d, hd, hdc⟩ := RefType.fits_component hfits hcomponent
      refine ⟨.object d, ?_, .object hdc⟩
      simp only [FieldType.kind, Frame.elementType, hd]

end Conforms
end ClassForge
