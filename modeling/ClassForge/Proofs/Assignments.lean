/-
# Assignments change one cell, once

Specification, section 4.6: compound assignments and increments compute an address
once.

`x = e`, `x += e` and `x++` are one thing: a cell is found, a value is worked out, and the
value is written into the cell.  What they mean is said by `Valuation.change`, from left to
right and with each part evaluated once:

| | new value | worth |
| --- | --- | --- |
| assignment | the value, rounded for a `float` | the new value |
| with an operator | the old value changed by the operand | the new value |
| `++`, `--` | one more or less than the old value | the new value in front, else the old one |

The code of the parts is not looked into: where their evaluation has a result, it pushes
that (`Valuation.Pushes`).  Their effects show in the contents that are handed on.

Where the cell is decides how its address is copied and how a value is kept below it.  This
is all said by `Place.Stands`, once for each kind of place; the code of the assignments is
then followed without looking at the place again (`Expr.Updates.follows`).
-/

import ClassForge.Proofs.Cells
import ClassForge.Proofs.Conditions

namespace ClassForge

/-! ### What assignments mean -/

/-- The value of an expression and what is there beside the stack after it, if its
evaluation has a result. -/
abbrev Valuation (R : Type) := Expr → R → Option (Datum × R)

namespace Datum

/-- The address of an object. -/
def object? : Datum → Option Nat
  | .ref address => address
  | _ => none

def int? : Datum → Option Int32
  | .int n => some n
  | _ => none

/-- The datum where a value of a type is expected. -/
def converted (round : Int32 → Binary32) (t : FieldType) (d : Datum) : Datum :=
  if t.kind = .float then d.rounded round else d

end Datum

/-- What is to be written, where, and when. -/
structure Change (X : Type) where
  cell : Cell
  value : Datum
  /-- What the expression is worth. -/
  worth : Datum
  /-- The contents at the time. -/
  before : Contents X

/-- What a cell holds, if it is a value of the type. -/
def Contents.read? {X : Type} (m : Contents X) (t : FieldType) (c : Cell) : Option Datum :=
  (m.cells c).filter fun d => t.Admits d

/-- What an operator makes of two numbers.  If one of them is a floating point number, so
is the other; an integer on the left stays one by cutting off the result. -/
def Platform.combine? {X : Type} (P : Platform X) (op : BinaryOp) : Datum → Datum → Option Datum
  | .int a, .int b => (op.ints a b).map .int
  | .int a, .float y => (floats (P.round a) y).map fun x => .int (P.truncate x)
  | .float x, .int b => (floats x (P.round b)).map .float
  | .float x, .float y => (floats x y).map .float
  | _, _ => none
where
  floats (x y : Binary32) : Option Binary32 :=
    if Platform.isArithmetic op then some (P.arithmetic op x y) else none

namespace Valuation

/-- Integer literals stand for themselves. -/
def operand {R : Type} (V : Valuation R) (x : Expr) (r : R) : Option (Datum × R) :=
  match x with
  | .int value _ => some (.int value, r)
  | x => V x r

variable {X : Type} (V : Valuation (Contents X)) (P : Platform X) (slots : LocalSlots)

/-- The cell that can be assigned to.  The object, or the array and then the index, are
evaluated. -/
def locate (target : Expr) (m : Contents X) : Option (Cell × Contents X) :=
  match target with
  | .var id _ => do
    let (slot, _) ← slots.lookup? id
    some (.slot slot.toNat, m)
  | .staticField f _ => some (.shared (P.resolve f.member), m)
  | .field object f _ => do
    let (d, m) ← V.operand object m
    some (.field (← d.object?) (P.resolve f.member), m)
  | .element array index _ => do
    let (d, m) ← V.operand array m
    let (e, m) ← V.operand index m
    some (.element (← d.object?) (← e.int?), m)
  | _ => none

/-- A text with that of another value behind it: a new string.  A string builder is left
over. -/
def joined (u : FieldType) (value : Expr) (old : Datum) (m : Contents X) :
    Option (Datum × Contents X) := do
  let (text, m) ← P.text? .string old m
  let (d, m₁) ← V.operand value (m.build text)
  let (more, m₂) ← P.text? u d m₁
  some (.ref (some m₂.free), (m₂.setText m.free (text ++ more)).build (text ++ more))

/-- The old value changed by an operand. -/
def updated (op : BinaryOp) (t u : FieldType) (value : Expr) (old : Datum) (m : Contents X) :
    Option (Datum × Contents X) :=
  if op = .add ∧ t = .string then V.joined P u value old m
  else do
    let (d, m) ← V.operand value m
    some (← P.combine? op old d, m)

/-- **What an assignment changes.**  There is no meaning if an object is `null`, an element
is missing, or an integer is divided by zero. -/
def change (e : Expr) (m : Contents X) : Option (Change X) :=
  match e with
  | .assign target value _ => do
    let t ← target.type
    let (cell, m) ← V.locate P slots target m
    let (d, m) ← V.operand value m
    some ⟨cell, d.converted P.round t, d.converted P.round t, m⟩
  | .compound op target value _ => do
    let t ← target.type
    let u ← value.type
    let (cell, m) ← V.locate P slots target m
    let (new, m) ← V.updated P op t u value (← m.read? t cell) m
    some ⟨cell, new, new, m⟩
  | .increment target decrement inFront _ => do
    let t ← target.type
    let (cell, m) ← V.locate P slots target m
    let old ← m.read? t cell
    let new ← P.combine? (if decrement then .sub else .add) old (.int 1)
    some ⟨cell, new, if inFront then new else old, m⟩
  | _ => none

/-- While a text is joined to another one, the latter is in a string builder of which
nobody else knows: the evaluation of the operand leaves it alone. -/
def Discreet (e : Expr) (m : Contents X) : Prop :=
  match e with
  | .compound _ target value _ =>
    ∀ (u : FieldType) (cell : Cell) (old d : Datum) (text more : String) (m₁ m₂ m₃ m₄ : Contents X),
      target.type = some .string → value.type = some u →
      V.locate P slots target m = some (cell, m₁) → m₁.read? .string cell = some old →
      P.text? .string old m₁ = some (text, m₂) →
      V.operand value (m₂.build text) = some (d, m₃) → P.text? u d m₃ = some (more, m₄) →
      m₄.textAt m₂.free = some text
  | _ => True

/-- The code of an expression pushes its value, if the evaluation has a result. -/
structure Pushes {R : Type} (V : Valuation R) (p : Processor R) (W : Whole) (site : Site)
    (slots : LocalSlots) (x : Expr) : Prop where
  admits : ∀ (t : FieldType) (r r' : R) (d : Datum), x.type = some t →
    V.operand x r = some (d, r') → t.Admits d
  runs : ∀ (S : List Datum) (r r' : R) (d : Datum) (a b : Assembler) (slots' : LocalSlots),
    V.operand x r = some (d, r') → (x.fragment site).value slots a = .ok ((), slots') b →
    b.Grows W.assembler → a.isReachable = true →
      b.isReachable = true ∧ p.Crosses W a b ⟨S, r⟩ b.instructions.size ⟨d :: S, r'⟩

end Valuation

/-! ### Type-correct assignments -/

/-- Values of the first type can be assigned where the second is expected. -/
inductive FieldType.Assignable : FieldType → FieldType → Prop where
  | same (t : FieldType) : Assignable t t
  | widened : Assignable .int .float
  | references (t u : RefType) : Assignable (.ref t) (.ref u)

/-- Is the operator one of the three that truth values have? -/
def BinaryOp.isBitwise : BinaryOp → Bool
  | .bitAnd | .bitOr | .bitXor => true
  | _ => false

/-- The operator can change a value of the first type by one of the second. -/
inductive BinaryOp.Changes : BinaryOp → FieldType → FieldType → Prop where
  | text (u : FieldType) : Changes .add .string u
  | ints (op : BinaryOp) : Changes op .int .int
  | cut {op : BinaryOp} (h : Platform.isArithmetic op = true) : Changes op .int .float
  | rounded {op : BinaryOp} (h : Platform.isArithmetic op = true) : Changes op .float .int
  | floats {op : BinaryOp} (h : Platform.isArithmetic op = true) : Changes op .float .float
  | truths {op : BinaryOp} (h : op.isBitwise = true) : Changes op .boolean .boolean

namespace Expr

/-- **What can be assigned to**, with its type, over parts with some property. -/
inductive Target (box : Expr → Prop) (slots : LocalSlots) : Expr → FieldType → Prop where
  | var {id : LocalId} {slot : UInt16} {t : FieldType} (h : slots.lookup? id = some (slot, t)) :
    Target box slots (.var id (some t)) t
  | staticField {f : FieldRef} (h : f.isStatic = true) :
    Target box slots (.staticField f (some f.type)) f.type
  | field {object : Expr} {f : FieldRef} {u : RefType} (ho : box object)
    (hu : object.type = some (.ref u)) (h : f.isStatic = false) :
    Target box slots (.field object f (some f.type)) f.type
  | element {array index : Expr} {u : RefType} {t : FieldType} (ha : box array)
    (hi : box index) (hu : array.type = some (.ref u)) (ht : u.component? = some t)
    (hint : index.type = some .int) : Target box slots (.element array index (some t)) t

/-- **Type-correct assignments**, over parts with some property. -/
inductive Updates (box : Expr → Prop) (slots : LocalSlots) : Expr → Prop where
  | assign {target value : Expr} {t u : FieldType} (ht : Target box slots target t)
    (hv : box value) (hu : value.type = some u) (h : u.Assignable t) (type : Option FieldType) :
    Updates box slots (.assign target value type)
  | compound {op : BinaryOp} {target value : Expr} {t u : FieldType}
    (ht : Target box slots target t) (hv : box value) (hu : value.type = some u)
    (h : op.Changes t u) (type : Option FieldType) :
    Updates box slots (.compound op target value type)
  | increment {target : Expr} {t : FieldType} (ht : Target box slots target t)
    (h : t = .int ∨ t = .float) (decrement inFront : Bool) (type : Option FieldType) :
    Updates box slots (.increment target decrement inFront type)

/-- The code of an assignment, whose value may be wanted or not. -/
def updating (site : Site) (e : Expr) (wanted : Bool) : Lowering Unit :=
  if wanted then (e.fragment site).value else (e.fragment site).effect

end Expr

/-! ### The code of the parts -/

section Parts

open Lowering

variable {R : Type} {p : Processor R} {W : Whole} {site : Site} {slots : LocalSlots} {x : Expr}
  {V : Valuation R} {r r' : R} {d : Datum}

/-- A part is pushed. -/
theorem Valuation.Pushes.follows (h : V.Pushes p W site slots x)
    (hd : V.operand x r = some (d, r')) (S : List Datum) :
    p.Follows W slots (x.fragment site).value (.here ⟨S, r⟩) (.here ⟨d :: S, r'⟩) := by
  refine ⟨(x.emits site).value, fun c a _ b hrun hgrows ha => ?_⟩
  obtain ⟨hle, hreach, hsteps⟩ := ha
  obtain ⟨hreach', hpushes⟩ := h.runs S r r' d a b slots hd hrun hgrows hreach
  have hsize := ((x.emits site).value _ _ _ _ _ hrun).1.built.grows.size_le
  exact ⟨Nat.le_trans hle hsize, hreach',
    (hsteps.mono Nat.le.refl hsize).trans (hpushes.mono hle Nat.le.refl)⟩

/-- A part is pushed where a value of a type is expected. -/
theorem Valuation.Pushes.follows_converted (h : V.Pushes p W site slots x)
    (hd : V.operand x r = some (d, r')) {u : FieldType} (hu : x.type = some u) (t : FieldType)
    (S : List Datum) :
    p.Follows W slots ((x.fragment site).toOperand.converted t) (.here ⟨S, r⟩)
      (.here ⟨d.converted p.round t :: S, r'⟩) := by
  have hkind := (h.admits u r r' d hu hd).1
  unfold Operand.converted Datum.converted
  refine (h.follows hd S).bind fun _ => ?_
  rw [typeOf_of_some (Expr.type_source site hu), pure_bind]
  split
  · rename_i hint
    obtain ⟨n, rfl⟩ := Datum.eq_int (hkind.trans hint.1)
    rw [if_pos hint.2]
    exact Processor.follows_simple rfl r'
  · rename_i hint
    split
    · rename_i hfloat
      cases d with
      | int n => exact absurd ⟨hkind.symm, hfloat⟩ hint
      | float | ref => exact Processor.follows_pure ()
    · exact Processor.follows_pure ()

/-- The slot of a local is looked up. -/
theorem Processor.follows_lookup {α : Type} {id : LocalId} {found : UInt16 × FieldType}
    {f : UInt16 × FieldType → Lowering α} {e e' : Processor.Spot R}
    (h : slots.lookup? id = some found) (hemits : (lookup id >>= f).Emits)
    (hf : p.Follows W slots (f found) e e') : p.Follows W slots (lookup id >>= f) e e' where
  emits := hemits
  follows c a v b hrun hgrows ha := by
    obtain ⟨found', slots', a', hfound, hrun⟩ := Lowering.bind_eq_ok hrun
    unfold lookup at hfound
    rw [h] at hfound
    cases hfound
    exact hf.follows c a v b hrun hgrows ha

end Parts

/-! ### Places -/

open Lowering Platform in
/-- **How the code of a place deals with a cell.**  The address stands below what is pushed,
and a value that is kept comes to stand below the address. -/
structure Place.Stands {X : Type} (P : Platform X) (q : ConstantPool) (W : Whole)
    (slots : LocalSlots) (place : Place) (t : FieldType) (c : Cell) : Prop where
  copy : ∀ (S : List Datum) (m : Contents X),
    (P.processor q).Follows W slots place.copyAddress (.here ⟨c.address ++ S, m⟩)
      (.here ⟨c.address ++ (c.address ++ S), m⟩)
  load : ∀ (S : List Datum) (m : Contents X) (d : Datum), m.cells c = some d → t.Admits d →
    (P.processor q).Follows W slots (place.load t) (.here ⟨c.address ++ S, m⟩) (.here ⟨d :: S, m⟩)
  keep : ∀ (S : List Datum) (m : Contents X) (d : Datum),
    (P.processor q).Follows W slots (emit (Assembler.simple place.keep))
      (.here ⟨d :: (c.address ++ S), m⟩) (.here ⟨d :: (c.address ++ d :: S), m⟩)
  store : ∀ (S : List Datum) (m m' : Contents X) (d : Datum), P.write? c d m = some m' →
    t.Admits d → (P.processor q).Follows W slots (place.store t)
      (.here ⟨d :: (c.address ++ S), m⟩) (.here ⟨S, m'⟩)

namespace Place

open Lowering Platform

variable {X : Type} {P : Platform X} {q : ConstantPool} {W : Whole} {slots : LocalSlots}

theorem stands_slot {id : LocalId} {slot : UInt16} {t : FieldType}
    (h : slots.lookup? id = some (slot, t)) :
    Stands P q W slots (.slot id) t (.slot slot.toNat) where
  copy _ _ := Processor.follows_pure ()
  load S _ _ hd ht :=
    Processor.follows_lookup h (within_load (.slot id) t).emits (follows_loadLocal hd ht.1 S)
  keep _ m _ := follows_arrange rfl m
  store S m _ _ hwrite ht := by
    cases hwrite
    exact Processor.follows_lookup h (within_store (.slot id) t).emits
      (follows_storeLocal slot ht.1 S m)

theorem stands_staticField {f : FieldRef} (hq : W.assembler.pool.Grows q)
    (hf : f.isStatic = true) :
    Stands P q W slots (.staticField f) f.type (.shared (P.resolve f.member)) := by
  have hcell : ∀ object, P.fieldCell f object = .shared (P.resolve f.member) := fun _ => if_pos hf
  refine ⟨fun _ _ => Processor.follows_pure (), fun S m d hd _ => ?_,
    fun _ m _ => follows_arrange rfl m, fun S m _ d hwrite ht => ?_⟩
  · rw [← hcell 0] at hd ⊢
    exact follows_getField hq hd S
  · cases hwrite
    rw [← hcell 0]
    exact follows_putField hq ht S m

/-- The field of an object stands for a cell of that object, once the object is on the
stack. -/
theorem stands_field {f : FieldRef} (hq : W.assembler.pool.Grows q) (hf : f.isStatic = false)
    (code : Lowering Unit) (object : Nat) :
    Stands P q W slots (.field code f) f.type (.field object (P.resolve f.member)) := by
  have hcell : P.fieldCell f object = .field object (P.resolve f.member) :=
    if_neg (Bool.eq_false_iff.1 hf)
  refine ⟨fun _ m => follows_arrange rfl m, fun S m d hd _ => ?_,
    fun _ m _ => follows_arrange rfl m, fun S m _ d hwrite ht => ?_⟩
  · rw [← hcell] at hd ⊢
    exact follows_getField hq hd S
  · cases hwrite
    rw [← hcell]
    exact follows_putField hq ht S m

theorem stands_element {t : FieldType} (array index : Lowering Unit) (a : Nat) (i : Int32) :
    Stands P q W slots (.element array index) t (.element a i) where
  copy _ m := follows_arrange rfl m
  load S _ _ hd ht := follows_loadElement hd ht.1 S
  keep _ m _ := follows_arrange rfl m
  store S _ _ _ hwrite ht := follows_storeElement ht hwrite S

end Place

section Code

open Lowering Platform

variable {X : Type} {P : Platform X} {q : ConstantPool} {W : Whole} {site : Site}
  {slots : LocalSlots} {V : Valuation (Contents X)} {target value : Expr} {t u : FieldType}
  {place : Place} {c : Cell} {m m₁ m₂ m' : Contents X} {d old new : Datum}

/-- The datum on the stack, if it is wanted. -/
def Datum.kept (wanted : Bool) (d : Datum) : List Datum := if wanted then [d] else []

theorem Expr.Target.type_eq {box : Expr → Prop} (h : target.Target box slots t) :
    target.type = some t := by
  cases h <;> rfl

/-- **The code of a target finds its cell**, and pushes the address of it. One case for each
kind of place: a slot, a static field, the field of an object, the element of an array. -/
theorem Expr.Target.stands
    (h : target.Target (V.Pushes (P.processor q) W site slots) slots t)
    (hq : W.assembler.pool.Grows q) (hlocate : V.locate P slots target m = some (c, m')) :
    ∃ place, (target.fragment site).place = some place ∧
      Place.Stands P q W slots place t c ∧
      ∀ S, (P.processor q).Follows W slots place.address (.here ⟨S, m⟩)
        (.here ⟨c.address ++ S, m'⟩) := by
  cases h with
  | @var id slot _ h =>
    rw [Expr.fragment]
    rw [Valuation.locate, h] at hlocate
    cases hlocate
    exact ⟨_, rfl, Place.stands_slot h, fun S => Processor.follows_pure ()⟩
  | staticField h =>
    rw [Expr.fragment]
    cases hlocate
    exact ⟨_, rfl, Place.stands_staticField hq h, fun S => Processor.follows_pure ()⟩
  | field ho hu h =>
    rw [Expr.fragment]
    simp only [Valuation.locate, Option.bind_eq_bind, Option.bind_eq_some_iff] at hlocate
    obtain ⟨⟨d, m₁⟩, hd, object, hobject, hc⟩ := hlocate
    cases hc
    refine ⟨_, rfl, Place.stands_field hq h _ object, fun S => ?_⟩
    cases d with
    | ref address =>
      cases hobject
      exact ho.follows hd S
    | _ => cases hobject
  | element ha hi hu ht hint =>
    rw [Expr.fragment]
    simp only [Valuation.locate, Option.bind_eq_bind, Option.bind_eq_some_iff] at hlocate
    obtain ⟨⟨d, m₁⟩, hd, ⟨e, m₂⟩, he, array, harray, index, hindex, hc⟩ := hlocate
    cases hc
    refine ⟨_, rfl, Place.stands_element _ _ array index, fun S => ?_⟩
    cases d with
    | ref address =>
      cases e with
      | int n =>
        cases harray
        cases hindex
        exact (ha.follows hd S).bind fun _ => hi.follows he _
      | _ => cases hindex
    | _ => cases harray

/-- A value is kept below the address, if it is wanted. -/
theorem Place.Stands.follows_keepIf (h : Place.Stands P q W slots place t c) (wanted : Bool)
    (S : List Datum) (m : Contents X) (d : Datum) :
    (P.processor q).Follows W slots (place.keepIf wanted) (.here ⟨d :: (c.address ++ S), m⟩)
      (.here ⟨d :: (c.address ++ (d.kept wanted ++ S)), m⟩) := by
  cases wanted with
  | true => exact h.keep S m d
  | false => exact Processor.follows_pure ()

theorem Contents.read?_eq_some (h : m.read? t c = some d) : m.cells c = some d ∧ t.Admits d := by
  obtain ⟨hd, ht⟩ := Option.filter_eq_some_iff.1 h
  exact ⟨hd, of_decide_eq_true ht⟩

theorem Place.Stands.follows_loadForUpdate (h : Place.Stands P q W slots place t c)
    (haddress : ∀ S, (P.processor q).Follows W slots place.address (.here ⟨S, m⟩)
      (.here ⟨c.address ++ S, m₁⟩)) (hold : m₁.read? t c = some old) (S : List Datum) :
    (P.processor q).Follows W slots (place.loadForUpdate t) (.here ⟨S, m⟩)
      (.here ⟨old :: (c.address ++ S), m₁⟩) := by
  obtain ⟨hcell, hadmits⟩ := Contents.read?_eq_some hold
  exact (haddress S).bind fun _ => (h.copy S m₁).bind fun _ => h.load _ m₁ old hcell hadmits

/-! ### Values of the right type -/

theorem Datum.admits_converted (h : u.Assignable t) (hd : u.Admits d) (round : Int32 → Binary32) :
    t.Admits (d.converted round t) := by
  cases h with
  | same =>
    unfold Datum.converted
    split
    · rename_i hfloat
      cases d with
      | int n => cases hd.1.trans hfloat
      | float | ref => exact hd
    · exact hd
  | widened =>
    obtain ⟨n, rfl⟩ := Datum.eq_int hd.1
    exact .float (round n)
  | references t u =>
    obtain ⟨address, rfl⟩ := Datum.eq_ref hd.1
    exact .ref u address

/-- Of one and zero, an operator on bits makes one or zero. -/
theorem BinaryOp.admits_bitwise {op : BinaryOp} (h : op.isBitwise = true) {a b n : Int32}
    (ha : FieldType.boolean.Admits (.int a)) (hb : FieldType.boolean.Admits (.int b))
    (hn : op.ints a b = some n) : FieldType.boolean.Admits (.int n) := by
  cases op with
  | bitAnd | bitOr | bitXor =>
    cases hn
    rcases ha.2 rfl with ha | ha <;> rcases hb.2 rfl with hb | hb <;> cases ha <;> cases hb <;>
      decide
  | _ => cases h

/-! ### The operators -/

theorem Platform.combine?_floats {op : BinaryOp} (h : isArithmetic op = true) (x y : Binary32) :
    combine?.floats P op x y = some (P.arithmetic op x y) := if_pos h

/-- **A number is changed by an operand**, and stays of its type. Where the operand has a
fraction and the target none, the result is converted back. -/
theorem follows_updateArithmetic (blamed : Expr) {op : BinaryOp} (h : op.Changes t u)
    (hstring : ¬ (op = .add ∧ t = .string))
    (hv : V.Pushes (P.processor q) W site slots value) (hu : value.type = some u)
    (hold : t.Admits old) (hd : V.operand value m₁ = some (d, m₂))
    (hnew : P.combine? op old d = some new) :
    t.Admits new ∧ ∀ S, (P.processor q).Follows W slots
      (updateArithmetic blamed op t (value.fragment site).toOperand u) (.here ⟨old :: S, m₁⟩)
      (.here ⟨new :: S, m₂⟩) := by
  have hadmits := hv.admits u m₁ m₂ d hu hd
  have hvalue := hv.follows_converted hd hu
  cases h with
  | text u => exact absurd ⟨rfl, rfl⟩ hstring
  | ints op =>
    obtain ⟨a, rfl⟩ := Datum.eq_int hold.1
    obtain ⟨b, rfl⟩ := Datum.eq_int hadmits.1
    obtain ⟨n, hn, rfl⟩ := Option.map_eq_some_iff.1 hnew
    refine ⟨.int n, fun S => ?_⟩
    exact (hvalue .int _).bind fun _ => follows_operate_ints blamed hn S m₂
  | @cut op harith =>
    obtain ⟨a, rfl⟩ := Datum.eq_int hold.1
    obtain ⟨y, rfl⟩ := Datum.eq_float hadmits.1
    obtain ⟨x, hx, rfl⟩ := Option.map_eq_some_iff.1 hnew
    cases (combine?_floats harith _ _).symm.trans hx
    refine ⟨.int _, fun S => ?_⟩
    have hwiden : FieldType.int = .int ∧ FieldType.float = .float ∧ ¬ isShift op = true := by
      cases op <;> first | exact ⟨rfl, rfl, by decide⟩ | cases harith
    unfold updateArithmetic
    rw [if_pos hwiden]
    exact (Processor.follows_simple rfl m₁).bind fun _ => (hvalue .float _).bind fun _ =>
      (follows_operate_floats blamed harith _ y S m₂).bind fun _ => follows_truncate _ S m₂
  | @rounded op harith =>
    obtain ⟨x, rfl⟩ := Datum.eq_float hold.1
    obtain ⟨b, rfl⟩ := Datum.eq_int hadmits.1
    obtain ⟨z, hz, rfl⟩ := Option.map_eq_some_iff.1 hnew
    cases (combine?_floats harith _ _).symm.trans hz
    refine ⟨.float _, fun S => ?_⟩
    exact (hvalue .float _).bind fun _ => follows_operate_floats blamed harith x _ S m₂
  | @floats op harith =>
    obtain ⟨x, rfl⟩ := Datum.eq_float hold.1
    obtain ⟨y, rfl⟩ := Datum.eq_float hadmits.1
    obtain ⟨z, hz, rfl⟩ := Option.map_eq_some_iff.1 hnew
    cases (combine?_floats harith _ _).symm.trans hz
    refine ⟨.float _, fun S => ?_⟩
    exact (hvalue .float _).bind fun _ => follows_operate_floats blamed harith x y S m₂
  | @truths op hbits =>
    obtain ⟨a, rfl⟩ := Datum.eq_int hold.1
    obtain ⟨b, rfl⟩ := Datum.eq_int hadmits.1
    obtain ⟨n, hn, rfl⟩ := Option.map_eq_some_iff.1 hnew
    refine ⟨op.admits_bitwise hbits hold hadmits hn, fun S => ?_⟩
    exact (hvalue .boolean _).bind fun _ => follows_operate_ints blamed hn S m₂

/-- A string is asked for its text, which does not change anything. -/
theorem Platform.text?_string {text : String} (h : P.text? .string old m = some (text, m')) :
    m' = m ∧ ∀ other, P.text? .string old (m.build other) = some (text, m.build other) := by
  cases old with
  | int | float => cases h
  | ref address =>
    cases address with
    | none =>
      cases h
      exact ⟨rfl, fun _ => rfl⟩
    | some address =>
      obtain ⟨text', htext, heq⟩ := Option.map_eq_some_iff.1 h
      cases heq
      refine ⟨rfl, fun other => ?_⟩
      exact congrArg (Option.map _) (Contents.textAt_build htext other)

/-- **A text is joined to the one on the stack.** -/
theorem follows_updateString (hq : W.assembler.pool.Grows q)
    (hv : V.Pushes (P.processor q) W site slots value) {text more : String}
    (htext : P.text? .string old m = some (text, m))
    (hd : V.operand value (m.build text) = some (d, m₁)) (hmore : P.text? u d m₁ = some (more, m₂))
    (hbuilder : m₂.textAt m.free = some text) (S : List Datum) :
    (P.processor q).Follows W slots
      (updateString .string (value.fragment site).toOperand u) (.here ⟨old :: S, m⟩)
      (.here ⟨.ref (some m₂.free) :: S,
        (m₂.setText m.free (text ++ more)).build (text ++ more)⟩) := by
  have hempty := (text?_string htext).2 ""
  have hfirst : (m.build "").setText m.free ("" ++ text) = m.build text := by
    rw [String.empty_append]
    exact Contents.setText_setText _ _ _ _
  refine (follows_newBuilder hq _ m).bind fun _ => (follows_arrange rfl _).bind fun _ => ?_
  refine (follows_append hq hempty (Contents.textAt_build_free m "") S).bind fun _ => ?_
  rw [hfirst]
  refine (hv.follows hd _).bind fun _ => (follows_append hq hmore hbuilder S).bind fun _ => ?_
  exact follows_builderString hq (Contents.textAt_setText hbuilder _) S

/-! ### The assignments -/

/-- Wherever the meaning of the operand's change is given, the code does it, and the value
stays of its type. -/
theorem follows_update (hq : W.assembler.pool.Grows q) (blamed : Expr) {op : BinaryOp}
    (h : op.Changes t u) (hv : V.Pushes (P.processor q) W site slots value)
    (hu : value.type = some u) (hold : t.Admits old)
    (hnew : V.updated P op t u value old m = some (new, m'))
    (hbuilder : ∀ (d : Datum) (text more : String) (m₁ m₂ m₃ : Contents X), t = .string →
      P.text? .string old m = some (text, m₁) →
      V.operand value (m₁.build text) = some (d, m₂) → P.text? u d m₂ = some (more, m₃) →
      m₃.textAt m₁.free = some text) :
    t.Admits new ∧ ∀ S, (P.processor q).Follows W slots
      (if op = .add ∧ t = .string then updateString t (value.fragment site).toOperand u
        else updateArithmetic blamed op t (value.fragment site).toOperand u)
      (.here ⟨old :: S, m⟩) (.here ⟨new :: S, m'⟩) := by
  unfold Valuation.updated at hnew
  by_cases hstring : op = .add ∧ t = .string
  · obtain ⟨rfl, rfl⟩ := hstring
    rw [if_pos ⟨rfl, rfl⟩] at hnew ⊢
    simp only [Valuation.joined, Option.bind_eq_bind, Option.bind_eq_some_iff] at hnew
    obtain ⟨⟨text, m₁⟩, htext, ⟨d, m₂⟩, hd, ⟨more, m₃⟩, hmore, hnew⟩ := hnew
    cases hnew
    obtain rfl := (text?_string htext).1
    refine ⟨.ref _ _, fun S => ?_⟩
    exact follows_updateString hq hv htext hd hmore
      (hbuilder d text more _ m₂ m₃ rfl htext hd hmore) S
  · rw [if_neg hstring] at hnew ⊢
    simp only [Option.bind_eq_bind, Option.bind_eq_some_iff] at hnew
    obtain ⟨⟨d, m₁⟩, hd, new', hnew', hnew⟩ := hnew
    cases hnew
    exact follows_updateArithmetic blamed h hstring hv hu hold hd hnew'

/-- **One is added to a number, or taken from it.** For integers and numbers with a fraction
this is the same code up to the instruction that adds. -/
theorem follows_one_more (blamed : Expr) (h : t = .int ∨ t = .float) (hold : t.Admits old)
    (decrement : Bool)
    (hnew : P.combine? (if decrement then .sub else .add) old (.int 1) = some new) :
    t.Admits new ∧ ∀ S, (P.processor q).Follows W slots
      (do
        pushOne blamed t.kind
        operate blamed (if decrement then .sub else .add) t.kind)
      (.here ⟨old :: S, m⟩) (.here ⟨new :: S, m⟩) := by
  rcases h with rfl | rfl
  · obtain ⟨a, rfl⟩ := Datum.eq_int hold.1
    obtain ⟨n, hn, rfl⟩ := Option.map_eq_some_iff.1 hnew
    refine ⟨.int n, fun S => ?_⟩
    have hpush : Processor.work? P.round .iconst1 (.int a :: S) = some (.int 1 :: .int a :: S) :=
      rfl
    exact (Processor.follows_simple hpush m).bind fun _ => follows_operate_ints blamed hn S m
  · obtain ⟨x, rfl⟩ := Datum.eq_float hold.1
    obtain ⟨z, hz, rfl⟩ := Option.map_eq_some_iff.1 hnew
    have harith : isArithmetic (if decrement then .sub else .add) = true := by
      cases decrement <;> rfl
    cases (combine?_floats harith _ _).symm.trans hz
    refine ⟨.float _, fun S => ?_⟩
    exact (follows_one _ m).bind fun _ => follows_operate_floats blamed harith x _ S m

section Update

variable (hq : W.assembler.pool.Grows q)
  (ht : target.Target (V.Pushes (P.processor q) W site slots) slots t)

include hq ht

/-- **An assignment.** -/
theorem follows_assign (hv : V.Pushes (P.processor q) W site slots value)
    (hu : value.type = some u) (h : u.Assignable t)
    (hlocate : V.locate P slots target m = some (c, m₁))
    (hd : V.operand value m₁ = some (d, m₂))
    (hwrite : P.write? c (d.converted P.round t) m₂ = some m') (wanted : Bool) (S : List Datum) :
    (P.processor q).Follows W slots
      (assign (target.fragment site) (value.fragment site).toOperand wanted) (.here ⟨S, m⟩)
      (.here ⟨(d.converted P.round t).kept wanted ++ S, m'⟩) := by
  obtain ⟨place, hplace, hstands, haddress⟩ := ht.stands hq hlocate
  have hadmits := Datum.admits_converted h (hv.admits u _ _ _ hu hd) P.round
  unfold assign placeOf
  rw [typeOf_of_some (Expr.type_source site ht.type_eq), pure_bind, hplace]
  dsimp only
  rw [pure_bind]
  refine (haddress S).bind fun _ => (hv.follows_converted hd hu t _).bind fun _ => ?_
  exact (hstands.follows_keepIf wanted S m₂ _).bind fun _ => hstands.store _ m₂ m' _ hwrite hadmits

/-- **A change by an operator**, through the stack. The cell is read before the operand is
evaluated, as its address was, and written when the result is there. -/
theorem follows_compoundThrough {op : BinaryOp} (h : op.Changes t u)
    (hv : V.Pushes (P.processor q) W site slots value) (hu : value.type = some u)
    (hlocate : V.locate P slots target m = some (c, m₁)) (hold : m₁.read? t c = some old)
    (hnew : V.updated P op t u value old m₁ = some (new, m₂))
    (hbuilder : ∀ (d : Datum) (text more : String) (m₂ m₃ m₄ : Contents X), t = .string →
      P.text? .string old m₁ = some (text, m₂) →
      V.operand value (m₂.build text) = some (d, m₃) → P.text? u d m₃ = some (more, m₄) →
      m₄.textAt m₂.free = some text)
    (hwrite : P.write? c new m₂ = some m') (wanted : Bool) (S : List Datum) :
    (P.processor q).Follows W slots
      (compoundThrough (target.fragment site) op (value.fragment site).toOperand t u wanted)
      (.here ⟨S, m⟩) (.here ⟨new.kept wanted ++ S, m'⟩) := by
  obtain ⟨place, hplace, hstands, haddress⟩ := ht.stands hq hlocate
  obtain ⟨hadmits, hupdate⟩ := follows_update hq (target.fragment site).source h hv hu
    (Contents.read?_eq_some hold).2 hnew hbuilder
  unfold compoundThrough placeOf
  rw [hplace]
  dsimp only
  rw [pure_bind]
  refine (hstands.follows_loadForUpdate haddress hold S).bind fun _ => ?_
  have hupdate := hupdate (c.address ++ S)
  have hrest := (hstands.follows_keepIf wanted S m₂ new).bind fun _ =>
    hstands.store _ m₂ m' new hwrite hadmits
  split
  · rename_i hstring
    rw [if_pos hstring] at hupdate
    exact hupdate.bind fun _ => hrest
  · rename_i hstring
    rw [if_neg hstring] at hupdate
    exact hupdate.bind fun _ => hrest

/-- **A change by one**, through the stack. What is left is the value before the change or
the one after it, by the side on which the operator stands. -/
theorem follows_incrementThrough (h : t = .int ∨ t = .float)
    (hlocate : V.locate P slots target m = some (c, m₁)) (hold : m₁.read? t c = some old)
    (decrement inFront : Bool)
    (hnew : P.combine? (if decrement then .sub else .add) old (.int 1) = some new)
    (hwrite : P.write? c new m₁ = some m') (wanted : Bool) (S : List Datum) :
    (P.processor q).Follows W slots
      (incrementThrough (target.fragment site) t decrement inFront wanted) (.here ⟨S, m⟩)
      (.here ⟨(if inFront then new else old).kept wanted ++ S, m'⟩) := by
  obtain ⟨place, hplace, hstands, haddress⟩ := ht.stands hq hlocate
  obtain ⟨hadmits, hone⟩ := follows_one_more (target.fragment site).source h
    (Contents.read?_eq_some hold).2 decrement hnew
  unfold incrementThrough placeOf
  rw [hplace]
  dsimp only
  rw [pure_bind]
  refine (hstands.follows_loadForUpdate haddress hold S).bind fun _ => ?_
  refine (hstands.follows_keepIf (wanted && !inFront) S m₁ old).bind fun _ => ?_
  rw [← bind_assoc]
  refine (hone _).bind fun _ => ?_
  refine (hstands.follows_keepIf (wanted && inFront) _ m₁ new).bind fun _ => ?_
  have hkept : (if inFront then new else old).kept wanted ++ S =
      new.kept (wanted && inFront) ++ (old.kept (wanted && !inFront) ++ S) := by
    cases wanted <;> cases inFront <;> rfl
  rw [hkept]
  exact hstands.store _ m₁ m' new hwrite hadmits

end Update

/-- An integer local is changed by one, in place. -/
theorem follows_incrementSlot {id : LocalId} {slot : UInt16} {n : Int32}
    (hslot : slots.lookup? id = some (slot, .int))
    (hn : m.cells (.slot slot.toNat) = some (.int n)) (decrement inFront : Bool)
    (hnew : P.combine? (if decrement then .sub else .add) (.int n) (.int 1) = some new)
    (wanted : Bool) (S : List Datum) :
    (P.processor q).Follows W slots (incrementSlot id .int decrement inFront wanted) (.here ⟨S, m⟩)
      (.here ⟨(if inFront then new else .int n).kept wanted ++ S,
        m.set (.slot slot.toNat) new⟩) := by
  have hsum : new = .int (n + (if decrement then (-1 : Int16) else 1).toInt32) := by
    cases decrement with
    | false =>
      cases hnew
      rfl
    | true =>
      cases hnew
      exact congrArg Datum.int (Int32.sub_eq_add_neg n 1)
  have hincrement : ∀ S, (P.processor q).Follows W slots
      (emit (Assembler.increment slot (if decrement then -1 else 1))) (.here ⟨S, m⟩)
      (.here ⟨S, m.set (.slot slot.toNat) new⟩) := by
    intro S
    rw [hsum]
    exact follows_increment hn _ S
  refine Processor.follows_lookup hslot
    (within_incrementSlot id .int decrement inFront wanted).emits ?_
  cases wanted with
  | false => exact (hincrement S).bind fun _ => Processor.follows_pure ()
  | true =>
    cases inFront with
    | false =>
      exact (follows_loadLocal hn rfl S).bind fun _ => (hincrement _).bind fun _ =>
        Processor.follows_pure ()
    | true =>
      have hkind : new.kind = FieldType.int.kind := by rw [hsum]; rfl
      exact (hincrement S).bind fun _ => follows_loadLocal (m.cells_set_self _ new) hkind S

/-- Only a local stands in a slot. -/
theorem Expr.Target.eq_var {box : Expr → Prop} {id : LocalId} (h : target.Target box slots t)
    (hplace : (target.fragment site).place = some (.slot id)) :
    ∃ slot, target = .var id (some t) ∧ slots.lookup? id = some (slot, t) := by
  cases h with
  | var h =>
    rw [Expr.fragment] at hplace
    cases hplace
    exact ⟨_, rfl, h⟩
  | staticField | field | element =>
    rw [Expr.fragment] at hplace
    cases hplace

section Whole

variable (hq : W.assembler.pool.Grows q)
  (ht : target.Target (V.Pushes (P.processor q) W site slots) slots t)
  (hlocate : V.locate P slots target m = some (c, m₁)) (hold : m₁.read? t c = some old)

include hq ht hlocate hold

/-- **A change by an operator**, in place if that is possible. A small constant that is
added to an integer in a slot needs one instruction only, and does the same. -/
theorem follows_compound {op : BinaryOp} (h : op.Changes t u)
    (hv : V.Pushes (P.processor q) W site slots value) (hu : value.type = some u)
    (hnew : V.updated P op t u value old m₁ = some (new, m₂))
    (hbuilder : ∀ (d : Datum) (text more : String) (m₂ m₃ m₄ : Contents X), t = .string →
      P.text? .string old m₁ = some (text, m₂) →
      V.operand value (m₂.build text) = some (d, m₃) → P.text? u d m₃ = some (more, m₄) →
      m₄.textAt m₂.free = some text)
    (hwrite : P.write? c new m₂ = some m') (wanted : Bool) (S : List Datum) :
    (P.processor q).Follows W slots
      (compound op (target.fragment site) (value.fragment site).toOperand wanted)
      (.here ⟨S, m⟩) (.here ⟨new.kept wanted ++ S, m'⟩) := by
  have hthrough := follows_compoundThrough hq ht h hv hu hlocate hold hnew hbuilder hwrite wanted S
  unfold compound
  rw [typeOf_of_some (Expr.type_source site ht.type_eq), pure_bind,
    typeOf_of_some (Expr.type_source site hu), pure_bind]
  split
  · rename_i id amount hplace hamount
    split
    · rename_i hint
      obtain ⟨hwanted, rfl⟩ := hint
      obtain rfl := Bool.eq_false_iff.2 hwanted
      -- the operand is a literal, which is not pushed
      obtain ⟨slot, rfl, hslot⟩ := ht.eq_var hplace
      obtain ⟨n, type, hsource, hadds⟩ := incrementAmount_eq_some hamount
      rw [Expr.source_fragment] at hsource
      subst hsource
      rw [Valuation.locate, hslot] at hlocate
      cases hlocate
      obtain ⟨hcell, hadmits⟩ := Contents.read?_eq_some hold
      obtain ⟨a, rfl⟩ := Datum.eq_int hadmits.1
      have hcombine : P.combine? op (.int a) (.int n) = some (.int (a + amount.toInt32)) := by
        rw [combine?, hadds, Option.map_some]
      have hstring : ¬ (op = .add ∧ FieldType.int = .string) := fun h =>
        absurd h.2 (by decide)
      rw [Valuation.updated, if_neg hstring] at hnew
      simp only [Valuation.operand, Option.bind_eq_bind, Option.bind_some, hcombine] at hnew
      cases hnew
      cases hwrite
      exact Processor.follows_lookup hslot
        ((within_lookup id).emits.bind fun _ => emits_emit (.common (.increment _ _)))
        (follows_increment hcell amount S)
    · exact hthrough
  · exact hthrough

/-- **A change by one**, in place if that is possible. An integer in a slot is counted up by
one instruction, and does the same as the way through the stack. -/
theorem follows_incremented (h : t = .int ∨ t = .float) (decrement inFront : Bool)
    (hnew : P.combine? (if decrement then .sub else .add) old (.int 1) = some new)
    (hwrite : P.write? c new m₁ = some m') (wanted : Bool) (S : List Datum) :
    (P.processor q).Follows W slots
      (Lowering.increment (target.fragment site) decrement inFront wanted) (.here ⟨S, m⟩)
      (.here ⟨(if inFront then new else old).kept wanted ++ S, m'⟩) := by
  have hthrough := follows_incrementThrough hq ht h hlocate hold decrement inFront hnew hwrite
    wanted S
  unfold Lowering.increment
  rw [typeOf_of_some (Expr.type_source site ht.type_eq), pure_bind]
  split
  · rename_i id hplace
    split
    · rename_i hint
      subst hint
      obtain ⟨slot, rfl, hslot⟩ := ht.eq_var hplace
      rw [Valuation.locate, hslot] at hlocate
      cases hlocate
      cases hwrite
      obtain ⟨hcell, hadmits⟩ := Contents.read?_eq_some hold
      obtain ⟨n, rfl⟩ := Datum.eq_int hadmits.1
      exact follows_incrementSlot hslot hcell decrement inFront hnew wanted S
    · exact hthrough
  · exact hthrough

end Whole

/-- **The code of an assignment does what it means.** The cell has the new value, no other
cell has changed, and what is left on the stack is the value that the expression has. -/
theorem Expr.Updates.follows {e : Expr} {change : Change X}
    (h : e.Updates (V.Pushes (P.processor q) W site slots) slots)
    (hq : W.assembler.pool.Grows q) (hbuilder : V.Discreet P slots e m)
    (hchange : V.change P slots e m = some change)
    (hwrite : P.write? change.cell change.value change.before = some m') (wanted : Bool)
    (S : List Datum) :
    (P.processor q).Follows W slots (e.updating site wanted) (.here ⟨S, m⟩)
      (.here ⟨change.worth.kept wanted ++ S, m'⟩) := by
  cases h with
  | assign ht hv hu h type =>
    simp only [Valuation.change, ht.type_eq, Option.bind_eq_bind, Option.bind_some,
      Option.bind_eq_some_iff] at hchange
    obtain ⟨⟨c, m₁⟩, hlocate, ⟨d, m₂⟩, hd, hchange⟩ := hchange
    cases hchange
    have hcode := follows_assign hq ht hv hu h hlocate hd hwrite wanted S
    unfold Expr.updating
    rw [Expr.fragment]
    cases wanted <;> exact hcode
  | compound ht hv hu h type =>
    simp only [Valuation.change, ht.type_eq, hu, Option.bind_eq_bind, Option.bind_some,
      Option.bind_eq_some_iff] at hchange
    obtain ⟨⟨c, m₁⟩, hlocate, old, hold, ⟨new, m₂⟩, hnew, hchange⟩ := hchange
    cases hchange
    have hcode := follows_compound hq ht hlocate hold h hv hu hnew
      (fun d text more m₂ m₃ m₄ hstring => by
        subst hstring
        exact hbuilder _ c old d text more m₁ m₂ m₃ m₄ ht.type_eq hu hlocate hold)
      hwrite wanted S
    unfold Expr.updating
    rw [Expr.fragment]
    cases wanted <;> exact hcode
  | increment ht h decrement inFront type =>
    simp only [Valuation.change, ht.type_eq, Option.bind_eq_bind, Option.bind_some,
      Option.bind_eq_some_iff] at hchange
    obtain ⟨⟨c, m₁⟩, hlocate, old, hold, new, hnew, hchange⟩ := hchange
    cases hchange
    have hcode := follows_incremented hq ht hlocate hold h decrement inFront hnew hwrite wanted S
    unfold Expr.updating
    rw [Expr.fragment]
    cases wanted <;> exact hcode

/-- **Assignments change one cell, once.**  Wherever an assignment has a meaning, its code
runs from its start to its end.  The contents behind it are those in which all parts have
been evaluated, once and from left to right, but for the cell that is assigned to; and the
stack is as before, with what the expression is worth on top if that is wanted. -/
theorem Valuation.update_runs (V : Valuation (Contents X)) (P : Platform X) (q : ConstantPool)
    (W : Whole) (hq : W.assembler.pool.Grows q) (site : Site) (slots slots' : LocalSlots)
    (e : Expr) (he : e.Updates (V.Pushes (P.processor q) W site slots) slots)
    (m m' : Contents X) (hbuilder : V.Discreet P slots e m) (change : Change X)
    (hchange : V.change P slots e m = some change)
    (hwrite : P.write? change.cell change.value change.before = some m') (wanted : Bool)
    (a b : Assembler) (ha : a.isReachable = true) (hgrows : b.Grows W.assembler)
    (hrun : e.updating site wanted slots a = .ok ((), slots') b) (S : List Datum) :
    b.isReachable = true ∧
      (P.processor q).Crosses W a b ⟨S, m⟩ b.instructions.size
        ⟨if wanted then change.worth :: S else S, m'⟩ ∧
      m'.cells change.cell = some change.value ∧
      (∀ c, c ≠ change.cell → m'.cells c = change.before.cells c) ∧
      m'.texts = change.before.texts ∧ m'.free = change.before.free ∧
      m'.beside = change.before.beside := by
  have hat := ((he.follows hq hbuilder hchange hwrite wanted S).crosses hrun hgrows ha).2
  have hkept : change.worth.kept wanted ++ S = if wanted then change.worth :: S else S := by
    cases wanted <;> rfl
  rw [hkept] at hat
  obtain rfl := P.eq_set_of_write hwrite
  exact ⟨hat.1, hat.2, change.before.cells_set_self _ _,
    fun c hc => change.before.cells_set_ne hc _, rfl, rfl, rfl⟩

/-- A local is pushed if it is worth what its slot holds. -/
theorem Valuation.pushes_slot {id : LocalId} {slot : UInt16}
    (hslot : slots.lookup? id = some (slot, t))
    (hV : ∀ m, V (.var id (some t)) m = (m.read? t (.slot slot.toNat)).map (·, m)) :
    V.Pushes (P.processor q) W site slots (.var id (some t)) where
  admits t' r r' d ht hd := by
    cases ht
    obtain ⟨d', hread, heq⟩ := Option.map_eq_some_iff.1 ((hV r).symm.trans hd)
    cases heq
    exact (Contents.read?_eq_some hread).2
  runs S r r' d a b slots' hd hrun hgrows ha := by
    obtain ⟨d', hread, heq⟩ := Option.map_eq_some_iff.1 ((hV r).symm.trans hd)
    cases heq
    obtain ⟨hcell, hadmits⟩ := Contents.read?_eq_some hread
    rw [Expr.fragment] at hrun
    have hcode := (Place.stands_slot (P := P) (q := q) (W := W) hslot).load S r d hcell hadmits
    exact (hcode.crosses hrun hgrows ha).2

/-- **An assignment may be a part of another one.** -/
theorem Valuation.pushes_update {U : Valuation (Contents X)} {e : Expr}
    (he : e.Updates (U.Pushes (P.processor q) W site slots) slots)
    (hq : W.assembler.pool.Grows q) (hbuilder : ∀ m, U.Discreet P slots e m)
    (hV : ∀ m, V.operand e m = (U.change P slots e m).bind fun change =>
      (P.write? change.cell change.value change.before).map (change.worth, ·))
    (hadmits : ∀ (t : FieldType) (m : Contents X) (change : Change X), e.type = some t →
      U.change P slots e m = some change → t.Admits change.worth) :
    V.Pushes (P.processor q) W site slots e where
  admits t r r' d ht hd := by
    obtain ⟨change, hchange, hwrite⟩ := Option.bind_eq_some_iff.1 ((hV r).symm.trans hd)
    obtain ⟨m', -, heq⟩ := Option.map_eq_some_iff.1 hwrite
    cases heq
    exact hadmits t r change ht hchange
  runs S r r' d a b slots' hd hrun hgrows ha := by
    obtain ⟨change, hchange, hwrite⟩ := Option.bind_eq_some_iff.1 ((hV r).symm.trans hd)
    obtain ⟨m', hwrite, heq⟩ := Option.map_eq_some_iff.1 hwrite
    cases heq
    exact ((he.follows hq (hbuilder r) hchange hwrite true S).crosses hrun hgrows ha).2

end Code

/-! ### An element that is changed -/

/-- A platform that can work out `40 + 2.5`. -/
def adder : Platform Unit where
  round n := if n = 1 then ⟨0x3F800000⟩ else ⟨0x42200000⟩
  truncate _ := 42
  arithmetic _ _ _ := ⟨0x422A0000⟩
  resolve _ := 0
  takes _ _ := true
  floatText _ := "2.5"
  describe _ m := ("", m)
  test := id
  other _ _ _ _ := none
  round_one := rfl

/-- An array of two integers, zero, and `2.5`. -/
def twoElements : Contents Unit where
  cells
    | .slot 0 => some (.ref (some 7))
    | .slot 1 => some (.int 0)
    | .slot 2 => some (.float ⟨0x40200000⟩)
    | .element 7 0 => some (.int 40)
    | .element 7 1 => some (.int 50)
    | _ => none
  texts _ := none
  free := 8
  beside := ()

/-- The assignment `xs[i++] += x`. -/
def stepped : Expr :=
  .compound .add
    (.element (Sample.var 0 Sample.ints) (.increment (Sample.var 1 .int) false false (some .int))
      (some .int))
    (Sample.var 2 .float) (some .int)

/-- A method in which the locals are parameters. -/
def steppedSite : Site where
  settings := {}
  owner := Sample.counter Sample.counterName
  method :=
    { name := ⟨"stepped", by decide⟩
      flags := Sample.publicStatic
      parameters := [⟨⟨0⟩, Sample.ints⟩, ⟨⟨1⟩, .int⟩, ⟨⟨2⟩, .float⟩]
      returns := some .int
      body := [.returnValue (some stepped)] }

/-- Locals are worth what their slots hold. -/
def slotValues (slots : LocalSlots) : Valuation (Contents Unit)
  | .var id (some t), m => do
    let (slot, _) ← slots.lookup? id
    (m.read? t (.slot slot.toNat)).map (·, m)
  | _, _ => none

/-- A local can also be changed by one. -/
def steppedValues (slots : LocalSlots) : Valuation (Contents Unit)
  | .increment target decrement inFront type, m => do
    let change ← (slotValues slots).change adder slots (.increment target decrement inFront type) m
    (adder.write? change.cell change.value change.before).map (change.worth, ·)
  | e, m => slotValues slots e m

/-- The first element becomes `42`, the index is one more, and nothing else changes. -/
theorem stepped_runs :
    ∃ (slots : LocalSlots) (W : Whole) (b : Assembler) (change : Change Unit) (m : Contents Unit),
      steppedSite.slots = .ok slots ∧
      stepped.Updates ((steppedValues slots).Pushes (adder.processor W.assembler.pool) W
        steppedSite slots) slots ∧
      (steppedValues slots).change adder slots stepped twoElements = some change ∧
      adder.write? change.cell change.value change.before = some m ∧
      stepped.updating steppedSite true slots (.start .empty steppedSite.entry) =
        .ok ((), slots) b ∧
      (adder.processor W.assembler.pool).Crosses W (.start .empty steppedSite.entry) b
        ⟨[], twoElements⟩ 11 ⟨[.int 42], m⟩ ∧
      m.cells (.element 7 0) = some (.int 42) ∧ m.cells (.element 7 1) = some (.int 50) ∧
      m.cells (.slot 1) = some (.int 1) := by
  have hruns : steppedSite.slots.toOption.any (fun slots =>
      decide (slots.lookup? ⟨0⟩ = some (0, Sample.ints)) &&
      decide (slots.lookup? ⟨1⟩ = some (1, .int)) &&
      decide (slots.lookup? ⟨2⟩ = some (2, .float)) &&
      ((steppedValues slots).change adder slots stepped twoElements).any (fun change =>
        decide (change.cell = .element 7 0) && decide (change.value = .int 42) &&
        decide (change.worth = .int 42) && decide (change.before.cells (.slot 1) = some (.int 1)) &&
        decide (change.before.cells (.element 7 1) = some (.int 50)) &&
        (adder.write? change.cell change.value change.before).isSome) &&
      (outcome? (stepped.updating steppedSite true slots (.start .empty steppedSite.entry))).any
        fun out => decide (out.2.instructions.size = 11) &&
          out.2.labels.all fun state => !state.jumpedTo || state.placed.isSome) = true := by
    decide +kernel
  obtain ⟨slots, hslots, hruns⟩ := exists_of_toOption hruns
  simp only [Bool.and_eq_true, decide_eq_true_eq] at hruns
  obtain ⟨⟨⟨⟨hzero, hone⟩, htwo⟩, hchange⟩, hruns⟩ := hruns
  obtain ⟨change, hchange, htest⟩ := (Option.any_eq_true _ _).1 hchange
  simp only [Bool.and_eq_true, decide_eq_true_eq] at htest
  obtain ⟨⟨⟨⟨⟨hcell, hvalue⟩, hworth⟩, hindex⟩, hother⟩, hwrite⟩ := htest
  obtain ⟨m, hwrite⟩ := Option.isSome_iff_exists.1 hwrite
  obtain ⟨⟨⟨⟩, slots'⟩, b, hrun, htest⟩ := exists_of_outcome hruns
  rw [Bool.and_eq_true, decide_eq_true_eq] at htest
  obtain ⟨hsize, hplaced⟩ := htest
  let W := Whole.ofPlaced b hplaced
  have hq : W.assembler.pool.Grows b.pool := .refl _
  have hslot : ∀ {id : LocalId} {slot : UInt16} {t : FieldType},
      slots.lookup? id = some (slot, t) → (steppedValues slots).Pushes (adder.processor b.pool) W
        steppedSite slots (.var id (some t)) := fun h =>
    Valuation.pushes_slot h fun m => by
      change (slots.lookup? _).bind _ = _
      rw [h, Option.bind_some]
  have hstep : (steppedValues slots).Pushes (adder.processor b.pool) W steppedSite slots
      (.increment (Sample.var 1 .int) false false (some .int)) := by
    refine Valuation.pushes_update (U := slotValues slots)
      (.increment (.var hone) (.inl rfl) false false _) hq (fun _ => trivial) (fun _ => rfl) ?_
    rintro _ m change ⟨⟩ hchange
    simp only [Valuation.change, Option.bind_eq_bind, Option.bind_eq_some_iff] at hchange
    obtain ⟨t, ht, ⟨c, m₁⟩, -, old, hold, new, -, hchange⟩ := hchange
    cases ht
    cases hchange
    exact (Contents.read?_eq_some hold).2
  have hupdates : stepped.Updates ((steppedValues slots).Pushes (adder.processor b.pool) W
      steppedSite slots) slots :=
    .compound (.element (hslot hzero) hstep rfl rfl rfl) (hslot htwo) rfl (.cut rfl) _
  have hbuilder : (steppedValues slots).Discreet adder slots stepped twoElements :=
    fun _ _ _ _ _ _ _ _ _ _ h => absurd h (by decide)
  obtain ⟨-, rfl⟩ := (stepped.emits steppedSite).value _ _ _ _ _ hrun
  obtain ⟨-, hcrosses, hcells, hothers, -⟩ := (steppedValues slots').update_runs adder b.pool W hq
    steppedSite slots' slots' stepped hupdates twoElements m hbuilder change hchange hwrite true _ b
    rfl (.refl b) hrun []
  rw [hsize, hworth] at hcrosses
  rw [hcell, hvalue] at hcells
  rw [hcell] at hothers
  exact ⟨slots', W, b, change, m, hslots, hupdates, hchange, hwrite, hrun, hcrosses, hcells,
    (hothers _ (by decide)).trans hother, (hothers _ (by decide)).trans hindex⟩

end ClassForge
