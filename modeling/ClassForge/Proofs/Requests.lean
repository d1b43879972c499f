/-
# What a constant pool answers

Specification, section 5: insertion exactly once, idempotent lookup.

A pool is asked for one thing after the other (`Request`), and answers with an index or
says that it is full.  Some requests are for a single constant; others are for a
constant with all that it is made of (`Item`), and add several constants or none:

| request | what it needs |
| --- | --- |
| a text, a number | one constant |
| a class, a string, a name and type over indices that were answered | one constant |
| a string | the text and the string |
| a class or an array type | the name and the class |
| a field or a method | its class, its name and type, and itself |

What a request needs is a set: the name of a class may also be that of its method, and
is then stored once.  The pool refuses a request just if the constants that it holds
and those that are missing are too many together (`Session.answers_right`); to know
which are missing before any is added, one has to know that no constant names an index
that is not given away yet (`Tidy`).
-/

import ClassForge.Proofs.ClassStorage
import Mathlib.Data.Finset.Card

namespace ClassForge

/-! ### Constants with what they are made of -/

/-- The constants that are made of one other. -/
inductive Wrapper where
  | classRef
  | string
deriving DecidableEq

/-- The constant, given the index of the other. -/
def Wrapper.constant : Wrapper → UInt16 → Constant
  | .classRef, name => .classRef name
  | .string, text => .string text

/-- The constants that are made of two others. -/
inductive Pairing where
  | nameAndType
  | fieldRef
  | methodRef (isInterface : Bool)
deriving DecidableEq

/-- The constant, given the indices of the others. -/
def Pairing.constant : Pairing → UInt16 → UInt16 → Constant
  | .nameAndType, name, descriptor => .nameAndType name descriptor
  | .fieldRef, owner, member => .fieldRef owner member
  | .methodRef isInterface, owner, member => .methodRef owner member isInterface

/-- A constant with the constants that it is made of in place of their indices. -/
inductive Item where
  | text (text : String)
  | wrap (kind : Wrapper) (part : Item)
  | pair (kind : Pairing) (first second : Item)
deriving DecidableEq

namespace Item

/-- The class with the given name. -/
def classNamed (name : String) : Item := .wrap .classRef (.text name)

/-- A name and a descriptor. -/
def nameAndType (name descriptor : String) : Item :=
  .pair .nameAndType (.text name) (.text descriptor)

/-- The constants that a constant needs, itself among them. -/
def needs : Item → Finset Item
  | .text s => {.text s}
  | .wrap kind part => part.needs ∪ {.wrap kind part}
  | .pair kind first second => first.needs ∪ (second.needs ∪ {.pair kind first second})

/-- The index of a constant, for which all that is new is added. -/
def intern : Item → Interning UInt16
  | .text s => ConstantPool.intern (.utf8 s)
  | .wrap kind part => do
    let part ← part.intern
    ConstantPool.intern (kind.constant part)
  | .pair kind first second => do
    let first ← first.intern
    let second ← second.intern
    ConstantPool.intern (kind.constant first second)

end Item

/-- The indices of the constants that a constant names. -/
def Constant.references : Constant → List UInt16
  | .classRef name => [name]
  | .string text => [text]
  | .nameAndType name descriptor => [name, descriptor]
  | .fieldRef owner member | .methodRef owner member _ => [owner, member]
  | .methodHandle _ target => [target]
  | .methodType descriptor => [descriptor]
  | .invokeDynamic _ member => [member]
  | .integer _ | .float _ | .long _ | .double _ | .utf8 _ => []

namespace Wrapper

theorem constant_inj {k l : Wrapper} {i j : UInt16} :
    k.constant i = l.constant j ↔ k = l ∧ i = j := by
  cases k <;> cases l <;> simp [constant]

theorem references_constant (k : Wrapper) (i : UInt16) : (k.constant i).references = [i] := by
  cases k <;> rfl

theorem width_constant (k : Wrapper) (i : UInt16) : (k.constant i).width = 1 := by
  cases k <;> rfl

end Wrapper

namespace Pairing

theorem constant_inj {k l : Pairing} {i j i' j' : UInt16} :
    k.constant i j = l.constant i' j' ↔ k = l ∧ i = i' ∧ j = j' := by
  cases k <;> cases l <;> simp [constant, and_comm, and_left_comm]

theorem references_constant (k : Pairing) (i j : UInt16) :
    (k.constant i j).references = [i, j] := by
  cases k <;> rfl

theorem width_constant (k : Pairing) (i j : UInt16) : (k.constant i j).width = 1 := by
  cases k <;> rfl

end Pairing

theorem Wrapper.constant_ne_utf8 (k : Wrapper) (i : UInt16) (text : String) :
    k.constant i ≠ .utf8 text := by
  cases k <;> nofun

/-- A pair is no text. -/
theorem Pairing.constant_ne_utf8 (k : Pairing) (i j : UInt16) (text : String) :
    k.constant i j ≠ .utf8 text := by
  cases k <;> nofun

theorem Pairing.constant_ne_wrapper (k : Pairing) (l : Wrapper) (i j n : UInt16) :
    k.constant i j ≠ l.constant n := by
  cases k <;> cases l <;> nofun

namespace ConstantPool

variable {p q r : ConstantPool} {x y : Item} {i j : UInt16}

/-! ### What an index stands for -/

/-- The index is that of the constant, and the constants that it names are those that
it is made of. -/
def Stands (p : ConstantPool) : Item → UInt16 → Prop
  | .text text, index => p.get? index = some (.utf8 text)
  | .wrap kind part, index => ∃ i, p.Stands part i ∧ p.get? index = some (kind.constant i)
  | .pair kind first second, index =>
    ∃ i j, p.Stands first i ∧ p.Stands second j ∧ p.get? index = some (kind.constant i j)

/-- The constant is there, with all that it is made of. -/
def Holds (p : ConstantPool) (x : Item) : Prop := ∃ index, p.Stands x index

/-- The index of a constant that is there with all that it is made of. -/
def find? (p : ConstantPool) : Item → Option UInt16
  | .text text => p.indices[Constant.utf8 text]?
  | .wrap kind part => do
    let i ← p.find? part
    p.indices[kind.constant i]?
  | .pair kind first second => do
    let i ← p.find? first
    let j ← p.find? second
    p.indices[kind.constant i j]?

/-- **Looking a constant up finds the index that stands for it.** -/
theorem find?_eq_some : p.find? x = some i ↔ p.Stands x i := by
  induction x generalizing i with
  | text text => exact p.indexed _ i
  | wrap kind part ih =>
    simp only [find?, Stands, Option.bind_eq_bind, Option.bind_eq_some_iff, ih, p.indexed]
    rfl
  | pair kind first second ih₁ ih₂ =>
    simp only [find?, Stands, Option.bind_eq_bind, Option.bind_eq_some_iff, ih₁, ih₂, p.indexed]
    constructor
    · rintro ⟨i, hi, j, hj, h⟩
      exact ⟨i, j, hi, hj, h⟩
    · rintro ⟨i, j, hi, hj, h⟩
      exact ⟨i, hi, j, hj, h⟩

instance (p : ConstantPool) (x : Item) : Decidable (p.Holds x) :=
  decidable_of_iff ((p.find? x).isSome = true) (by
    simp only [Option.isSome_iff_exists, find?_eq_some]
    exact Iff.rfl)

/-- A constant has one index. -/
theorem Stands.index_eq (hi : p.Stands x i) (hj : p.Stands x j) : i = j := by
  rw [← find?_eq_some] at hi hj
  rw [hi] at hj
  exact Option.some.inj hj

/-- An index is that of one constant. -/
theorem Stands.item_eq (hx : p.Stands x i) (hy : p.Stands y i) : x = y := by
  induction x generalizing y i with
  | text text =>
    cases y with
    | text text' =>
      have h := hx.symm.trans hy
      simpa using h
    | wrap l y =>
      obtain ⟨n, -, hy⟩ := hy
      have h := hx.symm.trans hy
      exact absurd (Option.some.inj h).symm (l.constant_ne_utf8 n text)
    | pair l y₁ y₂ =>
      obtain ⟨n, m, -, -, hy⟩ := hy
      have h := hx.symm.trans hy
      exact absurd (Option.some.inj h).symm (l.constant_ne_utf8 n m text)
  | wrap k x ih =>
    obtain ⟨n, hn, hx⟩ := hx
    cases y with
    | text text =>
      have h := hx.symm.trans hy
      exact absurd (Option.some.inj h) (k.constant_ne_utf8 n text)
    | wrap l y =>
      obtain ⟨m, hm, hy⟩ := hy
      obtain ⟨rfl, rfl⟩ := Wrapper.constant_inj.1 (Option.some.inj (hx.symm.trans hy))
      rw [ih hn hm]
    | pair l y₁ y₂ =>
      obtain ⟨m₁, m₂, -, -, hy⟩ := hy
      exact absurd (Option.some.inj (hy.symm.trans hx)) (l.constant_ne_wrapper k m₁ m₂ n)
  | pair k x₁ x₂ ih₁ ih₂ =>
    obtain ⟨n₁, n₂, hn₁, hn₂, hx⟩ := hx
    cases y with
    | text text =>
      have h := hx.symm.trans hy
      exact absurd (Option.some.inj h) (k.constant_ne_utf8 n₁ n₂ text)
    | wrap l y =>
      obtain ⟨m, -, hy⟩ := hy
      exact absurd (Option.some.inj (hx.symm.trans hy)) (k.constant_ne_wrapper l n₁ n₂ m)
    | pair l y₁ y₂ =>
      obtain ⟨m₁, m₂, hm₁, hm₂, hy⟩ := hy
      obtain ⟨rfl, rfl, rfl⟩ := Pairing.constant_inj.1 (Option.some.inj (hx.symm.trans hy))
      rw [ih₁ hn₁ hm₁, ih₂ hn₂ hm₂]

/-- What an index stands for stays the same. -/
theorem Stands.grows (h : p.Stands x i) (hpq : p.Grows q) : q.Stands x i := by
  induction x generalizing i with
  | text text => exact hpq _ _ h
  | wrap k x ih =>
    obtain ⟨n, hn, h⟩ := h
    exact ⟨n, ih hn, hpq _ _ h⟩
  | pair k x₁ x₂ ih₁ ih₂ =>
    obtain ⟨n₁, n₂, hn₁, hn₂, h⟩ := h
    exact ⟨n₁, n₂, ih₁ hn₁, ih₂ hn₂, hpq _ _ h⟩

/-- Where an item stands there is a constant. -/
theorem Stands.isSome_get? (h : p.Stands x i) : (p.get? i).isSome = true := by
  cases x with
  | text text =>
    rw [show p.get? i = some _ from h]
    rfl
  | wrap k x =>
    obtain ⟨n, -, h⟩ := h
    rw [h]
    rfl
  | pair k x₁ x₂ =>
    obtain ⟨n₁, n₂, -, -, h⟩ := h
    rw [h]
    rfl

/-- No constant is stored twice. -/
theorem nodup_toList (p : ConstantPool) : p.toList.Nodup := by
  rw [List.nodup_iff_getElem?_ne_getElem?]
  intro m n hmn hn heq
  obtain ⟨hm, hgetm⟩ := get?_of_getElem? (heq.trans (List.getElem?_eq_getElem hn))
  obtain ⟨hn, hgetn⟩ := get?_of_getElem? (List.getElem?_eq_getElem hn)
  have hindex := congrArg UInt16.toNat (get?_inj hgetm hgetn)
  omega

/-! ### Pools in which nothing is missing -/

/-- The constants that a constant names are there, and no constant takes two
indices. -/
structure Tidy (p : ConstantPool) : Prop where
  closed : ∀ index c, p.get? index = some c → ∀ i ∈ c.references, (p.get? i).isSome = true
  narrow : ∀ index c, p.get? index = some c → c.width = 1

/-- An empty pool is tidy. -/
theorem tidy_empty : Tidy empty where
  closed index c h := by simp [get?, constantAt?, empty] at h
  narrow index c h := by simp [get?, constantAt?, empty] at h

/-- **What an index stood for before constants were added.**  It is what it stands for
now, since the constants that were there name no others. -/
theorem Tidy.stands_of_grows (hp : p.Tidy) (hpq : p.Grows q) (h : q.Stands x i)
    (hi : (p.get? i).isSome = true) : p.Stands x i := by
  have hback : ∀ {index : UInt16} {c : Constant}, (p.get? index).isSome = true →
      q.get? index = some c → p.get? index = some c := by
    intro index c hsome hq
    obtain ⟨d, hd⟩ := Option.isSome_iff_exists.1 hsome
    rw [hpq _ _ hd] at hq
    rw [hd, hq]
  induction x generalizing i with
  | text text => exact hback hi h
  | wrap k x ih =>
    obtain ⟨n, hn, h⟩ := h
    have hc := hback hi h
    refine ⟨n, ih hn (hp.closed _ _ hc n ?_), hc⟩
    rw [k.references_constant]
    exact List.mem_singleton_self n
  | pair k x₁ x₂ ih₁ ih₂ =>
    obtain ⟨n₁, n₂, hn₁, hn₂, h⟩ := h
    have hc := hback hi h
    refine ⟨n₁, n₂, ih₁ hn₁ (hp.closed _ _ hc n₁ ?_), ih₂ hn₂ (hp.closed _ _ hc n₂ ?_), hc⟩
    · rw [k.references_constant]
      exact List.mem_cons_self
    · rw [k.references_constant]
      exact List.mem_cons_of_mem _ (List.mem_singleton_self n₂)

/-! ### One constant -/

/-- What can come of asking for one constant. -/
inductive Interns (c : Constant) (p : ConstantPool) :
    EStateM.Result PoolOverflow ConstantPool UInt16 → Prop where
  | known {index : UInt16} (h : p.get? index = some c) : Interns c p (.ok index p)
  | new {q : ConstantPool} (fresh : ∀ index, p.get? index ≠ some c)
    (size : q.size = p.size + 1) (unused : p.get? (UInt16.ofNat (p.size + 1)) = none)
    (get : ∀ index, q.get? index =
      if index = UInt16.ofNat (p.size + 1) then some c else p.get? index) :
    Interns c p (.ok (UInt16.ofNat (p.size + 1)) q)
  | full (fresh : ∀ index, p.get? index ≠ some c) (full : p.size = capacity) :
    Interns c p (.error ⟨c, capacity + 1⟩ p)

/-- **A constant is found, or added behind the others, or there is no room for it.** In the
last case nothing is added, and the refusal names the constant. -/
theorem interns (c : Constant) (p : ConstantPool) : Interns c p (intern c p) := by
  have hfresh : p.indices[c]? = none → ∀ index, p.get? index ≠ some c := by
    intro hnone index h
    rw [(p.indexed c index).2 h] at hnone
    cases hnone
  unfold intern
  split
  · rename_i index known
    exact .known ((p.indexed c index).1 known)
  · rename_i known
    split
    · rename_i full
      have hsize : p.entries.size = capacity :=
        Nat.le_antisymm p.bounded (Nat.lt_succ_iff.1 full)
      rw [hsize]
      exact .full (hfresh known) hsize
    · rename_i full
      obtain ⟨entries, indices, bounded, indexed⟩ := p
      have room : entries.size + 1 ≤ capacity := Nat.le_of_not_lt full
      refine .new (hfresh known) ?_ (constantAt?_next entries room)
        (constantAt?_push entries c room)
      simp [size]

/-- A constant that is there is found, and nothing is added. -/
theorem intern_of_get? {c : Constant} (h : p.get? i = some c) : intern c p = .ok i p := by
  have hinterns := interns c p
  revert hinterns
  generalize intern c p = result
  intro hinterns
  cases hinterns with
  | known hj => rw [get?_inj h hj]
  | new fresh => exact absurd h (fresh i)
  | full fresh => exact absurd h (fresh i)

/-- A constant that is not there is added, if there is room. -/
theorem intern_of_absent {c : Constant} (h : ∀ index, p.get? index ≠ some c)
    (room : p.size < capacity) : ∃ q, intern c p = .ok (UInt16.ofNat (p.size + 1)) q ∧
      q.size = p.size + 1 ∧ ∀ index, q.get? index =
        if index = UInt16.ofNat (p.size + 1) then some c else p.get? index := by
  have hinterns := interns c p
  revert hinterns
  generalize intern c p = result
  intro hinterns
  cases hinterns with
  | known hi => exact absurd hi (h _)
  | new fresh size unused get => exact ⟨_, rfl, size, get⟩
  | full fresh full => omega

/-- A constant that was asked for is there afterwards, and so is everything that was there
before. -/
theorem Interns.grows {c : Constant} (h : Interns c p (.ok i q)) :
    p.Grows q ∧ q.get? i = some c := by
  cases h with
  | known hi => exact ⟨.refl p, hi⟩
  | new fresh size unused get =>
    refine ⟨fun index d hd => ?_, by rw [get, if_pos rfl]⟩
    rw [get, if_neg]
    · exact hd
    · rintro rfl
      rw [unused] at hd
      cases hd

/-- A constant that names only what is there leaves the pool tidy. -/
theorem Interns.tidy {c : Constant} (hp : p.Tidy)
    (hparts : ∀ n ∈ c.references, (p.get? n).isSome = true) (hwidth : c.width = 1)
    (h : Interns c p (.ok i q)) : q.Tidy := by
  have hgrows : ∀ n, (p.get? n).isSome = true → (q.get? n).isSome = true := by
    intro n hn
    obtain ⟨d, hd⟩ := Option.isSome_iff_exists.1 hn
    rw [h.grows.1 n d hd]
    rfl
  cases h with
  | known => exact hp
  | new fresh size unused get =>
    refine ⟨fun index d hd n hn => ?_, fun index d hd => ?_⟩
    · rw [get] at hd
      split at hd
      · cases hd
        exact hgrows n (hparts n hn)
      · exact hgrows n (hp.closed index d hd n hn)
    · rw [get] at hd
      split at hd
      · cases hd
        exact hwidth
      · exact hp.narrow index d hd

/-! ### Several constants -/

/-- Those of some constants that are not there. -/
def lacking (p : ConstantPool) (needs : Finset Item) : Finset Item :=
  needs.filter fun x => ¬ p.Holds x

/-- The constants have been added, each of them once. -/
structure Adds (needs : Finset Item) (p q : ConstantPool) : Prop where
  grows : p.Grows q
  tidy : q.Tidy
  holds : ∀ y, q.Holds y ↔ p.Holds y ∨ y ∈ needs
  size : q.size = p.size + (p.lacking needs).card

/-- Some of the constants may have been added, but there is no room for all. -/
structure Exceeds (needs : Finset Item) (p q : ConstantPool) : Prop where
  grows : p.Grows q
  tidy : q.Tidy
  full : capacity < p.size + (p.lacking needs).card

variable {needs more : Finset Item}

/-- What is missing in the end is what was missing of the first, and then of the
second constants. -/
theorem Adds.card_lacking_union (h : Adds needs p q) (more : Finset Item) :
    (p.lacking (needs ∪ more)).card = (p.lacking needs).card + (q.lacking more).card := by
  have hunion : p.lacking (needs ∪ more) = p.lacking needs ∪ q.lacking more := by
    ext y
    simp only [lacking, Finset.mem_filter, Finset.mem_union, h.holds]
    tauto
  have hdisjoint : Disjoint (p.lacking needs) (q.lacking more) := by
    rw [Finset.disjoint_left]
    intro y hy hy'
    simp only [lacking, Finset.mem_filter, h.holds] at hy hy'
    exact hy'.2 (.inr hy.1)
  rw [hunion, Finset.card_union_of_disjoint hdisjoint]

theorem Adds.trans (hpq : Adds needs p q) (hqr : Adds more q r) : Adds (needs ∪ more) p r where
  grows := hpq.grows.trans hqr.grows
  tidy := hqr.tidy
  holds y := by rw [hqr.holds, hpq.holds, Finset.mem_union, or_assoc]
  size := by rw [hqr.size, hpq.size, hpq.card_lacking_union, Nat.add_assoc]

/-- If there is no room for the second part, there is none for both. -/
theorem Adds.exceeds (hpq : Adds needs p q) (hqr : Exceeds more q r) :
    Exceeds (needs ∪ more) p r where
  grows := hpq.grows.trans hqr.grows
  tidy := hqr.tidy
  full := by
    rw [hpq.card_lacking_union, ← Nat.add_assoc, ← hpq.size]
    exact hqr.full

/-- If there is no room for some, there is none for more. -/
theorem Exceeds.mono (h : Exceeds needs p q) (hsub : needs ⊆ more) : Exceeds more p q where
  grows := h.grows
  tidy := h.tidy
  full := by
    have hcard := Finset.card_le_card (Finset.filter_subset_filter (fun x => ¬ p.Holds x) hsub)
    exact Nat.lt_of_lt_of_le h.full (Nat.add_le_add_left hcard _)

/-- The constants that are needed are added and the index stands for the one that is
asked for, or there is no room for them. -/
def Serves (x : Item) (needs : Finset Item) (p : ConstantPool) :
    EStateM.Result PoolOverflow ConstantPool UInt16 → Prop
  | .ok index q => Adds needs p q ∧ q.Stands x index
  | .error _ q => Exceeds needs p q

/-- **Asking for one constant whose parts are there** adds it if it is missing, and nothing
else. So the room that it takes is known before. -/
theorem serves_intern {c : Constant} (hp : p.Tidy)
    (hparts : ∀ n ∈ c.references, (p.get? n).isSome = true) (hwidth : c.width = 1)
    (hstands : ∀ {q : ConstantPool} {index : UInt16}, p.Grows q →
      (q.Stands x index ↔ q.get? index = some c)) :
    Serves x {x} p (intern c p) := by
  have habsent : (∀ index, p.get? index ≠ some c) → p.lacking {x} = {x} := by
    intro fresh
    refine Finset.filter_true_of_mem fun y hy => ?_
    rw [Finset.mem_singleton] at hy
    subst hy
    rintro ⟨index, h⟩
    exact fresh index ((hstands (.refl p)).1 h)
  have hinterns := interns c p
  revert hinterns
  generalize intern c p = result
  intro hinterns
  cases hinterns with
  | @known index h =>
    have hx : p.Stands x index := (hstands (.refl p)).2 h
    refine ⟨⟨.refl p, hp, fun y => ?_, ?_⟩, hx⟩
    · rw [Finset.mem_singleton]
      refine ⟨.inl, fun hy => hy.elim id ?_⟩
      rintro rfl
      exact ⟨index, hx⟩
    · have hnone : p.lacking {x} = ∅ := by
        refine Finset.filter_false_of_mem fun y hy => ?_
        rw [Finset.mem_singleton] at hy
        exact not_not.2 (hy ▸ ⟨index, hx⟩)
      rw [hnone, Finset.card_empty, Nat.add_zero]
  | @new q fresh size unused get =>
    have hadded : Interns c p (.ok _ q) := .new fresh size unused get
    have hx : q.Stands x _ := (hstands hadded.grows.1).2 hadded.grows.2
    refine ⟨⟨hadded.grows.1, hadded.tidy hp hparts hwidth, fun y => ?_, ?_⟩, hx⟩
    · rw [Finset.mem_singleton]
      constructor
      · rintro ⟨index, hy⟩
        have hsome := hy.isSome_get?
        rw [get] at hsome
        split at hsome
        · rename_i hnew
          exact .inr ((hnew ▸ hy).item_eq hx)
        · exact .inl ⟨index, hp.stands_of_grows hadded.grows.1 hy hsome⟩
      · rintro (⟨index, hy⟩ | rfl)
        · exact ⟨index, hy.grows hadded.grows.1⟩
        · exact ⟨_, hx⟩
    · rw [habsent fresh, Finset.card_singleton, size]
  | full fresh full =>
    refine ⟨.refl p, hp, ?_⟩
    rw [habsent fresh, Finset.card_singleton, full]
    exact Nat.lt_succ_self _

/-- One request after the other. -/
theorem Serves.bind {m : Interning UInt16} {f : UInt16 → Interning UInt16}
    (h : Serves x needs p (m p))
    (hf : ∀ index q, Adds needs p q → q.Stands x index → Serves y more q (f index q)) :
    Serves y (needs ∪ more) p ((m >>= f) p) := by
  cases hm : m p with
  | error e q =>
    rw [hm] at h
    rw [bind_of_error hm]
    exact h.mono Finset.subset_union_left
  | ok index q =>
    rw [hm] at h
    rw [bind_of_ok hm]
    have hrest := hf index q h.1 h.2
    cases hresult : f index q with
    | error e r =>
      rw [hresult] at hrest
      exact h.1.exceeds hrest
    | ok index' r =>
      rw [hresult] at hrest
      exact ⟨h.1.trans hrest.1, hrest.2⟩

/-- **Asking for a constant with all that it is made of** adds what is missing, the
parts before the whole. -/
theorem serves_item (x : Item) (hp : p.Tidy) : Serves x x.needs p (x.intern p) := by
  induction x generalizing p with
  | text s =>
    refine serves_intern hp (fun n hn => ?_) rfl fun _ => Iff.rfl
    exact absurd hn List.not_mem_nil
  | wrap k x ih =>
    refine (ih hp).bind fun i q hadds hi => ?_
    refine serves_intern hadds.tidy (fun n hn => ?_) (k.width_constant i) fun hgrows => ?_
    · rw [k.references_constant, List.mem_singleton] at hn
      exact hn ▸ hi.isSome_get?
    · refine ⟨?_, fun h => ⟨i, hi.grows hgrows, h⟩⟩
      rintro ⟨j, hj, h⟩
      rwa [(hi.grows hgrows).index_eq hj]
  | pair k x y ihx ihy =>
    refine (ihx hp).bind fun i q haddsx hi => (ihy haddsx.tidy).bind fun j r haddsy hj => ?_
    have hi := hi.grows haddsy.grows
    refine serves_intern haddsy.tidy (fun n hn => ?_) (k.width_constant i j) fun hgrows => ?_
    · rw [k.references_constant, List.mem_cons, List.mem_singleton] at hn
      rcases hn with rfl | rfl
      · exact hi.isSome_get?
      · exact hj.isSome_get?
    · refine ⟨?_, fun h => ⟨i, j, hi.grows hgrows, hj.grows hgrows, h⟩⟩
      rintro ⟨i', j', hi', hj', h⟩
      rwa [(hi.grows hgrows).index_eq hi', (hj.grows hgrows).index_eq hj']

/-- A constant that is there with all that it is made of is found, and nothing is
added. -/
theorem intern_of_stands (h : p.Stands x i) : x.intern p = .ok i p := by
  induction x generalizing i with
  | text text => exact intern_of_get? h
  | wrap k x ih =>
    obtain ⟨n, hn, h⟩ := h
    rw [Item.intern, bind_of_ok (ih hn)]
    exact intern_of_get? h
  | pair k x y ihx ihy =>
    obtain ⟨n, m, hn, hm, h⟩ := h
    rw [Item.intern, bind_of_ok (ihx hn), bind_of_ok (ihy hm)]
    exact intern_of_get? h

/-! ### Requests -/

/-- What is asked for. -/
inductive Demand where
  /-- One constant, over indices that are given. -/
  | constant (c : Constant)
  /-- A constant with all that it is made of. -/
  | item (x : Item)

namespace Demand

/-- The index of what is asked for. -/
def intern : Demand → Interning UInt16
  | .constant c => ConstantPool.intern c
  | .item x => x.intern

/-- The index is that of what is asked for. -/
def Answer (p : ConstantPool) : Demand → UInt16 → Prop
  | .constant c, index => p.get? index = some c
  | .item x, index => p.Stands x index

/-- The number of constants that are needed and are not there. -/
def missing (p : ConstantPool) : Demand → Nat
  | .constant c => if c ∈ p.toList then 0 else 1
  | .item x => (p.lacking x.needs).card

/-- The indices that are given are those of constants. -/
def Supported (p : ConstantPool) : Demand → Prop
  | .constant c => (∀ n ∈ c.references, (p.get? n).isSome = true) ∧ c.width = 1
  | .item _ => True

variable {d : Demand}

theorem Answer.grows (h : d.Answer p i) (hpq : p.Grows q) : d.Answer q i := by
  cases d with
  | constant c => exact hpq _ _ h
  | item x => exact Stands.grows h hpq

/-- An answer is the index of a constant. -/
theorem Answer.isSome_get? (h : d.Answer p i) : (p.get? i).isSome = true := by
  cases d with
  | constant c =>
    rw [show p.get? i = some c from h]
    rfl
  | item x => exact Stands.isSome_get? h

/-- **What is there is found, and nothing is added.** -/
theorem intern_of_answer (h : d.Answer p i) : d.intern p = .ok i p := by
  cases d with
  | constant c => exact intern_of_get? h
  | item x => exact intern_of_stands h

/-- What can come of asking. -/
inductive Settles (d : Demand) (p : ConstantPool) :
    EStateM.Result PoolOverflow ConstantPool UInt16 → Prop where
  | answered {index : UInt16} {q : ConstantPool} (grows : p.Grows q) (tidy : q.Tidy)
    (answer : d.Answer q index) (size : q.size = p.size + d.missing p) :
    Settles d p (.ok index q)
  | refused {e : PoolOverflow} {q : ConstantPool} (grows : p.Grows q) (tidy : q.Tidy)
    (full : capacity < p.size + d.missing p) : Settles d p (.error e q)

/-- A single constant settles its demand: it is found or added, or there is no room for
it. -/
theorem settles_constant {c : Constant} (hp : p.Tidy) (h : (constant c).Supported p) :
    (constant c).Settles p (ConstantPool.intern c p) := by
  have habsent : (∀ index, p.get? index ≠ some c) → (constant c).missing p = 1 := by
    intro fresh
    refine if_neg fun hmem => ?_
    obtain ⟨index, hindex⟩ := mem_toList.1 hmem
    exact fresh index hindex
  have hinterns := interns c p
  revert hinterns
  generalize ConstantPool.intern c p = result
  intro hinterns
  cases hinterns with
  | known hindex =>
    have hthere : (constant c).missing p = 0 := if_pos (mem_toList.2 ⟨_, hindex⟩)
    exact .answered (.refl p) hp hindex (by rw [hthere, Nat.add_zero])
  | @new q fresh size unused get =>
    have hadded : Interns c p (.ok _ q) := .new fresh size unused get
    exact .answered hadded.grows.1 (hadded.tidy hp h.1 h.2) hadded.grows.2
      (by rw [habsent fresh, size])
  | full fresh full =>
    refine .refused (.refl p) hp ?_
    rw [habsent fresh, full]
    exact Nat.lt_succ_self _

/-- **What is asked for is answered by adding what is missing, or there is no room for
it.** -/
theorem settles (hp : p.Tidy) (h : d.Supported p) : d.Settles p (d.intern p) := by
  cases d with
  | constant c => exact settles_constant hp h
  | item x =>
    have hserves := serves_item x hp
    change (item x).Settles p (x.intern p)
    cases hx : x.intern p with
    | error e q =>
      rw [hx] at hserves
      exact .refused hserves.grows hserves.tidy hserves.full
    | ok index q =>
      rw [hx] at hserves
      exact .answered hserves.1.grows hserves.1.tidy hserves.2 hserves.1.size

/-- **A demand is refused just if there is no room for what is missing.** -/
theorem Settles.refused_iff {result : EStateM.Result PoolOverflow ConstantPool UInt16}
    (h : d.Settles p result) :
    (∃ e q, result = .error e q) ↔ capacity < p.size + d.missing p := by
  cases h with
  | @answered index q grows tidy answer size =>
    have hbounded := q.bounded
    change q.size ≤ capacity at hbounded
    refine iff_of_false ?_ (by omega)
    rintro ⟨e, r, h⟩
    cases h
  | @refused e q grows tidy full => exact iff_of_true ⟨e, q, rfl⟩ full

end Demand

/-- What a pool can be asked for.  Those of the values that code can push are integers,
floats and strings. -/
inductive Request where
  | utf8 (text : String)
  | integer (value : Int32)
  | float (value : Binary32)
  /-- A class, by the index of its name. -/
  | classAt (name : UInt16)
  /-- A string, by the index of its text. -/
  | stringAt (text : UInt16)
  /-- A name and type, by the indices of both. -/
  | nameAndTypeAt (name descriptor : UInt16)
  | string (text : String)
  | binaryName (name : BinaryName)
  | refType (type : RefType)
  | fieldRef (field : FieldRef)
  | methodRef (method : MethodRef)

namespace Request

/-- The computation that a request stands for. -/
def run : Request → Interning UInt16
  | .utf8 text => ConstantPool.utf8 text
  | .integer value => ConstantPool.integer value
  | .float value => ConstantPool.float value
  | .classAt name => ConstantPool.classNamed name
  | .stringAt text => ConstantPool.intern (.string text)
  | .nameAndTypeAt name descriptor => ConstantPool.intern (.nameAndType name descriptor)
  | .string text => ConstantPool.string text
  | .binaryName name => ConstantPool.binaryName name
  | .refType type => ConstantPool.refType type
  | .fieldRef field => ConstantPool.fieldRef field
  | .methodRef method => ConstantPool.methodRef method

/-- The indices that a request takes. -/
def arguments : Request → List UInt16
  | .classAt index | .stringAt index => [index]
  | .nameAndTypeAt name descriptor => [name, descriptor]
  | _ => []

/-- What a request is for. -/
def demand : Request → Demand
  | .utf8 text => .constant (.utf8 text)
  | .integer value => .constant (.integer value)
  | .float value => .constant (.float value)
  | .classAt name => .constant (.classRef name)
  | .stringAt text => .constant (.string text)
  | .nameAndTypeAt name descriptor => .constant (.nameAndType name descriptor)
  | .string text => .item (.wrap .string (.text text))
  | .binaryName name => .item (.classNamed name.text)
  | .refType type => .item (.classNamed type.className)
  | .fieldRef field => .item (.pair .fieldRef (.classNamed field.owner.text)
      (.nameAndType field.name.text field.type.render))
  | .methodRef method => .item (.pair (.methodRef method.isInterface)
      (.classNamed method.owner.text) (.nameAndType method.name.text method.descriptor.render))

theorem run_eq (request : Request) : request.run = request.demand.intern := by
  cases request <;> rfl

/-- A request whose arguments are indices of constants is supported. -/
theorem supported_demand {request : Request}
    (h : ∀ n ∈ request.arguments, (p.get? n).isSome = true) : request.demand.Supported p := by
  cases request with
  | classAt name => exact ⟨h, rfl⟩
  | stringAt text => exact ⟨h, rfl⟩
  | nameAndTypeAt name descriptor => exact ⟨h, rfl⟩
  | utf8 text => exact ⟨h, rfl⟩
  | integer value => exact ⟨h, rfl⟩
  | float value => exact ⟨h, rfl⟩
  | _ => trivial

end Request

/-! ### Sessions -/

/-- A pool, and what it has answered so far. -/
structure Session where
  pool : ConstantPool
  answers : List (Request × UInt16)

namespace Session

/-- A pool that has not been asked for anything. -/
def fresh : Session := ⟨.empty, []⟩

/-- One request more, which may be refused. -/
def ask (s : Session) (request : Request) : Session :=
  match request.run s.pool with
  | .ok index pool => ⟨pool, s.answers ++ [(request, index)]⟩
  | .error _ pool => ⟨pool, s.answers⟩

/-- The request takes only indices that were answered. -/
def Knows (s : Session) (request : Request) : Prop :=
  ∀ i ∈ request.arguments, ∃ earlier, (earlier, i) ∈ s.answers

/-- The sessions that requests lead to, one after the other. -/
inductive Proper : Session → Prop where
  | fresh : Proper fresh
  | ask {s : Session} {r : Request} (h : s.Proper) (hknows : s.Knows r) : (s.ask r).Proper

/-- What is true all through a session. -/
structure Sound (s : Session) : Prop where
  tidy : s.pool.Tidy
  answers : ∀ request index, (request, index) ∈ s.answers → request.demand.Answer s.pool index

variable {s : Session} {request : Request}

theorem Sound.settles (h : s.Sound) (hknows : s.Knows request) :
    request.demand.Settles s.pool (request.run s.pool) := by
  rw [request.run_eq]
  refine Demand.settles h.tidy (request.supported_demand fun i hi => ?_)
  obtain ⟨earlier, hearlier⟩ := hknows i hi
  exact (h.answers earlier i hearlier).isSome_get?

/-- **One request keeps a session sound.** -/
theorem Sound.ask (h : s.Sound) (hknows : s.Knows request) :
    s.pool.Grows (s.ask request).pool ∧ (s.ask request).Sound := by
  have hsettles := h.settles hknows
  unfold Session.ask
  revert hsettles
  generalize request.run s.pool = result
  intro hsettles
  cases hsettles with
  | refused grows tidy full =>
    exact ⟨grows, tidy, fun earlier index hmem => (h.answers earlier index hmem).grows grows⟩
  | answered grows tidy answer size =>
    refine ⟨grows, tidy, fun earlier index hmem => ?_⟩
    rcases List.mem_append.1 hmem with hmem | hmem
    · exact (h.answers earlier index hmem).grows grows
    · cases List.mem_singleton.1 hmem
      exact answer

/-- **A session is sound all through.** -/
theorem Proper.sound (h : s.Proper) : s.Sound := by
  induction h with
  | fresh => exact ⟨tidy_empty, fun request index h => nomatch h⟩
  | ask _ hknows ih => exact (ih.ask hknows).2

/-- **What a pool answers is right and stays right.**  Whatever it was asked for, over
indices that it had answered:

* no constant is stored twice;
* each index that it answered is still that of what was asked for;
* a class file with its constants finds under an index what the pool finds;
* what is there already is answered by its index, and nothing is added;
* a request is refused just if the constants that are stored and those that are missing
  are more than there are indices;
* whether a request is answered or refused, all this is true afterwards, and every
  constant keeps its index. -/
theorem answers_right (h : s.Proper) :
    s.pool.toList.Nodup ∧
    (∀ request index, (request, index) ∈ s.answers → request.demand.Answer s.pool index) ∧
    (∀ c : ClassFile, c.constants = s.pool.toList →
      ∀ index, c.constant? index = s.pool.get? index) ∧
    ∀ request, s.Knows request →
      (∀ index, request.demand.Answer s.pool index →
        request.run s.pool = .ok index s.pool) ∧
      ((∃ e q, request.run s.pool = .error e q) ↔
        capacity < s.pool.size + request.demand.missing s.pool) ∧
      (s.ask request).Proper ∧
      ∀ index c, s.pool.get? index = some c → (s.ask request).pool.get? index = some c := by
  have hsound := h.sound
  refine ⟨s.pool.nodup_toList, hsound.answers, fun c hc index => ?_, fun request hknows => ?_⟩
  · refine ClassFile.constant?_of_toList hc (fun k hk => ?_) index
    rw [hc] at hk
    obtain ⟨i, hi⟩ := mem_toList.1 hk
    exact hsound.tidy.narrow i k hi
  · refine ⟨fun index hanswer => ?_, (hsound.settles hknows).refused_iff, h.ask hknows,
      (hsound.ask hknows).1⟩
    rw [request.run_eq]
    exact Demand.intern_of_answer hanswer

theorem ask_of_ok (s : Session) (request : Request) {index : UInt16} {q : ConstantPool}
    (h : request.run s.pool = .ok index q) :
    s.ask request = ⟨q, s.answers ++ [(request, index)]⟩ := by
  unfold Session.ask
  rw [h]

/-- A class that is asked for by the index of its name, and then by its name: both times
the answer is the same, and the name is stored once. -/
theorem namedTwice_answers_right : ∃ s : Session, s.Proper ∧
    s.answers = [(.utf8 "A", 1), (.classAt 1, 2), (.binaryName ⟨"A", by decide⟩, 2)] ∧
    s.pool.size = 2 ∧ s.pool.toList.Nodup ∧ (Request.utf8 "A").run s.pool = .ok 1 s.pool ∧
    s.pool.size + (Request.classAt 1).demand.missing s.pool ≤ capacity := by
  have hempty : ∀ (index : UInt16) (c : Constant), empty.get? index ≠ some c := by
    intro index c h
    simp [get?, constantAt?, empty] at h
  obtain ⟨q₁, hq₁, hsize₁, hget₁⟩ := intern_of_absent (hempty · (.utf8 "A")) (by decide)
  have habsent : ∀ index, q₁.get? index ≠ some (.classRef 1) := by
    intro index h
    rw [hget₁] at h
    split at h
    · cases h
    · exact hempty index _ h
  obtain ⟨q₂, hq₂, hsize₂, hget₂⟩ := intern_of_absent habsent (by rw [hsize₁]; decide)
  rw [hsize₁] at hq₂ hget₂ hsize₂
  have hclass : q₂.Stands (.classNamed "A") 2 := by
    refine ⟨1, ?_, hget₂ 2⟩
    rw [Stands, hget₂, if_neg (by decide), hget₁]
    rfl
  have hknows : ∀ {s : Session}, (.utf8 "A", 1) ∈ s.answers → s.Knows (.classAt 1) := by
    intro s hs i hi
    obtain rfl := List.mem_singleton.1 hi
    exact ⟨.utf8 "A", hs⟩
  have hnothing : ∀ {s : Session} {r : Request}, r.arguments = [] → s.Knows r := by
    intro s r hr i hi
    rw [hr] at hi
    cases hi
  have h₁ : (fresh.ask (.utf8 "A")).Proper := .ask .fresh (hnothing rfl)
  rw [ask_of_ok fresh (.utf8 "A") hq₁] at h₁
  have h₂ := h₁.ask (hknows (List.mem_singleton_self _))
  rw [ask_of_ok ⟨q₁, _⟩ (.classAt 1) hq₂] at h₂
  have h₃ := h₂.ask (r := .binaryName ⟨"A", by decide⟩) (hnothing rfl)
  rw [ask_of_ok ⟨q₂, _⟩ (.binaryName ⟨"A", by decide⟩) (intern_of_stands hclass)] at h₃
  obtain ⟨hnodup, hanswers, -, hrequests⟩ := answers_right h₃
  have hclassAt := hrequests (.classAt 1) (hknows List.mem_cons_self)
  refine ⟨_, h₃, rfl, hsize₂, hnodup, ?_, Nat.le_of_not_lt fun hfull => ?_⟩
  · exact (hrequests (.utf8 "A") (hnothing rfl)).1 1 (hanswers (.utf8 "A") 1 List.mem_cons_self)
  · obtain ⟨e, q, hrefused⟩ := hclassAt.2.1.2 hfull
    have hanswered := hclassAt.1 2 (hanswers (.classAt 1) 2
      (List.mem_cons_of_mem _ List.mem_cons_self))
    rw [hanswered] at hrefused
    cases hrefused

end Session
end ConstantPool
end ClassForge
