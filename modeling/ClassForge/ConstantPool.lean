/-
# Constant pools

Specification, section 3 (the append-only constant table) and section 9 (one owned
table without duplicates).

The constants of a class while its code is generated.  A pool only grows: a
constant that is asked for is looked up, and added behind the others if it is
new, so a constant keeps its index and no constant is stored twice.  Indices
start at one, and one past the last index has to fit in 16 bits.

Constants of eight kinds are asked for: texts, integers, floats, class names, strings,
fields, methods and pairs of a name and a type.  One map gives the index of a constant of
any kind.  A table for each kind, with its own keys, would give the same answers: a key
of one kind determines its constant, through the indices of the constants that it refers
to, and no two kinds share a constant.

An operation that fails keeps the constants that it had already added.
-/

import ClassForge.Constant
import ClassForge.Member
import Std.Data.HashMap

namespace ClassForge

/-- The pool has no room for a constant, which would have had this index. -/
structure PoolOverflow where
  constant : Constant
  index : Nat
deriving DecidableEq

/-- The largest index that a constant can have. -/
def ConstantPool.capacity : Nat := 65534

/-- The constant with the given index in a list of constants. -/
def ConstantPool.constantAt? (entries : Array Constant) (index : UInt16) : Option Constant :=
  if index = 0 then none else entries[index.toNat - 1]?

/-- The constants of a class, with the index of each.  An index is known for the
constants that are stored and for no others, so none is stored twice. -/
structure ConstantPool where
  entries : Array Constant
  indices : Std.HashMap Constant UInt16
  bounded : entries.size ≤ ConstantPool.capacity
  indexed : ∀ c index, indices[c]? = some index ↔ ConstantPool.constantAt? entries index = some c

/-- A computation that may add constants, or fail for lack of room. -/
abbrev Interning := EStateM PoolOverflow ConstantPool

namespace ConstantPool

/-- The pool without constants. -/
def empty : ConstantPool where
  entries := #[]
  indices := ∅
  bounded := Nat.zero_le _
  indexed c index := by simp [constantAt?]

/-- The number of constants. -/
def size (p : ConstantPool) : Nat := p.entries.size

/-- The constant with the given index. -/
def get? (p : ConstantPool) (index : UInt16) : Option Constant := constantAt? p.entries index

/-- The constants in the order of their indices. -/
def toList (p : ConstantPool) : List Constant := p.entries.toList

/-- A constant that is added behind the others gets the next index, and the
others keep theirs. -/
theorem constantAt?_push (entries : Array Constant) (c : Constant)
    (room : entries.size + 1 ≤ capacity) (index : UInt16) :
    constantAt? (entries.push c) index =
      if index = UInt16.ofNat (entries.size + 1) then some c else constantAt? entries index := by
  have hn : (UInt16.ofNat (entries.size + 1)).toNat = entries.size + 1 := by
    rw [UInt16.toNat_ofNat']
    exact Nat.mod_eq_of_lt (by unfold capacity at room; omega)
  unfold constantAt?
  by_cases h0 : index = 0
  · subst h0
    rw [if_pos rfl, if_neg, if_pos rfl]
    intro h
    rw [← h] at hn
    cases hn
  · have hpos : index.toNat ≠ 0 := fun h => h0 (UInt16.toNat_inj.1 h)
    rw [if_neg h0, if_neg h0, Array.getElem?_push]
    by_cases h : index = UInt16.ofNat (entries.size + 1)
    · rw [if_pos h, if_pos (by rw [h, hn]; omega)]
    · rw [if_neg h, if_neg]
      intro he
      exact h (UInt16.toNat_inj.1 (by rw [hn]; omega))

/-- The next index belongs to no constant. -/
theorem constantAt?_next (entries : Array Constant) (room : entries.size + 1 ≤ capacity) :
    constantAt? entries (UInt16.ofNat (entries.size + 1)) = none := by
  unfold constantAt?
  split
  · rfl
  · rw [UInt16.toNat_ofNat', Nat.mod_eq_of_lt (by unfold capacity at room; omega),
      Nat.add_sub_cancel, Array.getElem?_eq_none (Nat.le_refl _)]

/-- Adding a constant that has no index yet keeps the indices right. -/
theorem indexed_push {entries : Array Constant} {indices : Std.HashMap Constant UInt16}
    (indexed : ∀ c index, indices[c]? = some index ↔ constantAt? entries index = some c)
    (c : Constant) (fresh : indices[c]? = none) (room : entries.size + 1 ≤ capacity)
    (d : Constant) (index : UInt16) :
    (indices.insert c (UInt16.ofNat (entries.size + 1)))[d]? = some index ↔
      constantAt? (entries.push c) index = some d := by
  rw [Std.HashMap.getElem?_insert, constantAt?_push entries c room]
  by_cases hcd : c = d
  · subst hcd
    rw [beq_self_eq_true, if_pos rfl, Option.some_inj]
    constructor
    · rintro rfl
      rw [if_pos rfl]
    · intro h
      by_cases hi : index = UInt16.ofNat (entries.size + 1)
      · exact hi.symm
      · rw [if_neg hi, ← indexed c index, fresh] at h
        cases h
  · rw [beq_false_of_ne hcd, if_neg Bool.false_ne_true, indexed d index]
    by_cases hi : index = UInt16.ofNat (entries.size + 1)
    · subst hi
      rw [if_pos rfl, Option.some_inj]
      refine ⟨fun h => ?_, fun h => absurd h hcd⟩
      rw [constantAt?_next entries room] at h
      cases h
    · rw [if_neg hi]

/-- The index of a constant, which is added if it is new. -/
def intern (c : Constant) : Interning UInt16 := fun p =>
  match known : p.indices[c]? with
  | some index => .ok index p
  | none =>
    if full : capacity < p.entries.size + 1 then .error ⟨c, p.entries.size + 1⟩ p
    else
      match p, known, full with
      | ⟨entries, indices, _, indexed⟩, known, full =>
        .ok (UInt16.ofNat (entries.size + 1))
          { entries := entries.push c
            indices := indices.insert c (UInt16.ofNat (entries.size + 1))
            bounded := by rw [Array.size_push]; exact Nat.le_of_not_lt full
            indexed := indexed_push indexed c known (Nat.le_of_not_lt full) }

/-- The index of a text. -/
def utf8 (text : String) : Interning UInt16 := intern (.utf8 text)

/-- The index of a class, given the index of its name. -/
def classNamed (name : UInt16) : Interning UInt16 := intern (.classRef name)

/-- The index of the class with the given name. -/
def className (name : String) : Interning UInt16 := do classNamed (← utf8 name)

/-- The index of a class. -/
def binaryName (n : BinaryName) : Interning UInt16 := className n.text

/-- The index of a reference type: a class or an array. -/
def refType (t : RefType) : Interning UInt16 := className t.className

/-- The index of a name and a descriptor. -/
def nameAndType (name descriptor : String) : Interning UInt16 := do
  let name ← utf8 name
  let descriptor ← utf8 descriptor
  intern (.nameAndType name descriptor)

/-- The index of a field. -/
def fieldRef (f : FieldRef) : Interning UInt16 := do
  let owner ← binaryName f.owner
  let nameAndType ← nameAndType f.name.text f.type.render
  intern (.fieldRef owner nameAndType)

/-- The index of a method. -/
def methodRef (m : MethodRef) : Interning UInt16 := do
  let owner ← binaryName m.owner
  let nameAndType ← nameAndType m.name.text m.descriptor.render
  intern (.methodRef owner nameAndType m.isInterface)

/-- The index of an integer. -/
def integer (value : Int32) : Interning UInt16 := intern (.integer value)

/-- The index of a floating point number, by its bits. -/
def float (value : Binary32) : Interning UInt16 := intern (.float value)

/-- The index of a string with the given text. -/
def string (text : String) : Interning UInt16 := do intern (.string (← utf8 text))

end ConstantPool
end ClassForge
