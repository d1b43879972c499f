/-
# Slots of locals

Specification, section 4.2: the block-scoped allocator.

Each declaration takes the next free slot, and leaving a block frees the slots
that were taken in it.  So blocks side by side share slots, and locals that are
in scope together never do.
-/

import ClassForge.CompileError
import Std.Data.TreeMap

namespace ClassForge

/-- An open block: the first slot that is its own, and the locals declared in it
(last first). -/
structure Scope where
  first : Nat
  declared : List LocalId

/-- The slots of the locals in scope. -/
structure LocalSlots where
  /-- The slot and the declared type of each local in scope, by its number. -/
  slots : Std.TreeMap Nat (UInt16 × FieldType)
  /-- The open blocks, innermost first. -/
  scopes : List Scope
  /-- The next free slot. -/
  next : Nat
  /-- The number of slots that were ever taken at once. -/
  max : Nat

namespace LocalSlots

/-- The first `reserved` slots are taken. -/
def start (reserved : Nat) : LocalSlots where
  slots := ∅
  scopes := [⟨reserved, []⟩]
  next := reserved
  max := reserved

/-- The open blocks after a declaration in the innermost one. -/
def record (id : LocalId) : List Scope → List Scope
  | [] => []
  | scope :: scopes => { scope with declared := id :: scope.declared } :: scopes

/-- The slot of a new local. -/
def declare (id : LocalId) (type : FieldType) : EStateM Fault LocalSlots UInt16 := fun s =>
  if 65536 ≤ s.next then .error (.tooManyLocals (s.next + 1)) s
  else
    match s with
    | ⟨slots, scopes, next, max⟩ =>
      .ok (UInt16.ofNat next)
        { slots := slots.insert id.index (UInt16.ofNat next, type)
          scopes := record id scopes
          next := next + 1
          max := Nat.max max (next + 1) }

/-- The slot and the declared type of a local in scope. -/
def lookup? (s : LocalSlots) (id : LocalId) : Option (UInt16 × FieldType) :=
  s.slots[id.index]?

/-- Opens a block. -/
def enter (s : LocalSlots) : LocalSlots := { s with scopes := ⟨s.next, []⟩ :: s.scopes }

/-- Leaves the innermost block, whose locals go out of scope; its first slot is
then the next free one. -/
def exit (s : LocalSlots) : LocalSlots :=
  match s with
  | ⟨slots, scopes, next, max⟩ =>
    match scopes with
    | [] => ⟨slots, [], next, max⟩
    | scope :: scopes =>
      ⟨scope.declared.foldl (fun slots id => slots.erase id.index) slots, scopes, scope.first, max⟩

end LocalSlots
end ClassForge
