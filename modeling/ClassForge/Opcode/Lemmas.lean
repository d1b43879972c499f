/-
# Facts about opcodes

The list of opcodes holds each of them in the order of their bytes, so no two have
the same byte, and the byte that widens operands belongs to none.
-/

import ClassForge.Opcode

namespace ClassForge
namespace Opcode

theorem mem_all (op : Opcode) : op ∈ all := by cases op <;> decide

theorem pairwise_code : all.Pairwise fun a b => a.code.toNat < b.code.toNat := by
  have h : (all.map fun op => op.code.toNat).Pairwise (· < ·) := by decide +kernel
  exact List.pairwise_map.1 h

/-- Looking up the byte of an opcode finds the opcode. -/
theorem ofCode?_code (op : Opcode) : ofCode? op.code = some op := by
  obtain ⟨before, behind, hall⟩ := List.append_of_mem (mem_all op)
  -- the search gets past the opcodes before this one, as their bytes are smaller
  have hbefore : ∀ a ∈ before, a.code.toNat < op.code.toNat := by
    have h := pairwise_code
    rw [hall, List.pairwise_append] at h
    exact fun a ha => h.2.2 a ha op List.mem_cons_self
  rw [ofCode?, List.find?_eq_some_iff_append]
  refine ⟨decide_eq_true rfl, before, behind, hall, fun a ha => ?_⟩
  have hne : a.code ≠ op.code := fun heq => Nat.lt_irrefl _ (heq ▸ hbefore a ha)
  rw [decide_eq_false hne]
  rfl

theorem ofCode?_eq_some {code : UInt8} {op : Opcode} : ofCode? code = some op ↔ op.code = code := by
  constructor
  · intro h
    simpa using List.find?_some h
  · rintro rfl
    exact ofCode?_code op

theorem ofCode?_wide : ofCode? wide = none := by decide

end Opcode
end ClassForge
