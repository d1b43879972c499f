/-
# Texts are read back

A text is cut into units and the units into bytes, and both steps are undone one
piece at a time (`unitsFrom_unitBytes`, `charsFrom_charUnits`): so the text of the
bytes is the text (`decode_encode`).  The bytes lie between `0x01` and `0xEF`
(`encode_bounds`): zero is written in the form with two bytes, and there is no form with
four.

Bytes that are missing at the end are noticed: what is left is not modified UTF-8,
or it spells a shorter text (`length_le_of_decode_take`).
-/

import ClassForge.Text.ModifiedUtf8

namespace ClassForge
namespace ModifiedUtf8

variable {xs : Bytes} {us : List Nat} {n : Nat} {s : String} {b : UInt8}

/-! ### Units -/

theorem toNat_ofNat_of_lt (h : n < 256) : (UInt8.ofNat n).toNat = n := by
  rw [UInt8.toNat_ofNat', Nat.mod_eq_of_lt h]

theorem continuation_ofNat (h : n < 0x40) : continuation (UInt8.ofNat (0x80 + n)) = some n := by
  unfold continuation
  rw [toNat_ofNat_of_lt (by omega), if_pos (by omega), Nat.add_sub_cancel_left]

/-- The bytes of a unit are read as the unit. -/
theorem unitsFrom_unitBytes {u : Nat} (hu : u < 0x10000) (done : List Nat) (rest : Bytes) :
    unitsFrom done (unitBytes u ++ rest) = unitsFrom (u :: done) rest := by
  unfold unitBytes
  split
  · rename_i h
    rw [List.singleton_append, unitsFrom.eq_def]
    dsimp only
    rw [toNat_ofNat_of_lt (by omega), if_pos h.2]
  split
  · rename_i h
    rw [List.cons_append, List.singleton_append, unitsFrom, toNat_ofNat_of_lt (by omega),
      if_neg (by omega), if_pos (by omega), continuation_ofNat (by omega)]
    dsimp only
    congr 2
    omega
  · rename_i h
    rw [List.cons_append, List.cons_append, List.singleton_append, unitsFrom,
      toNat_ofNat_of_lt (by omega), if_neg (by omega), if_neg (by omega), if_pos (by omega)]
    dsimp only
    rw [continuation_ofNat (by omega), continuation_ofNat (by omega)]
    dsimp only
    congr 2
    omega

/-- The bytes of units are read as the units. -/
theorem units_flatMap (h : ∀ u ∈ us, u < 0x10000) : units (us.flatMap unitBytes) = some us := by
  have run : ∀ done : List Nat,
      unitsFrom done (us.flatMap unitBytes) = some (done.reverse ++ us) := by
    induction us with
    | nil =>
      intro done
      rw [List.flatMap_nil, unitsFrom, List.append_nil]
    | cons u us ih =>
      intro done
      rw [List.flatMap_cons, unitsFrom_unitBytes (h u List.mem_cons_self),
        ih fun v hv => h v (List.mem_cons_of_mem u hv)]
      simp
  exact run []

/-! ### Characters -/

theorem scalar (c : Char) : c.toNat < 0xD800 ∨ 0xDFFF < c.toNat ∧ c.toNat < 0x110000 := c.valid

/-- Every unit of a character has 16 bits, each half of a pair included. -/
theorem charUnits_lt (c : Char) : ∀ u ∈ charUnits c, u < 0x10000 := by
  have hc := scalar c
  intro u hu
  unfold charUnits at hu
  split at hu
  · rw [List.mem_singleton] at hu
    omega
  · simp only [List.mem_cons, List.not_mem_nil, or_false] at hu
    omega

/-- The units of a character are read as the character. -/
theorem charsFrom_charUnits (c : Char) (done : List Char) (rest : List Nat) :
    charsFrom done (charUnits c ++ rest) = charsFrom (c :: done) rest := by
  have hc := scalar c
  unfold charUnits
  split
  · have hhigh : isHigh c.toNat = false := by
      unfold isHigh
      simp only [decide_eq_false_iff_not]
      omega
    have hlow : isLow c.toNat = false := by
      unfold isLow
      simp only [decide_eq_false_iff_not]
      omega
    rw [List.singleton_append, charsFrom.eq_def]
    simp only [hhigh, hlow, Bool.false_eq_true, if_false, Char.ofNat_toNat]
  · rename_i hbig
    have hhigh : isHigh (0xD800 + (c.toNat - 0x10000) / 0x400) = true := by
      unfold isHigh
      simp only [decide_eq_true_eq]
      omega
    have hlow : isLow (0xDC00 + (c.toNat - 0x10000) % 0x400) = true := by
      unfold isLow
      simp only [decide_eq_true_eq]
      omega
    have hsum : 0x10000 + (0xD800 + (c.toNat - 0x10000) / 0x400 - 0xD800) * 0x400 +
        (0xDC00 + (c.toNat - 0x10000) % 0x400 - 0xDC00) = c.toNat := by omega
    rw [List.cons_append, List.singleton_append, charsFrom]
    simp only [hhigh, hlow, if_true, hsum, Char.ofNat_toNat]

theorem charsFrom_flatMap (cs : List Char) (done : List Char) :
    charsFrom done (cs.flatMap charUnits) = some (done.reverse ++ cs) := by
  induction cs generalizing done with
  | nil => rw [List.flatMap_nil, charsFrom, List.append_nil]
  | cons c cs ih =>
    rw [List.flatMap_cons, charsFrom_charUnits, ih]
    simp

theorem units_encode (s : String) : units (encode s) = some (s.toList.flatMap charUnits) := by
  refine units_flatMap fun u hu => ?_
  obtain ⟨c, -, hc⟩ := List.mem_flatMap.1 hu
  exact charUnits_lt c u hc

/-- **The text of the bytes of a text is the text.** -/
theorem decode_encode (s : String) : decode (encode s) = some s := by
  unfold decode
  rw [units_encode, Option.bind_eq_bind, Option.bind_some, charsFrom_flatMap]
  exact congrArg some String.ofList_toList

/-! ### Bytes that do not occur -/

theorem bounds_ofNat (hpos : 0 < n) (hlt : n < 0xF0) :
    0 < (UInt8.ofNat n).toNat ∧ (UInt8.ofNat n).toNat < 0xF0 := by
  rw [toNat_ofNat_of_lt (by omega)]
  exact ⟨hpos, hlt⟩

/-- The bytes of a unit, in each of the three forms, are neither zero nor too large. -/
theorem unitBytes_bounds {u : Nat} (hu : u < 0x10000) (hb : b ∈ unitBytes u) :
    0 < b.toNat ∧ b.toNat < 0xF0 := by
  unfold unitBytes at hb
  split at hb
  · rename_i hone
    rw [List.mem_singleton] at hb
    exact hb ▸ bounds_ofNat (by omega) (by omega)
  split at hb
  · rename_i htwo
    simp only [List.mem_cons, List.not_mem_nil, or_false] at hb
    rcases hb with rfl | rfl <;> exact bounds_ofNat (by omega) (by omega)
  · simp only [List.mem_cons, List.not_mem_nil, or_false] at hb
    rcases hb with rfl | rfl | rfl <;> exact bounds_ofNat (by omega) (by omega)

/-- **No byte of a text is zero, and none starts a form of four bytes.** The character zero
is written in two bytes, and characters beyond 16 bits as pairs. -/
theorem encode_bounds (hb : b ∈ encode s) : 0 < b.toNat ∧ b.toNat < 0xF0 := by
  obtain ⟨u, hu, hb⟩ := List.mem_flatMap.1 hb
  obtain ⟨c, -, hc⟩ := List.mem_flatMap.1 hu
  exact unitBytes_bounds (charUnits_lt c u hc) hb

/-- A byte of the form `1111xxxx` is at least `0xF0`. -/
theorem le_of_and_eq (h : b &&& 0xF0 = 0xF0) : 0xF0 ≤ b.toNat := by
  have hand := congrArg UInt8.toNat h
  rw [UInt8.toNat_and] at hand
  calc 0xF0 = b.toNat &&& (0xF0 : UInt8).toNat := hand.symm
    _ ≤ b.toNat := Nat.and_le_left

/-- **The bytes of a text spell this text and no other,** whatever characters it has; none of
them is zero, and none has the form `1111xxxx`. -/
theorem encode_lossless :
    (∀ s, decode (encode s) = some s ∧ ∀ b ∈ encode s, b ≠ 0 ∧ b &&& 0xF0 ≠ 0xF0) ∧
      Function.Injective encode := by
  refine ⟨fun s => ⟨decode_encode s, fun b hb => ?_⟩, fun s t hst => ?_⟩
  · obtain ⟨hpos, hlt⟩ := encode_bounds hb
    refine ⟨?_, fun hform => ?_⟩
    · rintro rfl
      exact absurd hpos (by decide)
    · have hle := le_of_and_eq hform
      omega
  · have hs := decode_encode s
    rw [hst, decode_encode t] at hs
    exact (Option.some.inj hs).symm

/-- A text with characters of each kind: one byte, zero, and a pair of surrogates. -/
def mixed : String := String.ofList ['a', '\x00', Char.ofNat 0x10FFFF]

/-- A text with a letter, the character zero and the last character of all is written in
one, two and six bytes, and read back. -/
theorem mixed_lossless :
    encode mixed = [0x61, 0xC0, 0x80, 0xED, 0xAF, 0xBF, 0xED, 0xBF, 0xBF] ∧
      decode (encode mixed) = some mixed ∧
      (0xED : UInt8) ∈ encode mixed ∧ (0xED : UInt8) ≠ 0 ∧ (0xED : UInt8) &&& 0xF0 ≠ 0xF0 := by
  have hmem : (0xED : UInt8) ∈ encode mixed := by decide
  obtain ⟨hdecode, hbytes⟩ := encode_lossless.1 mixed
  exact ⟨by decide, hdecode, hmem, hbytes 0xED hmem⟩

/-! ### Bytes that are missing -/

/-- Bytes are read one part after the other. -/
theorem unitsFrom_append {done : List Nat} (h : unitsFrom done xs = some us) (ys : Bytes) :
    unitsFrom done (xs ++ ys) = unitsFrom us.reverse ys := by
  fun_induction unitsFrom done xs with
  | case1 done =>
    cases h
    rw [List.nil_append, List.reverse_reverse]
  | case2 done b₁ rest hb ih =>
    rw [List.cons_append, unitsFrom.eq_def]
    dsimp only
    rw [if_pos hb]
    exact ih h
  | case3 done b₁ h₁ h₂ b₂ rest x₂ hx₂ ih =>
    rw [List.cons_append, List.cons_append, unitsFrom, if_neg h₁, if_pos h₂]
    simp only [hx₂]
    exact ih h
  | case6 done b₁ h₁ h₂ h₃ b₂ b₃ rest x₂ x₃ hx₂ hx₃ ih =>
    rw [List.cons_append, List.cons_append, List.cons_append, unitsFrom, if_neg h₁, if_neg h₂,
      if_pos h₃]
    simp only [hx₂, hx₃]
    exact ih h
  | _ => cases h

/-- Something is put behind what is read already, unless there is nothing left to
read. -/
def Extends {α β : Type} (done : List α) (left : List β) (all : List α) : Prop :=
  ∃ more, all = done.reverse ++ more ∧ (left ≠ [] → more ≠ [])

theorem Extends.nil {α β : Type} (done : List α) : Extends done ([] : List β) done.reverse :=
  ⟨[], by simp, fun h => absurd rfl h⟩

theorem Extends.of_cons {α β : Type} {done all : List α} {a : α} {left : List β} (more : List β)
    (h : Extends (a :: done) left all) : Extends done more all := by
  obtain ⟨tail, rfl, -⟩ := h
  exact ⟨a :: tail, by simp, fun _ => List.cons_ne_nil a tail⟩

/-- Every byte belongs to a unit. -/
theorem extends_of_unitsFrom {done : List Nat} (h : unitsFrom done xs = some us) :
    Extends done xs us := by
  fun_induction unitsFrom done xs with
  | case1 done =>
    cases h
    exact .nil done
  | case2 done b₁ rest hb ih => exact (ih h).of_cons _
  | case3 done b₁ h₁ h₂ b₂ rest x₂ hx₂ ih => exact (ih h).of_cons _
  | case6 done b₁ h₁ h₂ h₃ b₂ b₃ rest x₂ x₃ hx₂ hx₃ ih => exact (ih h).of_cons _
  | _ => cases h

/-- Units are read one part after the other. -/
theorem charsFrom_append {done cs : List Char} (h : charsFrom done us = some cs) (vs : List Nat) :
    charsFrom done (us ++ vs) = charsFrom cs.reverse vs := by
  fun_induction charsFrom done us with
  | case1 done =>
    cases h
    rw [List.nil_append, List.reverse_reverse]
  | case2 done u hu v rest hv ih =>
    rw [List.cons_append, List.cons_append, charsFrom, if_pos hu, if_pos hv]
    exact ih h
  | case6 done u rest hu hv ih =>
    rw [List.cons_append, charsFrom.eq_def]
    dsimp only
    rw [if_neg hu, if_neg hv]
    exact ih h
  | _ => cases h

/-- Every unit belongs to a character. -/
theorem extends_of_charsFrom {done cs : List Char} (h : charsFrom done us = some cs) :
    Extends done us cs := by
  fun_induction charsFrom done us with
  | case1 done =>
    cases h
    exact .nil done
  | case2 done u hu v rest hv ih => exact (ih h).of_cons _
  | case6 done u rest hu hv ih => exact (ih h).of_cons _
  | _ => cases h

theorem decode_eq_some (h : decode xs = some s) :
    ∃ us, units xs = some us ∧ charsFrom [] us = some s.toList := by
  unfold decode at h
  simp only [Option.bind_eq_bind, Option.bind_eq_some_iff, Option.pure_def, Option.some.injEq] at h
  obtain ⟨us, hus, cs, hcs, rfl⟩ := h
  exact ⟨us, hus, hcs.trans (congrArg some String.toList_ofList.symm)⟩

/-- **No part of the bytes of a text spells the text.** -/
theorem length_le_of_decode_take (h : decode ((encode s).take n) = some s) :
    (encode s).length ≤ n := by
  obtain ⟨us, hus, hcs⟩ := decode_eq_some h
  obtain ⟨all, hall, hspelt⟩ := decode_eq_some (decode_encode s)
  refine Nat.le_of_not_lt fun hn => ?_
  have hmissing : (encode s).drop n ≠ [] := by
    rw [ne_eq, List.drop_eq_nil_iff]
    omega
  -- The units of the missing bytes come after those that spell the text already.
  have hunits : unitsFrom us.reverse ((encode s).drop n) = some all := by
    rw [← unitsFrom_append hus, List.take_append_drop]
    exact hall
  obtain ⟨more, rfl, hmore⟩ := extends_of_unitsFrom hunits
  rw [List.reverse_reverse, charsFrom_append hcs] at hspelt
  obtain ⟨tail, htail, hne⟩ := extends_of_charsFrom hspelt
  rw [List.reverse_reverse, List.self_eq_append_right] at htail
  exact hne (hmore hmissing) htail

end ModifiedUtf8
end ClassForge
