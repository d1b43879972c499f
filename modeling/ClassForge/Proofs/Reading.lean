/-
# What is written is read back

A reader reads a value from some bytes if it takes exactly those bytes, whatever
stands behind them (`Reader.Reads`).  So readers that follow each other read bytes
that follow each other (`Reads.bind`), and each part of a class file is looked at
on its own.

| written | read back if |
| --- | --- |
| words of 16, 32 and 64 bits | always |
| a list | it has at most 65535 items, each of which is read back |
| the bytes of an attribute | they are fewer than `2 ^ 32` |

A length that does not fit in its word is written modulo `2 ^ 16`, and then what is
read has another length.
-/

import ClassForge.Attribute
import ClassForge.Proofs.Machine

namespace ClassForge
namespace Reader

variable {α β : Type} {r : Reader α} {xs ys : Bytes} {a : α} {b : β} {rest : Bytes} {as : List α}
  {n : Nat} {item : Reader α} {write : α → Bytes} {f : α → Reader β}

/-- The reader takes exactly these bytes for the value, whatever stands behind
them. -/
def Reads (r : Reader α) (xs : Bytes) (a : α) : Prop :=
  ∀ rest, r (xs ++ rest) = .ok (a, rest)

/-! ### Readers one after the other -/

/-- What goes on after a value is read. -/
theorem bind_of_ok (h : r xs = .ok (a, rest)) : (r >>= f) xs = f a rest := by
  change (r xs >>= fun p => f p.1 p.2) = _
  rw [h]
  rfl

/-- Nothing is read behind a failure. -/
theorem bind_of_error {e : ReadError} (h : r xs = .error e) : (r >>= f) xs = .error e := by
  change (r xs >>= fun p => f p.1 p.2) = _
  rw [h]
  rfl

/-- Both parts of a reader that succeeds do. -/
theorem bind_eq_ok (h : (r >>= f) xs = .ok (b, rest)) :
    ∃ a ys, r xs = .ok (a, ys) ∧ f a ys = .ok (b, rest) := by
  cases hr : r xs with
  | ok p => exact ⟨p.1, p.2, rfl, (bind_of_ok hr).symm.trans h⟩
  | error e =>
    change (r xs >>= fun p => f p.1 p.2) = _ at h
    rw [hr] at h
    cases h

theorem Reads.nil (h : r.Reads xs a) : r xs = .ok (a, []) := by
  have hread := h []
  rwa [List.append_nil] at hread

theorem reads_pure (a : α) : (pure a : Reader α).Reads [] a := fun _ => rfl

theorem Reads.bind (hr : r.Reads xs a) (hf : (f a).Reads ys b) : (r >>= f).Reads (xs ++ ys) b := by
  intro rest
  rw [List.append_assoc, bind_of_ok (hr _)]
  exact hf rest

theorem Reads.return {f : α → β} (hr : r.Reads xs a) :
    (r >>= fun a => pure (f a) : Reader β).Reads xs (f a) :=
  fun rest => bind_of_ok (hr rest)

theorem Reads.whole (h : r.Reads xs a) (owner : String) : r.whole owner xs = .ok a := by
  rw [Reader.whole, h.nil]

/-- What is read as a whole leaves nothing behind. -/
theorem of_whole {owner : String} (h : r.whole owner xs = .ok a) : r xs = .ok (a, []) := by
  unfold Reader.whole at h
  split at h
  · cases h
    assumption
  · cases h
  · cases h

/-! ### Words

Numbers are read back from the bytes that they are written as, whatever follows. -/

theorem reads_u8 (n : UInt8) : u8.Reads [n] n := fun _ => rfl

theorem reads_u16 (n : UInt16) : u16.Reads (Bytes.u16 n) n := by
  intro rest
  change Except.ok (Machine.word _ _, rest) = _
  rw [Machine.word_bytes]

/-- A double word is read back from its bytes. -/
theorem reads_u32 (n : UInt32) : u32.Reads (Bytes.u32 n) n := by
  have hn := n.toNat_lt
  have hword : UInt32.ofNat
      ((UInt16.ofNat (n.toNat / 65536)).toNat * 65536 + (UInt16.ofNat n.toNat).toNat) = n := by
    rw [← UInt32.toNat_inj]
    simp only [UInt32.toNat_ofNat', UInt16.toNat_ofNat']
    omega
  have hread : u32.Reads (Bytes.u32 n) (UInt32.ofNat
      ((UInt16.ofNat (n.toNat / 65536)).toNat * 65536 + (UInt16.ofNat n.toNat).toNat)) :=
    (reads_u16 _).bind (reads_u16 _).return
  rwa [hword] at hread

/-- Eight bytes are read back as the number that they were written for. -/
theorem reads_u64 (n : UInt64) : u64.Reads (Bytes.u64 n) n := by
  have hn := n.toNat_lt
  have hword : UInt64.ofNat ((UInt32.ofNat (n.toNat / 4294967296)).toNat * 4294967296 +
      (UInt32.ofNat n.toNat).toNat) = n := by
    rw [← UInt64.toNat_inj]
    simp only [UInt64.toNat_ofNat', UInt32.toNat_ofNat']
    omega
  have hread : u64.Reads (Bytes.u64 n) (UInt64.ofNat
      ((UInt32.ofNat (n.toNat / 4294967296)).toNat * 4294967296 + (UInt32.ofNat n.toNat).toNat)) :=
    (reads_u32 _).bind (reads_u32 _).return
  rwa [hword] at hread

theorem reads_i32 (n : Int32) : i32.Reads (Bytes.i32 n) n := (reads_u32 n.toUInt32).return

theorem reads_i64 (n : Int64) : i64.Reads (Bytes.i64 n) n := (reads_u64 n.toUInt64).return

/-! ### Bytes and lists -/

theorem reads_take (xs : Bytes) : (take xs.length).Reads xs xs := by
  intro rest
  unfold take
  dsimp only
  rw [List.take_left, List.drop_left, if_pos rfl]

/-- The bytes that are taken are as many as were asked for. -/
theorem length_of_take {taken : Bytes} (h : take n xs = .ok (taken, rest)) : taken.length = n := by
  unfold take at h
  dsimp only at h
  split at h
  · rename_i hlength
    cases h
    exact hlength
  · cases h

/-- Items one after the other are read back if each is, behind those that are done. -/
theorem reads_countFrom (h : ∀ a ∈ as, item.Reads (write a) a) (done : List α) :
    (countFrom item as.length done).Reads (as.flatMap write) (done.reverse ++ as) := by
  induction as generalizing done with
  | nil =>
    intro rest
    simp [countFrom]
  | cons a as ih =>
    intro rest
    rw [List.flatMap_cons, List.append_assoc, List.length_cons, countFrom,
      h a List.mem_cons_self]
    dsimp only
    rw [ih (fun b hb => h b (List.mem_cons_of_mem a hb))]
    simp

theorem reads_count (h : ∀ a ∈ as, item.Reads (write a) a) :
    (count as.length item).Reads (as.flatMap write) as :=
  reads_countFrom h []

/-- **A list whose length fits in a word is read back.** -/
theorem reads_list (hlength : as.length < 65536) (h : ∀ a ∈ as, item.Reads (write a) a) :
    (list item).Reads (Bytes.list write as) as := by
  refine (reads_u16 (UInt16.ofNat as.length)).bind ?_
  rw [UInt16.toNat_ofNat', Nat.mod_eq_of_lt hlength]
  exact reads_count h

/-- As many items are read as were asked for. -/
theorem length_of_countFrom {done : List α} (h : countFrom item n done xs = .ok (as, rest)) :
    as.length = done.length + n := by
  induction n generalizing done xs with
  | zero =>
    cases h
    simp
  | succ n ih =>
    rw [countFrom] at h
    split at h
    · rw [ih h, List.length_cons]
      omega
    · cases h

/-- The items that are read are as many as were asked for. -/
theorem mem_of_countFrom {done : List α} (h : countFrom item n done xs = .ok (as, rest))
    (ha : a ∈ as) :
    a ∈ done ∨ ∃ ys zs, item ys = .ok (a, zs) := by
  induction n generalizing done xs with
  | zero =>
    cases h
    exact .inl (List.mem_reverse.1 ha)
  | succ n ih =>
    rw [countFrom] at h
    split at h
    · rename_i b ys hb
      rcases ih h with hmem | hread
      · rcases List.mem_cons.1 hmem with rfl | hmem
        · exact .inr ⟨_, _, hb⟩
        · exact .inl hmem
      · exact .inr hread
    · cases h

theorem of_list_eq_ok (h : list item xs = .ok (as, rest)) :
    as.length < 65536 ∧ ∀ a ∈ as, ∃ ys zs, item ys = .ok (a, zs) := by
  obtain ⟨n, ys, -, h⟩ := bind_eq_ok h
  refine ⟨?_, fun a ha => ?_⟩
  · rw [length_of_countFrom h, List.length_nil, Nat.zero_add]
    exact n.toNat_lt
  · rcases mem_of_countFrom h ha with hmem | hread
    · cases hmem
    · exact hread

end Reader
end ClassForge
