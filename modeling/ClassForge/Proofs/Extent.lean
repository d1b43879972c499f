/-
# Where a class file ends

A reader goes forward through the bytes and looks at nothing behind those that it takes.
So on whichever bytes it succeeds, written by this library or not, the bytes that it takes
settle what it answers on others (`Reader.Takes`):

| bytes | answer |
| --- | --- |
| those taken, and anything behind them | the same value |
| a proper part of those taken | the end of the input |

This is kept by readers one after the other and by the two loops, over the items of a list
and over the constants of a pool.  So the bytes of a class file are never the beginning of
the bytes of another (`ClassFile.parse_delimits`), and whatever is refused is refused
because of its bytes, never as a failure of the input itself.
-/

import ClassForge.Proofs.RoundTrip

namespace ClassForge

/-! ### What a reader takes -/

namespace Reader

variable {α β : Type} {r : Reader α} {xs ys : Bytes} {a : α} {b : β}

/-- The reader takes these bytes for the value, whatever stands behind them, and all of
them are needed. -/
structure Takes (r : Reader α) (taken : Bytes) (a : α) : Prop where
  reads : r.Reads taken a
  short : ∀ front back, front ++ back = taken → back ≠ [] → r front = .error .endOfInput

/-- Wherever the reader succeeds, it has taken some bytes from the front. -/
def Measured (r : Reader α) : Prop :=
  ∀ (xs : Bytes) (a : α) (rest : Bytes), r xs = .ok (a, rest) →
    ∃ taken, taken ++ rest = xs ∧ r.Takes taken a

theorem takes_pure (a : α) : (pure a : Reader α).Takes [] a where
  reads := reads_pure a
  short _ _ h hback := absurd (List.append_eq_nil_iff.1 h).2 hback

/-- **Readers one after the other take what both take.** -/
theorem Takes.bind {f : α → Reader β} (hr : r.Takes xs a) (hf : (f a).Takes ys b) :
    (r >>= f).Takes (xs ++ ys) b where
  reads := hr.reads.bind hf.reads
  short front back h hback := by
    -- The bytes end inside what the first reader takes, or else inside what the second takes.
    rcases List.append_eq_append_iff.1 h with ⟨more, hxs, hback'⟩ | ⟨more, rfl, hys⟩
    · by_cases hmore : more = []
      · subst hmore
        rw [List.append_nil] at hxs
        rw [List.nil_append] at hback'
        subst hxs hback'
        rw [bind_of_ok hr.reads.nil]
        exact hf.short [] back rfl hback
      · exact bind_of_error (hr.short front more hxs.symm hmore)
    · rw [bind_of_ok (hr.reads more)]
      exact hf.short more back hys.symm hback

theorem measured_pure (a : α) : (pure a : Reader α).Measured := by
  intro xs b rest h
  cases h
  exact ⟨[], rfl, takes_pure a⟩

theorem measured_throw (e : ReadError) : (throw e : Reader α).Measured := by
  intro xs b rest h
  cases h

theorem Measured.bind {f : α → Reader β} (hr : r.Measured) (hf : ∀ a, (f a).Measured) :
    (r >>= f).Measured := by
  intro xs b rest h
  obtain ⟨a, ys, ha, hb⟩ := bind_eq_ok h
  obtain ⟨first, rfl, hfirst⟩ := hr xs a ys ha
  obtain ⟨second, rfl, hsecond⟩ := hf a ys b rest hb
  exact ⟨first ++ second, List.append_assoc first second rest, hfirst.bind hsecond⟩

theorem Measured.return (hr : r.Measured) (f : α → β) :
    (r >>= fun a => pure (f a) : Reader β).Measured :=
  hr.bind fun a => measured_pure (f a)

/-! ### Words and bytes

Readers of a fixed size take just so many bytes, and fail at the end of what is there. -/

/-- A byte is one byte, and without it the input is at its end. -/
theorem measured_u8 : u8.Measured := by
  intro xs b rest h
  cases xs with
  | nil => cases h
  | cons x xs =>
    cases h
    refine ⟨[b], rfl, reads_u8 b, fun front back hfront hback => ?_⟩
    cases front with
    | nil => rfl
    | cons y front =>
      have hnil := (List.cons.inj hfront).2
      exact absurd (List.append_eq_nil_iff.1 hnil).2 hback

/-- A word is two bytes, and with fewer the input is at its end. -/
theorem measured_u16 : u16.Measured := by
  intro xs n rest h
  unfold u16 at h
  split at h
  · rename_i hi lo tail
    cases h
    refine ⟨[hi, lo], rfl, fun _ => rfl, fun front back hfront hback => ?_⟩
    -- A proper part of two bytes has one byte or none.
    rcases front with _ | ⟨x, _ | ⟨y, front⟩⟩
    · rfl
    · rfl
    · have hnil := (List.cons.inj (List.cons.inj hfront).2).2
      exact absurd (List.append_eq_nil_iff.1 hnil).2 hback
  · cases h

theorem measured_u32 : u32.Measured :=
  measured_u16.bind fun _ => measured_u16.return _

theorem measured_u64 : u64.Measured :=
  measured_u32.bind fun _ => measured_u32.return _

theorem measured_i32 : i32.Measured := measured_u32.return _

theorem measured_i64 : i64.Measured := measured_u64.return _

/-- So many bytes are taken as asked for, and with fewer of them the input is at its end. -/
theorem measured_take (n : Nat) : (take n).Measured := by
  intro xs taken rest h
  have hlength := length_of_take h
  unfold take at h
  dsimp only at h
  split at h
  · cases h
    refine ⟨xs.take n, List.take_append_drop n xs, ?_, fun front back hfront hback => ?_⟩
    · have hreads := reads_take (xs.take n)
      rwa [hlength] at hreads
    · have hshort : front.length < n := by
        have hsum := congrArg List.length hfront
        have hpos := List.length_pos_iff.2 hback
        rw [List.length_append] at hsum
        omega
      unfold take
      dsimp only
      rw [if_neg]
      rw [List.length_take]
      omega
  · cases h

/-! ### Loops -/

/-- One item more is read before the others. -/
theorem countFrom_succ (item : Reader α) (n : Nat) (done : List α) :
    countFrom item (n + 1) done = item >>= fun a => countFrom item n (a :: done) := by
  funext xs
  rw [countFrom]
  cases h : item xs with
  | ok p =>
    obtain ⟨a, rest⟩ := p
    rw [bind_of_ok h]
  | error e => exact (bind_of_error h).symm

theorem Measured.countFrom {item : Reader α} (h : item.Measured) (n : Nat) (done : List α) :
    (Reader.countFrom item n done).Measured := by
  induction n generalizing done with
  | zero => exact measured_pure done.reverse
  | succ n ih =>
    rw [countFrom_succ]
    exact h.bind fun a => ih (a :: done)

theorem Measured.list {item : Reader α} (h : item.Measured) : (Reader.list item).Measured :=
  measured_u16.bind fun n => h.countFrom n.toNat []

end Reader

open Reader

namespace Constant

/-- Whatever the tag is, the bytes of a constant are settled by those behind it. -/
theorem measured_readTagged (tag : UInt8) : (readTagged tag).Measured := by
  unfold readTagged
  split
  · refine measured_u16.bind fun n => (measured_take n.toNat).bind fun bytes => ?_
    split
    · exact measured_pure _
    · exact measured_throw _
  · exact measured_i32.return _
  · exact measured_u32.return _
  · exact measured_i64.return _
  · exact measured_u64.return _
  · exact measured_u16.return _
  · exact measured_u16.return _
  · exact measured_u16.bind fun _ => measured_u16.return _
  · exact measured_u16.bind fun _ => measured_u16.return _
  · exact measured_u16.bind fun _ => measured_u16.return _
  · exact measured_u16.bind fun _ => measured_u16.return _
  · exact measured_u8.bind fun _ => measured_u16.return _
  · exact measured_u16.return _
  · exact measured_u16.bind fun _ => measured_u16.return _
  · exact measured_throw _

theorem measured_read : read.Measured := measured_u8.bind measured_readTagged

end Constant

theorem Attribute.measured_read : Attribute.read.Measured :=
  measured_u16.bind fun _ => measured_u32.bind fun n => (measured_take n.toNat).return _

theorem Flags.measured_read (o : FlagOwner) : (Flags.read o).Measured := measured_u16.return _

theorem MemberInfo.measured_read (o : FlagOwner) : (MemberInfo.read o).Measured :=
  (Flags.measured_read o).bind fun _ => measured_u16.bind fun _ => measured_u16.bind fun _ =>
    Attribute.measured_read.list.return _

theorem Version.measured_read : Version.read.Measured :=
  measured_u16.bind fun _ => measured_u16.return _

/-! ### Class files -/

namespace ClassFile

/-- A constant is read before the others, as long as indices are left. -/
theorem readConstants_of_pos {remaining : Nat} (h : remaining ≠ 0) (done : List Constant) :
    readConstants remaining done =
      Constant.read >>= fun c => readConstants (remaining - c.width) (c :: done) := by
  funext xs
  rw [readConstants, if_neg h]
  cases hc : Constant.read xs with
  | ok p =>
    obtain ⟨c, rest⟩ := p
    rw [Reader.bind_of_ok hc]
  | error e => exact (Reader.bind_of_error hc).symm

/-- **The bytes of a pool are settled by its constants,** also if the last of them takes an
index more than is left. -/
theorem measured_readConstants (remaining : Nat) (done : List Constant) :
    (readConstants remaining done).Measured := by
  induction remaining using Nat.strongRecOn generalizing done with
  | ind remaining ih =>
    by_cases h : remaining = 0
    · subst h
      have hdone : readConstants 0 done = pure done.reverse := by
        funext xs
        rw [readConstants, if_pos rfl]
        rfl
      rw [hdone]
      exact measured_pure done.reverse
    · rw [readConstants_of_pos h]
      refine Constant.measured_read.bind fun c => ih _ ?_ (c :: done)
      have := c.width_pos
      omega

/-- **A class file is measured**: the bytes in front of it say how far it goes, and every
one of them is needed. -/
theorem measured_read : read.Measured := by
  refine (measured_take 4).bind fun found => ?_
  split
  · exact measured_throw _
  · exact Version.measured_read.bind fun _ => measured_u16.bind fun n =>
      (measured_readConstants (n.toNat - 1) []).bind fun _ =>
      (Flags.measured_read .ofClass).bind fun _ => measured_u16.bind fun _ =>
      measured_u16.bind fun _ => measured_u16.list.bind fun _ =>
      (MemberInfo.measured_read .ofField).list.bind fun _ =>
      (MemberInfo.measured_read .ofMethod).list.bind fun _ =>
      Attribute.measured_read.list.return _

theorem takes_of_parse {b : Bytes} {c : ClassFile} (h : parse b = .ok c) : read.Takes b c := by
  obtain ⟨taken, htaken, htakes⟩ := measured_read b c [] (parse_eq_ok.1 h)
  rw [List.append_nil] at htaken
  rwa [htaken] at htakes

theorem parse_of_error {b : Bytes} {e : ReadError} (h : read b = .error e) :
    parse b = .error (.read e) := by
  rw [parse, h]

theorem parse_of_rest {b rest : Bytes} {c : ClassFile} (h : read b = .ok (c, rest))
    (hrest : rest ≠ []) : parse b = .error (.trailing rest.length) := by
  cases rest with
  | nil => exact absurd rfl hrest
  | cons x rest => rw [parse, h]

end ClassFile

/-- Does the reason lie in the bytes of a class file?  They end too early, hold invalid data,
or go on behind the class.  A failure of any other kind would be one of the input itself. -/
def Malformed.LiesInBytes : Malformed → Prop
  | .read e => e.kind = .unexpectedEof ∨ e.kind = .invalidData
  | .trailing count => 0 < count
  | _ => False

namespace ClassFile

/-- Whatever a parse fails with is a fault of the bytes, never one of looking something up
in the class. -/
theorem liesInBytes_of_parse {b : Bytes} {reason : Malformed} (h : parse b = .error reason) :
    reason.LiesInBytes := by
  unfold parse at h
  split at h
  · cases h
  · rename_i rest hrest hread
    cases h
    exact List.length_pos_iff.2 hrest
  · rename_i e hread
    cases h
    exact e.kind_eq

/-- **Missing bytes and bytes too many are always noticed.**  Whatever bytes are accepted as a
class file, each proper part of their front ends too early and each longer sequence has bytes
left over; and whatever bytes are refused, the reason lies in them. -/
theorem parse_delimits (b : Bytes) :
    (∀ c, parse b = .ok c →
      (∀ p, p <+: b → p ≠ b → parse p = .error (.read .endOfInput)) ∧
      ∀ x, b <+: x → x ≠ b → parse x = .error (.trailing (x.length - b.length))) ∧
    ∀ reason, parse b = .error reason → reason.LiesInBytes := by
  refine ⟨fun c hc => ⟨?_, ?_⟩, fun reason => liesInBytes_of_parse⟩
  · rintro p ⟨missing, hp⟩ hne
    have hmissing : missing ≠ [] := by
      rintro rfl
      rw [List.append_nil] at hp
      exact hne hp
    exact parse_of_error ((takes_of_parse hc).short p missing hp hmissing)
  · rintro x ⟨extra, rfl⟩ hne
    have hextra : extra ≠ [] := by
      rintro rfl
      exact hne (List.append_nil b)
    rw [List.length_append, Nat.add_sub_cancel_left]
    exact parse_of_rest ((takes_of_parse hc).reads extra) hextra

/-- Bytes that no class file is written as: a text in a form that is longer than needed, a
long whose second index is not counted, and flags without a meaning. -/
def oddities : Bytes :=
  [0xCA, 0xFE, 0xBA, 0xBE, 0, 0, 0, 52, 0, 3,
    1, 0, 2, 0xC1, 0x81,
    5, 0, 0, 0, 0, 0, 0, 0, 7,
    0x80, 0x21, 0, 0, 0, 0, 0, 0, 0, 0, 0, 0, 0, 0]

/-- What is read from them, and written otherwise. -/
def oddity : ClassFile :=
  ⟨⟨0, 52⟩, [.utf8 "A", .long 7], .ofBits _ 0x21, 0, 0, [], [], [], []⟩

/-- The sample file is read in full, although some of what it holds makes no sense as a
class. -/
theorem read_oddities : read oddities = .ok (oddity, []) := by
  have hpool (rest : Bytes) : readConstants 2 []
      ([1, 0, 2, 0xC1, 0x81, 5, 0, 0, 0, 0, 0, 0, 0, 7] ++ rest) =
      .ok ([.utf8 "A", .long 7], rest) := by
    rw [readConstants_of_pos (by decide), Reader.bind_of_ok (a := .utf8 "A") rfl,
      readConstants_of_pos (by decide), Reader.bind_of_ok (a := .long 7) rfl, readConstants,
      if_pos (by decide)]
    rfl
  rw [read, Reader.bind_of_ok (a := magic) rfl, if_neg (by decide)]
  dsimp only
  rw [Reader.bind_of_ok (a := ⟨0, 52⟩) rfl, Reader.bind_of_ok (a := 3) rfl]
  exact Reader.bind_of_ok (hpool (oddities.drop 24))

/-- **Each side of the general theorem has an example**: a file that is read but not written
back as it was, one that ends too early, and one with bytes behind the class. -/
theorem oddities_delimited :
    (parse oddities = .ok oddity ∧ oddity.write ≠ oddities) ∧
    parse oddities.dropLast = .error (.read .endOfInput) ∧
    parse (oddities ++ [0, 0]) = .error (.trailing 2) ∧
    Malformed.LiesInBytes (.read .endOfInput) := by
  have hparse : parse oddities = .ok oddity := parse_eq_ok.2 read_oddities
  obtain ⟨hparts, hlonger⟩ := (parse_delimits oddities).1 oddity hparse
  have hpart : parse oddities.dropLast = .error (.read .endOfInput) :=
    hparts oddities.dropLast (List.dropLast_prefix oddities) (by decide)
  have hlong : parse (oddities ++ [0, 0]) = .error (.trailing 2) :=
    hlonger (oddities ++ [0, 0]) (List.prefix_append oddities [0, 0]) (by decide)
  exact ⟨⟨hparse, by decide⟩, hpart, hlong, (parse_delimits oddities.dropLast).2 _ hpart⟩

end ClassFile
end ClassForge
