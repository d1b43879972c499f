/-
# Class files are read back

Specification, section 8, *round-trip property*, for the container.

The parts of a class file are read back one after the other, so the class file is,
as long as every length in it fits in the word that it is written to
(`ClassFile.Fits`):

| length | word |
| --- | ---: |
| indices of the constants, and one | 16 bits |
| bytes of a text | 16 bits |
| interfaces, fields, methods, attributes | 16 bits |
| bytes of an attribute | 32 bits |

Nothing else is needed, and nothing of this can be left out: a length that does not
fit is cut, and the class file that is read is another one (`ClassFile.fits_of_read`).
-/

import ClassForge.ClassFile
import ClassForge.Proofs.ModifiedUtf8
import ClassForge.Proofs.Reading

namespace ClassForge

open Reader

/-! ### Constants -/

namespace Constant

/-- The length of a text fits in its word. -/
def Fits : Constant → Prop
  | .utf8 text => (ModifiedUtf8.encode text).length < 65536
  | _ => True

instance (c : Constant) : Decidable c.Fits :=
  match c with
  | .utf8 text => inferInstanceAs (Decidable ((ModifiedUtf8.encode text).length < 65536))
  | .classRef _ | .fieldRef .. | .methodRef .. | .string _ | .integer _ | .float _ | .long _
  | .double _ | .nameAndType .. | .methodHandle .. | .methodType _ | .invokeDynamic .. =>
    isTrue trivial

theorem width_le (c : Constant) : c.width ≤ 2 := by cases c <;> simp [width]

theorem read_cons (tag : UInt8) (bytes : Bytes) : read (tag :: bytes) = readTagged tag bytes := rfl

theorem reads_tagged {tag : UInt8} {bytes : Bytes} {c : Constant}
    (h : (readTagged tag).Reads bytes c) : read.Reads (tag :: bytes) c :=
  (reads_u8 tag).bind h

theorem reads_utf8 {text : String} (h : (Constant.utf8 text).Fits) :
    (readTagged 1).Reads
      (Bytes.u16 (UInt16.ofNat (ModifiedUtf8.encode text).length) ++ ModifiedUtf8.encode text)
      (.utf8 text) := by
  refine (reads_u16 _).bind ?_
  rw [UInt16.toNat_ofNat', Nat.mod_eq_of_lt h]
  intro rest
  rw [Reader.bind_of_ok (reads_take (ModifiedUtf8.encode text) rest)]
  rw [ModifiedUtf8.decode_encode]
  rfl

/-- **A constant is read back.** Its tag says how many bytes come behind it; only a text has
a length of its own, which has to fit in a word. -/
theorem reads_write {c : Constant} (h : c.Fits) : read.Reads c.write c := by
  cases c with
  | utf8 text => exact reads_tagged (reads_utf8 h)
  | integer value => exact reads_tagged (reads_i32 value).return
  | float value => exact reads_tagged (reads_u32 value.bits).return
  | long value => exact reads_tagged (reads_i64 value).return
  | double value => exact reads_tagged (reads_u64 value.bits).return
  | classRef name => exact reads_tagged (reads_u16 name).return
  | string text => exact reads_tagged (reads_u16 text).return
  | fieldRef owner nt => exact reads_tagged ((reads_u16 owner).bind (reads_u16 nt).return)
  | methodRef owner nt isInterface =>
    cases isInterface with
    | true => exact reads_tagged ((reads_u16 owner).bind (reads_u16 nt).return)
    | false => exact reads_tagged ((reads_u16 owner).bind (reads_u16 nt).return)
  | nameAndType name descriptor =>
    exact reads_tagged ((reads_u16 name).bind (reads_u16 descriptor).return)
  | methodHandle kind target =>
    exact reads_tagged ((reads_u8 kind).bind (reads_u16 target).return)
  | methodType descriptor => exact reads_tagged (reads_u16 descriptor).return
  | invokeDynamic bootstrap nt =>
    exact reads_tagged ((reads_u16 bootstrap).bind (reads_u16 nt).return)

/-- A text whose length is cut is not read back. -/
theorem fits_of_read {c : Constant} {rest left : Bytes}
    (h : read (c.write ++ rest) = .ok (c, left)) : c.Fits := by
  cases c with
  | utf8 text =>
    unfold Fits
    have hlength : (UInt16.ofNat (ModifiedUtf8.encode text).length).toNat ≤
        (ModifiedUtf8.encode text).length := by
      rw [UInt16.toNat_ofNat']
      exact Nat.mod_le _ _
    have hbytes : (Constant.utf8 text).write ++ rest = 1 ::
        (Bytes.u16 (UInt16.ofNat (ModifiedUtf8.encode text).length) ++
          (ModifiedUtf8.encode text ++ rest)) := by
      simp [write]
    rw [hbytes, read_cons] at h
    obtain ⟨n, ys, hn, h⟩ := Reader.bind_eq_ok h
    rw [reads_u16] at hn
    cases hn
    obtain ⟨taken, zs, htake, h⟩ := Reader.bind_eq_ok h
    have htaken : taken = (ModifiedUtf8.encode text).take
        (UInt16.ofNat (ModifiedUtf8.encode text).length).toNat := by
      unfold Reader.take at htake
      dsimp only at htake
      rw [List.take_append_of_le_length hlength] at htake
      split at htake
      · cases htake
        rfl
      · cases htake
    cases hfound : ModifiedUtf8.decode taken with
    | none =>
      rw [hfound] at h
      cases h
    | some found =>
      rw [hfound] at h
      cases h
      rw [htaken] at hfound
      have := ModifiedUtf8.length_le_of_decode_take hfound
      rw [UInt16.toNat_ofNat'] at this
      exact Nat.lt_of_le_of_lt this (Nat.mod_lt _ (by decide))
  | _ => trivial

end Constant

/-! ### Attributes and members -/

namespace Attribute

/-- A list of attributes whose lengths fit in their words. -/
structure AllFit (as : List Attribute) : Prop where
  length : as.length < 65536
  info : ∀ a ∈ as, a.info.length < 4294967296

/-- An attribute is read back. -/
theorem reads_write {a : Attribute} (h : a.info.length < 4294967296) : read.Reads a.write a := by
  rw [write, List.append_assoc]
  refine (reads_u16 a.name).bind ((reads_u32 _).bind ?_)
  rw [UInt32.toNat_ofNat', Nat.mod_eq_of_lt h]
  exact (reads_take a.info).return

theorem AllFit.reads {as : List Attribute} (h : AllFit as) :
    (Reader.list read).Reads (Bytes.list write as) as :=
  reads_list h.length fun a ha => reads_write (h.info a ha)

theorem length_of_read {a : Attribute} {xs rest : Bytes} (h : read xs = .ok (a, rest)) :
    a.info.length < 4294967296 := by
  obtain ⟨name, ys, -, h⟩ := Reader.bind_eq_ok h
  obtain ⟨length, zs, -, h⟩ := Reader.bind_eq_ok h
  obtain ⟨info, us, htake, h⟩ := Reader.bind_eq_ok h
  cases h
  rw [length_of_take htake]
  exact length.toNat_lt

/-- Attributes that are read have lengths that fit. -/
theorem allFit_of_read {as : List Attribute} {xs rest : Bytes}
    (h : Reader.list read xs = .ok (as, rest)) : AllFit as := by
  obtain ⟨hlength, hitems⟩ := of_list_eq_ok h
  refine ⟨hlength, fun a ha => ?_⟩
  obtain ⟨ys, zs, hread⟩ := hitems a ha
  exact length_of_read hread

end Attribute

theorem Flags.reads_write {o : FlagOwner} (a : Flags o) : (Flags.read o).Reads a.write a := by
  have h : (Flags.read o).Reads a.write (Flags.ofBits o a.bits) := (reads_u16 a.bits).return
  rwa [Flags.ofBits_bits] at h

theorem Version.reads_write (v : Version) : Version.read.Reads v.write v :=
  (reads_u16 v.minor).bind (reads_u16 v.major).return

namespace MemberInfo

variable {o : FlagOwner}

/-- A list of members whose lengths fit in their words. -/
structure AllFit (ms : List (MemberInfo o)) : Prop where
  length : ms.length < 65536
  attributes : ∀ m ∈ ms, Attribute.AllFit m.attributes

/-- A member is read back. -/
theorem reads_write {m : MemberInfo o} (h : Attribute.AllFit m.attributes) :
    (read o).Reads m.write m := by
  rw [write, List.append_assoc, List.append_assoc]
  exact m.flags.reads_write.bind ((reads_u16 m.name).bind ((reads_u16 m.descriptor).bind
    h.reads.return))

theorem AllFit.reads {ms : List (MemberInfo o)} (h : AllFit ms) :
    (Reader.list (read o)).Reads (Bytes.list write ms) ms :=
  reads_list h.length fun m hm => reads_write (h.attributes m hm)

/-- Members that are read have lengths that fit. -/
theorem allFit_of_read {ms : List (MemberInfo o)} {xs rest : Bytes}
    (h : Reader.list (read o) xs = .ok (ms, rest)) : AllFit ms := by
  obtain ⟨hlength, hitems⟩ := of_list_eq_ok h
  refine ⟨hlength, fun m hm => ?_⟩
  obtain ⟨ys, zs, hread⟩ := hitems m hm
  obtain ⟨flags, _, -, hread⟩ := Reader.bind_eq_ok hread
  obtain ⟨name, _, -, hread⟩ := Reader.bind_eq_ok hread
  obtain ⟨descriptor, _, -, hread⟩ := Reader.bind_eq_ok hread
  obtain ⟨attributes, _, hattributes, hread⟩ := Reader.bind_eq_ok hread
  cases hread
  exact Attribute.allFit_of_read hattributes

end MemberInfo

/-! ### Class files -/

namespace ClassFile

/-- Constants are read back one after the other. What is counted is the indices that they
take, not their number. -/
theorem reads_constants {cs : List Constant} (h : ∀ c ∈ cs, c.Fits) (done : List Constant) :
    (readConstants (totalWidth cs) done).Reads (cs.flatMap Constant.write)
      (done.reverse ++ cs) := by
  induction cs generalizing done with
  | nil =>
    intro rest
    rw [totalWidth, readConstants, if_pos rfl, List.append_nil]
    rfl
  | cons c cs ih =>
    intro rest
    have hwidth := c.width_pos
    rw [totalWidth, readConstants, if_neg (by omega), List.flatMap_cons, List.append_assoc,
      Constant.reads_write (h c List.mem_cons_self)]
    dsimp only
    rw [Nat.add_sub_cancel_left, ih fun d hd => h d (List.mem_cons_of_mem c hd)]
    simp

/-- What is read already stays. -/
theorem extends_readConstants {remaining : Nat} {done all : List Constant} {xs rest : Bytes}
    (h : readConstants remaining done xs = .ok (all, rest)) :
    ∃ more, all = done.reverse ++ more := by
  fun_induction readConstants remaining done xs with
  | case1 done xs =>
    cases h
    exact ⟨[], (List.append_nil _).symm⟩
  | case2 remaining done xs hne c left hread ih =>
    obtain ⟨more, rfl⟩ := ih h
    exact ⟨c :: more, by simp⟩
  | case3 => cases h

/-- The first of the constants that are read. -/
theorem readConstants_cons {remaining : Nat} {done cs : List Constant} {c : Constant}
    {xs rest : Bytes} (h : readConstants remaining done xs = .ok (done.reverse ++ c :: cs, rest)) :
    remaining ≠ 0 ∧ ∃ left, Constant.read xs = .ok (c, left) ∧
      readConstants (remaining - c.width) (c :: done) left =
        .ok ((c :: done).reverse ++ cs, rest) := by
  rw [readConstants] at h
  split at h
  · simp at h
  rename_i hne
  split at h
  · rename_i d left hread
    obtain ⟨more, hmore⟩ := extends_readConstants h
    rw [List.reverse_cons, List.append_assoc, List.append_cancel_left_eq, List.singleton_append,
      List.cons.injEq] at hmore
    obtain ⟨rfl, rfl⟩ := hmore
    refine ⟨hne, left, hread, ?_⟩
    rw [List.reverse_cons, List.append_assoc]
    exact h
  · cases h

/-- Constants that are read back have lengths that fit. -/
theorem fits_of_readConstants {cs : List Constant} {remaining : Nat} {done : List Constant}
    {xs rest : Bytes}
    (h : readConstants remaining done (cs.flatMap Constant.write ++ xs) =
      .ok (done.reverse ++ cs, rest)) : ∀ c ∈ cs, c.Fits := by
  induction cs generalizing remaining done with
  | nil => simp
  | cons c cs ih =>
    obtain ⟨-, left, hread, h⟩ := readConstants_cons h
    rw [List.flatMap_cons, List.append_assoc] at hread
    have hc := Constant.fits_of_read hread
    rw [Constant.reads_write hc] at hread
    cases hread
    intro d hd
    rcases List.mem_cons.1 hd with rfl | hd
    · exact hc
    · exact ih h d hd

/-- Constants are read until the indices are used up; the last one may take one
more. -/
theorem width_of_readConstants {remaining : Nat} {done cs : List Constant} {xs rest : Bytes}
    (h : readConstants remaining done xs = .ok (done.reverse ++ cs, rest)) :
    totalWidth cs ≤ if remaining = 0 then 0 else remaining + 1 := by
  induction cs generalizing remaining done xs with
  | nil => exact Nat.zero_le _
  | cons c cs ih =>
    obtain ⟨hne, left, -, h⟩ := readConstants_cons h
    have hwidth := c.width_le
    have hcs := ih h
    rw [totalWidth, if_neg hne]
    split at hcs <;> omega

/-- Every length in the class file fits in the word that it is written to. -/
structure Fits (c : ClassFile) : Prop where
  constants : totalWidth c.constants ≤ 65534
  texts : ∀ k ∈ c.constants, k.Fits
  interfaces : c.interfaces.length < 65536
  fields : MemberInfo.AllFit c.fields
  methods : MemberInfo.AllFit c.methods
  attributes : Attribute.AllFit c.attributes

theorem toNat_count {cs : List Constant} (h : totalWidth cs ≤ 65534) :
    (UInt16.ofNat (1 + totalWidth cs)).toNat - 1 = totalWidth cs := by
  rw [UInt16.toNat_ofNat']
  omega

/-- **A class file whose lengths fit is read back** -/
theorem Fits.reads {c : ClassFile} (h : c.Fits) : read.Reads c.write c := by
  have hconstants := reads_constants h.texts []
  rw [← toNat_count h.constants] at hconstants
  simp only [write, List.append_assoc]
  refine (reads_take magic).bind ?_
  rw [if_neg (fun hne => hne rfl)]
  refine c.version.reads_write.bind ((reads_u16 _).bind (hconstants.bind
    (c.flags.reads_write.bind ((reads_u16 c.thisClass).bind ((reads_u16 c.superClass).bind ?_)))))
  exact (reads_list h.interfaces fun i _ => reads_u16 i).bind
    (h.fields.reads.bind (h.methods.reads.bind h.attributes.reads.return))

theorem totalWidth_le {cs : List Constant} {xs rest : Bytes}
    (h : readConstants ((UInt16.ofNat (1 + totalWidth cs)).toNat - 1) [] xs = .ok (cs, rest)) :
    totalWidth cs ≤ 65534 := by
  have hle := @width_of_readConstants _ [] cs xs rest h
  rw [UInt16.toNat_ofNat'] at hle
  split at hle <;> omega

/-- **A class file that is read back has lengths that fit.** So the condition of
`Fits.reads` is not only enough but needed. -/
theorem fits_of_read {c : ClassFile} {rest : Bytes} (h : read c.write = .ok (c, rest)) :
    c.Fits := by
  simp only [write, List.append_assoc] at h
  obtain ⟨found, _, hfound, h⟩ := Reader.bind_eq_ok h
  cases (reads_take magic _).symm.trans hfound
  rw [if_neg (fun hne => hne rfl)] at h
  obtain ⟨version, _, hversion, h⟩ := Reader.bind_eq_ok h
  obtain ⟨-, rfl⟩ := Prod.mk.inj (Except.ok.inj ((c.version.reads_write _).symm.trans hversion))
  obtain ⟨count, _, hcount, h⟩ := Reader.bind_eq_ok h
  obtain ⟨rfl, rfl⟩ := Prod.mk.inj (Except.ok.inj ((reads_u16 _ _).symm.trans hcount))
  obtain ⟨constants, _, hconstants, h⟩ := Reader.bind_eq_ok h
  obtain ⟨flags, _, -, h⟩ := Reader.bind_eq_ok h
  obtain ⟨thisClass, _, -, h⟩ := Reader.bind_eq_ok h
  obtain ⟨superClass, _, -, h⟩ := Reader.bind_eq_ok h
  obtain ⟨interfaces, _, hinterfaces, h⟩ := Reader.bind_eq_ok h
  obtain ⟨fields, _, hfields, h⟩ := Reader.bind_eq_ok h
  obtain ⟨methods, _, hmethods, h⟩ := Reader.bind_eq_ok h
  obtain ⟨attributes, _, hattributes, h⟩ := Reader.bind_eq_ok h
  obtain ⟨rfl, -⟩ := Prod.mk.inj (Except.ok.inj h)
  exact
    { constants := totalWidth_le hconstants
      texts := fits_of_readConstants hconstants
      interfaces := (of_list_eq_ok hinterfaces).1
      fields := MemberInfo.allFit_of_read hfields
      methods := MemberInfo.allFit_of_read hmethods
      attributes := Attribute.allFit_of_read hattributes }

/-- A parse succeeds just if the class is read and nothing is left. -/
theorem parse_eq_ok {bytes : Bytes} {c : ClassFile} :
    parse bytes = .ok c ↔ read bytes = .ok (c, []) := by
  unfold parse
  constructor
  · intro h
    split at h
    · cases h
      assumption
    · cases h
    · cases h
  · intro h
    rw [h]

/-- **A class whose lengths fit is read back from its bytes** -/
theorem Fits.read_write {c : ClassFile} (h : c.Fits) : read c.write = .ok (c, []) := h.reads.nil

/-- **Class files are read back.**  Whatever the version, the constants, the flags, the
members and the attributes are: if every length fits in its word, the bytes of a class
file are those of this class file, bit for bit. -/
theorem parse_write {c : ClassFile} (h : c.Fits) : parse c.write = .ok c :=
  parse_eq_ok.2 h.read_write

/-- A class file with constants of every kind, two of which take two indices, and with
attributes inside of an attribute. -/
def assorted : ClassFile where
  version := ⟨3, 61⟩
  constants :=
    [.utf8 "a\x00é\u20AC", .classRef 1, .long (-2), .nameAndType 1 1, .double ⟨0x7FF8000000000001⟩,
      .float ⟨0xFFC00001⟩, .integer (-1), .string 1, .fieldRef 2 5, .methodRef 2 5 true,
      .methodRef 2 5 false, .methodHandle 6 12, .methodType 1, .invokeDynamic 0 5]
  flags := .ofBits _ 0x0421
  thisClass := 2
  superClass := 0
  interfaces := [2, 2]
  fields := [⟨.ofBits _ 0x1000, 1, 1, []⟩]
  methods := [⟨.ofBits _ 0x0009, 1, 1,
    [⟨1, CodeAttribute.write ⟨1, 0, [0xB1], [⟨0, 1, 0, 2⟩], [⟨1, [0, 0]⟩]⟩⟩]⟩]
  attributes := [⟨1, []⟩, ⟨1, [0, 1]⟩]

/-- The lengths of the sample class fit. -/
theorem assorted_fits : assorted.Fits where
  constants := by decide
  texts := by decide
  interfaces := by decide
  fields := ⟨by decide, fun m hm => ⟨by revert m; decide, by revert m; decide⟩⟩
  methods := ⟨by decide, fun m hm => ⟨by revert m; decide, by revert m; decide⟩⟩
  attributes := ⟨by decide, by decide⟩

/-- A class with one constant of each kind is parsed from its bytes, those that take two
indices included. -/
theorem parse_assorted : assorted.Fits ∧ totalWidth assorted.constants = 16 ∧
    parse assorted.write = .ok assorted :=
  ⟨assorted_fits, by decide, parse_write assorted_fits⟩

end ClassFile
end ClassForge
