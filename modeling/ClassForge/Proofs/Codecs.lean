/-
# Attributes and their bytes

What is stored in an attribute is read as a whole: the reader has to take all the bytes.
So the bytes of an attribute are those of one value, and the same bytes with something
behind them are those of none (`Attribute.Inverts`).

| attribute | has bytes | read back |
| --- | --- | --- |
| `Code` | always | just if every length fits in its word |
| `SourceFile` | always | always |
| `StackMapTable` | just if `chop` and `append` are of 1 to 3 locals | just if every length fits |

The reader of a stack map looks at one byte to tell seven forms of entries apart, two of
which hold a distance in that byte, and three a number of locals; nothing else in the table
says where an entry ends.
-/

import ClassForge.Proofs.Compression

namespace ClassForge

open Reader

/-! ### Reading as a whole -/

/-- The bytes are read as the value, and with anything behind them they are refused. -/
def Attribute.Inverts {α : Type} (ofInfo : Bytes → Except ReadError α) (owner : String)
    (info : Bytes) (a : α) : Prop :=
  ofInfo info = .ok a ∧
    ∀ rest, rest ≠ [] → ofInfo (info ++ rest) = .error (.trailingBytes rest.length owner)

open Attribute (Inverts)

/-- **A reader that takes exactly some bytes takes them as a whole, and no more.** -/
theorem Reader.Reads.inverts {α : Type} {r : Reader α} {info : Bytes} {a : α}
    (h : r.Reads info a) (owner : String) : Inverts (r.whole owner) owner info a := by
  refine ⟨h.whole owner, fun rest hrest => ?_⟩
  obtain ⟨b, bytes, rfl⟩ := List.exists_cons_of_ne_nil hrest
  rw [Reader.whole, h]

/-! ### Code -/

namespace CodeAttribute

/-- Every length in a code attribute fits in the word that it is written to. -/
structure Fits (c : CodeAttribute) : Prop where
  code : c.code.length < 4294967296
  handlers : c.handlers.length < 65536
  attributes : Attribute.AllFit c.attributes

/-- The parts of a code attribute that is read have lengths that fit. -/
theorem fits_of_read {c : CodeAttribute} {xs rest : Bytes} (h : read xs = .ok (c, rest)) :
    c.Fits := by
  obtain ⟨maxStack, _, -, h⟩ := Reader.bind_eq_ok h
  obtain ⟨maxLocals, _, -, h⟩ := Reader.bind_eq_ok h
  obtain ⟨length, _, -, h⟩ := Reader.bind_eq_ok h
  obtain ⟨code, _, hcode, h⟩ := Reader.bind_eq_ok h
  obtain ⟨handlers, _, hhandlers, h⟩ := Reader.bind_eq_ok h
  obtain ⟨attributes, _, hattributes, h⟩ := Reader.bind_eq_ok h
  cases h
  refine ⟨?_, (of_list_eq_ok hhandlers).1, Attribute.allFit_of_read hattributes⟩
  show code.length < 4294967296
  rw [length_of_take hcode]
  exact length.toNat_lt

/-- **A code attribute is read back just if its lengths fit.** -/
theorem inverts_iff (c : CodeAttribute) : Inverts ofInfo label c.write c ↔ c.Fits :=
  ⟨fun h => fits_of_read (of_whole h.1),
    fun h => (reads_write h.code h.handlers h.attributes).inverts label⟩

end CodeAttribute

/-! ### Stack maps -/

namespace StackMap

/-- The lists of an entry that is read have lengths that fit. -/
theorem Entry.fits_of_read {e : Entry} {xs rest : Bytes} (h : read xs = .ok (e, rest)) :
    e.Fits := by
  obtain ⟨tag, ys, -, h⟩ := Reader.bind_eq_ok h
  cases e with
  | full delta locals stack =>
    -- the other tags do not spell lists out
    unfold readTagged at h
    split at h
    · cases h
    split at h
    · obtain ⟨_, _, -, h⟩ := Reader.bind_eq_ok h
      cases h
    split at h
    · cases h
    split at h
    · obtain ⟨_, _, -, h⟩ := Reader.bind_eq_ok h
      obtain ⟨_, _, -, h⟩ := Reader.bind_eq_ok h
      cases h
    split at h
    · obtain ⟨_, _, -, h⟩ := Reader.bind_eq_ok h
      cases h
    split at h
    · obtain ⟨_, _, -, h⟩ := Reader.bind_eq_ok h
      cases h
    split at h
    · obtain ⟨_, _, -, h⟩ := Reader.bind_eq_ok h
      obtain ⟨_, _, -, h⟩ := Reader.bind_eq_ok h
      cases h
    obtain ⟨_, _, -, h⟩ := Reader.bind_eq_ok h
    obtain ⟨_, _, hlocals, h⟩ := Reader.bind_eq_ok h
    obtain ⟨_, _, hstack, h⟩ := Reader.bind_eq_ok h
    cases h
    exact ⟨(of_list_eq_ok hlocals).1, (of_list_eq_ok hstack).1⟩
  | _ => trivial

/-- Every length in a table fits in the word that it is written to. -/
structure Table.Fits (t : Table) : Prop where
  length : t.length < 65536
  entries : ∀ e ∈ t, e.Fits

theorem Table.fits_of_read {t : Table} {xs rest : Bytes} (h : Table.read xs = .ok (t, rest)) :
    Table.Fits t := by
  obtain ⟨hlength, hitems⟩ := of_list_eq_ok h
  refine ⟨hlength, fun e he => ?_⟩
  obtain ⟨ys, zs, hread⟩ := hitems e he
  exact Entry.fits_of_read hread

theorem Table.exists_write_iff (t : Table) :
    (∃ info, Table.write t = .ok info) ↔ ∀ e ∈ t, e.HasTag :=
  ⟨fun ⟨_, h⟩ => (Table.write_eq_ok h).1, Table.exists_write⟩

/-- **A table that has bytes is read back just if its lengths fit.** -/
theorem Table.inverts_iff {t : Table} {info : Bytes} (h : Table.write t = .ok info) :
    Inverts Table.ofInfo label info t ↔ Table.Fits t :=
  ⟨fun hinverts => Table.fits_of_read (of_whole hinverts.1),
    fun hfits => (Table.reads_write h hfits.length hfits.entries).inverts label⟩

end StackMap

/-! ### All attributes -/

/-- **Attributes are read back from their bytes, and from no longer ones.**  Code and source
files always have bytes, and a stack map just if its entries have tags.  From the bytes the
same value is read just if every length fits in its word. -/
theorem Attribute.codecs_inverse :
    (∀ c : CodeAttribute, Inverts CodeAttribute.ofInfo CodeAttribute.label c.write c ↔ c.Fits) ∧
    (∀ index : UInt16,
      Inverts SourceFile.ofInfo SourceFile.label (SourceFile.write index) index) ∧
    ∀ t : StackMap.Table,
      ((∃ info, StackMap.Table.write t = .ok info) ↔ ∀ e ∈ t, e.HasTag) ∧
      ∀ info, StackMap.Table.write t = .ok info →
        (Inverts StackMap.Table.ofInfo StackMap.label info t ↔ StackMap.Table.Fits t) :=
  ⟨CodeAttribute.inverts_iff, fun index => (reads_u16 index).inverts SourceFile.label,
    fun t => ⟨StackMap.Table.exists_write_iff t, fun _ => StackMap.Table.inverts_iff⟩⟩

/-- Entries of every form, on both sides of every boundary between tags. -/
def StackMap.everyForm : Table :=
  [.same 63, .same 64, .sameOne 63 (.object 7), .sameOne 64 .null, .chop 0 1, .chop 300 3,
    .append 5 [.integer], .append 6 [.top, .float, .uninitializedThis],
    .full 65535 [.uninitialized 9, .top] [.object 258]]

/-- The bytes of these entries. -/
def StackMap.everyFormInfo : Bytes :=
  [0, 9, 63, 251, 0, 64, 127, 7, 0, 7, 247, 0, 64, 5, 250, 0, 0, 248, 1, 44, 252, 0, 5, 1,
    254, 0, 6, 0, 2, 6, 255, 255, 255, 0, 2, 8, 0, 9, 0, 0, 1, 7, 1, 2]

/-- Code with these entries in an attribute. -/
def StackMap.everyFormCode : CodeAttribute :=
  ⟨2, 3, [0xA7, 0, 0], [⟨0, 3, 0, 0⟩], [⟨1, everyFormInfo⟩]⟩

/-- A table with an entry of each form is written, and both it and the code around it are
read back from their bytes: the conditions of the general theorems can all be met. -/
theorem StackMap.everyForm_inverted :
    Table.write everyForm = .ok everyFormInfo ∧
    Inverts Table.ofInfo label everyFormInfo everyForm ∧
    Inverts CodeAttribute.ofInfo CodeAttribute.label everyFormCode.write everyFormCode := by
  have hwrite : Table.write everyForm = .ok everyFormInfo := rfl
  have hentries : ∀ e ∈ everyForm, e.Fits := by
    simp [everyForm, Entry.Fits]
  have hattributes : Attribute.AllFit everyFormCode.attributes := ⟨by decide, by decide⟩
  obtain ⟨hcode, -, htable⟩ := Attribute.codecs_inverse
  exact ⟨hwrite, ((htable everyForm).2 everyFormInfo hwrite).2 ⟨by decide, hentries⟩,
    (hcode everyFormCode).2 ⟨by decide, by decide, hattributes⟩⟩

end ClassForge
