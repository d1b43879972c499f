/-
# Stack maps are read back and played back

Specification, section 4.5, and section 8, *round-trip property*, for stack maps.

An entry is read back from its bytes if its lists are short enough (`Entry.Fits`),
and so is a table.  The entries that frames are compressed to play back as the
frames, if their offsets increase (`expand_compress`): each entry makes its frame of
the one before it, and says how far it is from it.

| entry | the frame that it makes |
| --- | --- |
| `same` | the locals before it |
| `chop` | the locals before it, which the frame's locals begin |
| `append` | the locals before it, with which the frame's locals begin |
| `full` | spelled out |
-/

import ClassForge.Proofs.RoundTrip
import ClassForge.StackMap.Table

namespace ClassForge

open Reader

/-! ### Types -/

/-- **A stored type is read back.** -/
theorem StoredType.reads_write (t : StoredType) : StoredType.read.Reads (StoredType.write t) t := by
  cases t with
  | object index => exact (reads_u8 7).bind (reads_u16 index).return
  | uninitialized offset => exact (reads_u8 8).bind (reads_u16 offset).return
  | top => exact (reads_u8 0).bind (reads_pure _)
  | integer => exact (reads_u8 1).bind (reads_pure _)
  | float => exact (reads_u8 2).bind (reads_pure _)
  | null => exact (reads_u8 5).bind (reads_pure _)
  | uninitializedThis => exact (reads_u8 6).bind (reads_pure _)

namespace StackMap

variable {info : Bytes} {frames : List (UInt16 × StoredFrame)} {t : Table}

/-! ### Entries -/

namespace Entry

/-- The lists that an entry spells out have lengths that fit in their words. -/
def Fits : Entry → Prop
  | .full _ locals stack => locals.length < 65536 ∧ stack.length < 65536
  | _ => True

theorem reads_tagged {tag : UInt8} {bytes : Bytes} {e : Entry}
    (h : (readTagged tag).Reads bytes e) : read.Reads (tag :: bytes) e :=
  (reads_u8 tag).bind h

section Tags

variable {n : Nat}

theorem toNat_tag (h : n < 256) : (UInt8.ofNat n).toNat = n := by
  rw [UInt8.toNat_ofNat']
  omega

theorem toNat_word (h : n < 65536) : (UInt16.ofNat n).toNat = n := by
  rw [UInt16.toNat_ofNat']
  omega

/-- The tag of a short entry holds the distance. -/
theorem readTagged_same (h : n < 64) :
    readTagged (UInt8.ofNat n) = pure (.same (UInt16.ofNat n)) := by
  unfold readTagged
  rw [toNat_tag (by omega)]
  dsimp only
  rw [if_pos h]

theorem readTagged_sameOne (h : n < 64) : readTagged (UInt8.ofNat (64 + n)) =
    (do return .sameOne (UInt16.ofNat n) (← StoredType.read)) := by
  unfold readTagged
  rw [toNat_tag (by omega)]
  dsimp only
  rw [if_neg (by omega), if_pos (by omega), Nat.add_sub_cancel_left]

theorem readTagged_chop (h : 1 ≤ n ∧ n ≤ 3) : readTagged (UInt8.ofNat (251 - n)) =
    (do return .chop (← Reader.u16) (UInt8.ofNat n)) := by
  unfold readTagged
  rw [toNat_tag (by omega)]
  dsimp only
  rw [if_neg (by omega), if_neg (by omega), if_neg (by omega), if_neg (by omega),
    if_pos (by omega), Nat.sub_sub_self (by omega)]

theorem readTagged_append (h : 1 ≤ n ∧ n ≤ 3) : readTagged (UInt8.ofNat (251 + n)) = (do
    let delta ← Reader.u16
    return .append delta (← Reader.count n StoredType.read)) := by
  unfold readTagged
  rw [toNat_tag (by omega)]
  dsimp only
  rw [if_neg (by omega), if_neg (by omega), if_neg (by omega), if_neg (by omega),
    if_neg (by omega), if_neg (by omega), if_pos (by omega), Nat.add_sub_cancel_left]

end Tags

/-- **An entry is read back.** The tag tells which of the entries it is, and for the short
ones how many locals or how far it is as well. -/
theorem reads_write {e : Entry} {bytes : Bytes} (h : e.write = .ok bytes) (hfits : e.Fits) :
    read.Reads bytes e := by
  have hword : ∀ delta : UInt16, UInt16.ofNat delta.toNat = delta := fun delta =>
    UInt16.toNat_inj.1 (toNat_word delta.toNat_lt)
  cases e with
  | same delta =>
    cases h
    split
    · rename_i hsmall
      refine reads_tagged ?_
      rw [readTagged_same hsmall, hword]
      exact reads_pure _
    · exact reads_tagged (reads_u16 delta).return
  | sameOne delta t =>
    cases h
    split
    · rename_i hsmall
      refine reads_tagged ?_
      rw [readTagged_sameOne hsmall, hword]
      exact (StoredType.reads_write t).return
    · exact reads_tagged ((reads_u16 delta).bind (StoredType.reads_write t).return)
  | chop delta count =>
    rw [write] at h
    split at h
    · rename_i hcount
      cases h
      refine reads_tagged ?_
      have hbyte : UInt8.ofNat count.toNat = count :=
        UInt8.toNat_inj.1 (toNat_tag count.toNat_lt)
      rw [readTagged_chop hcount, hbyte]
      exact (reads_u16 delta).return
    · cases h
  | append delta locals =>
    rw [write] at h
    split at h
    · rename_i hcount
      cases h
      refine reads_tagged ?_
      rw [readTagged_append hcount]
      exact (reads_u16 delta).bind
        (reads_count fun t _ => StoredType.reads_write t).return
    · cases h
  | full delta locals stack =>
    cases h
    rw [List.append_assoc, List.cons_append]
    refine reads_tagged ((reads_u16 delta).bind ?_)
    exact (reads_list hfits.1 fun t _ => StoredType.reads_write t).bind
      (reads_list hfits.2 fun t _ => StoredType.reads_write t).return

end Entry

/-! ### Tables -/

/-- Each entry of a table that is written is. -/
theorem mapM_write_cons {e : Entry} {entries : List Bytes}
    (h : (e :: t).mapM Entry.write = .ok entries) : ∃ bytes others, e.write = .ok bytes ∧
      t.mapM Entry.write = .ok others ∧ entries = bytes :: others := by
  rw [List.mapM_cons] at h
  cases hbytes : e.write with
  | error fault =>
    rw [hbytes] at h
    cases h
  | ok bytes =>
    rw [hbytes] at h
    change (t.mapM Entry.write >>= fun entries => pure (bytes :: entries)) = _ at h
    cases hothers : t.mapM Entry.write with
    | error fault =>
      rw [hothers] at h
      cases h
    | ok others =>
      rw [hothers] at h
      cases h
      exact ⟨bytes, others, rfl, rfl, rfl⟩

/-- The entries of a table are read back one after the other. -/
theorem reads_entries {entries : List Bytes} (h : t.mapM Entry.write = .ok entries)
    (hfits : ∀ e ∈ t, e.Fits) (done : List Entry) :
    (countFrom Entry.read t.length done).Reads entries.flatten (done.reverse ++ t) := by
  induction t generalizing entries done with
  | nil =>
    cases h
    intro rest
    simp [countFrom]
  | cons e t ih =>
    obtain ⟨bytes, others, hbytes, hothers, rfl⟩ := mapM_write_cons h
    intro rest
    have hfirst := Entry.reads_write hbytes (hfits e List.mem_cons_self)
    have hrest := ih hothers (fun e' he' => hfits e' (List.mem_cons_of_mem e he')) (e :: done) rest
    rw [List.flatten_cons, List.append_assoc, List.length_cons, countFrom, hfirst]
    dsimp only
    rw [hrest]
    simp

/-- **A table is read back.** -/
theorem Table.reads_write (h : t.write = .ok info) (hlength : t.length < 65536)
    (hfits : ∀ e ∈ t, e.Fits) : Table.read.Reads info t := by
  unfold Table.write at h
  cases hentries : t.mapM Entry.write with
  | error fault =>
    rw [hentries] at h
    cases h
  | ok entries =>
    rw [hentries] at h
    cases h
    refine (reads_u16 _).bind ?_
    rw [Entry.toNat_word hlength]
    exact reads_entries hentries hfits []

theorem Table.ofInfo_write (h : t.write = .ok info) (hlength : t.length < 65536)
    (hfits : ∀ e ∈ t, e.Fits) : Table.ofInfo info = .ok t :=
  (Table.reads_write h hlength hfits).whole label

/-! ### Frames -/

/-- The entries that are taken between two frames, by what they make of the first: a short
one has a tag, and every frame can be spelled out. -/
inductive Entry.Taken (previous : StoredFrame) (delta : UInt16) : StoredFrame → Entry → Prop where
  | same : Taken previous delta ⟨previous.locals, []⟩ (.same delta)
  | sameOne (t : StoredType) : Taken previous delta ⟨previous.locals, [t]⟩ (.sameOne delta t)
  | chop (count : UInt8) (hcount : 1 ≤ count.toNat ∧ count.toNat ≤ 3)
    (hle : count.toNat ≤ previous.locals.length) :
    Taken previous delta ⟨previous.locals.take (previous.locals.length - count.toNat), []⟩
      (.chop delta count)
  | append (more : List StoredType) (hmore : 1 ≤ more.length ∧ more.length ≤ 3) :
    Taken previous delta ⟨previous.locals ++ more, []⟩ (.append delta more)
  | full (f : StoredFrame) : Taken previous delta f (.full delta f.locals f.stack)

/-- **The entry between two frames is one of these.** For each kind of entry the relation
says of which frames it is taken, so that what follows is by cases. -/
theorem Entry.taken_between (previous f : StoredFrame) (delta : UInt16) :
    Entry.Taken previous delta f (Entry.between previous f delta) := by
  obtain ⟨locals, stack⟩ := f
  unfold Entry.between
  cases stack with
  | nil =>
    dsimp only
    split
    · rename_i hle
      split
      · rename_i hfewer
        have hbegins : locals <+: previous.locals := List.isPrefixOf_iff_prefix.1 hfewer.2
        split
        · rename_i hzero
          rw [hbegins.eq_of_length (by omega)]
          exact .same
        · rename_i hne
          have hcount : (UInt8.ofNat (previous.locals.length - locals.length)).toNat =
              previous.locals.length - locals.length := Entry.toNat_tag (by omega)
          have hchop : Taken previous delta _ _ :=
            .chop (UInt8.ofNat (previous.locals.length - locals.length)) (by omega) (by omega)
          rw [hcount, Nat.sub_sub_self hle, ← List.prefix_iff_eq_take.1 hbegins] at hchop
          exact hchop
      · exact .full _
    · split
      · rename_i hmore
        have hbegins : previous.locals <+: locals := List.isPrefixOf_iff_prefix.1 hmore.2
        have hlength : (locals.drop previous.locals.length).length =
            locals.length - previous.locals.length := List.length_drop
        have happend : Taken previous delta _ _ :=
          .append (locals.drop previous.locals.length) (by omega)
        rw [List.prefix_iff_eq_append.1 hbegins] at happend
        exact happend
      · exact .full _
  | cons t rest =>
    cases rest with
    | nil =>
      dsimp only
      split
      · rename_i heq
        rw [heq]
        exact .sameOne t
      · exact .full _
    | cons u rest => exact .full _

namespace Entry.Taken

variable {previous f : StoredFrame} {delta : UInt16} {e : Entry}

theorem delta_eq (h : Taken previous delta f e) : e.delta = delta := by
  cases h <;> rfl

/-- An entry spells out nothing but the frame. -/
theorem fits (h : Taken previous delta f e) (hlocals : f.locals.length < 65536)
    (hstack : f.stack.length < 65536) : e.Fits := by
  cases h with
  | full => exact ⟨hlocals, hstack⟩
  | _ => trivial

/-- **An entry that is taken makes the second frame of the first.** -/
theorem frame_eq (h : Taken previous delta f e) : e.frame previous = .ok f := by
  cases h with
  | chop count hcount hle => exact if_pos hle
  | _ => rfl

end Entry.Taken

/-- The offset lies behind the one before it, if there is one. -/
def After (last : Option UInt16) (offset : UInt16) : Prop :=
  ∀ l, last = some l → l < offset

theorem after_none (offset : UInt16) : After none offset := fun _ hl => nomatch hl

/-- An entry says where it stands. -/
theorem Entry.offset_of_distance {last : Option UInt16} {offset : UInt16} (h : After last offset)
    {e : Entry} (he : e.delta = distance last offset) : e.offset last = .ok offset := by
  unfold Entry.offset
  cases last with
  | none => exact congrArg Except.ok he
  | some l =>
    have hlt : l.toNat < offset.toNat := UInt16.lt_iff_toNat_lt.1 (h l rfl)
    have hbound := offset.toNat_lt
    have hdistance : e.delta.toNat = offset.toNat - l.toNat - 1 := by
      rw [he, distance]
      rw [UInt16.toNat_sub_of_le, UInt16.toNat_sub_of_le]
      · rfl
      · exact UInt16.le_iff_toNat_le.2 (Nat.le_of_lt hlt)
      · rw [UInt16.le_iff_toNat_le, UInt16.toNat_sub_of_le _ _
          (UInt16.le_iff_toNat_le.2 (Nat.le_of_lt hlt))]
        change 1 ≤ _
        omega
    have hsum : l.toNat + e.delta.toNat + 1 = offset.toNat := by omega
    dsimp only
    rw [hsum, if_pos hbound, UInt16.ofNat_toNat]

/-- The offsets increase from the given one on. -/
def Increasing (last : Option UInt16) (frames : List (UInt16 × StoredFrame)) : Prop :=
  (frames.map Prod.fst).Pairwise (· < ·) ∧ ∀ frame ∈ frames.head?, After last frame.1

/-- **Frames that are compressed play back as they were**, behind those that are done, if
their offsets increase. -/
theorem expandFrom_compressFrom {last : Option UInt16} (h : Increasing last frames)
    (done : List (UInt16 × StoredFrame)) (previous : StoredFrame) :
    expandFrom done previous last (compressFrom previous last frames) =
      .ok (done.reverse ++ frames) := by
  induction frames generalizing last done previous with
  | nil => simp [compressFrom, expandFrom]
  | cons frame frames ih =>
    obtain ⟨offset, f⟩ := frame
    obtain ⟨hpairwise, hfirst⟩ := h
    rw [List.map_cons, List.pairwise_cons] at hpairwise
    have hafter : After last offset := hfirst (offset, f) rfl
    have hrest : Increasing (some offset) frames := by
      refine ⟨hpairwise.2, fun next hnext l hl => ?_⟩
      cases hl
      exact hpairwise.1 next.1 (List.mem_map_of_mem (List.mem_of_mem_head? hnext))
    rw [compressFrom, expandFrom,
      Entry.offset_of_distance hafter (Entry.taken_between previous f _).delta_eq]
    dsimp only
    rw [(Entry.taken_between previous f _).frame_eq]
    dsimp only
    rw [ih hrest]
    simp

/-- **Frames whose offsets increase are played back.** -/
theorem expand_compress (h : (frames.map Prod.fst).Pairwise (· < ·)) (entry : StoredFrame) :
    expand entry (compress entry frames) = .ok frames :=
  expandFrom_compressFrom ⟨h, fun frame _ => after_none frame.1⟩ [] entry

/-- Each frame is compressed to one entry. -/
theorem length_compressFrom (previous : StoredFrame) (last : Option UInt16)
    (frames : List (UInt16 × StoredFrame)) :
    (compressFrom previous last frames).length = frames.length := by
  induction frames generalizing previous last with
  | nil => rfl
  | cons frame frames ih => rw [compressFrom, List.length_cons, ih, List.length_cons]

/-- Entries of frames that are not too large are not too large: a full entry lists what the
frame has. -/
theorem fits_compressFrom
    (h : ∀ frame ∈ frames, frame.2.locals.length < 65536 ∧ frame.2.stack.length < 65536)
    (previous : StoredFrame) (last : Option UInt16) :
    ∀ e ∈ compressFrom previous last frames, e.Fits := by
  induction frames generalizing previous last with
  | nil =>
    intro e he
    cases he
  | cons frame frames ih =>
    intro e he
    obtain ⟨hlocals, hstack⟩ := h frame List.mem_cons_self
    rcases List.mem_cons.1 he with rfl | he
    · exact (Entry.taken_between _ _ _).fits hlocals hstack
    · exact ih (fun g hg => h g (List.mem_cons_of_mem frame hg)) _ _ e he

/-- **The table of frames with lists that fit is read back** -/
theorem ofInfo_compress {entry : StoredFrame} (hwrite : (compress entry frames).write = .ok info)
    (hlength : frames.length < 65536)
    (hfits : ∀ frame ∈ frames, frame.2.locals.length < 65536 ∧ frame.2.stack.length < 65536) :
    Table.ofInfo info = .ok (compress entry frames) := by
  refine Table.ofInfo_write hwrite ?_ (fits_compressFrom hfits entry none)
  rw [compress, length_compressFrom]
  exact hlength

end StackMap

/-! ### Code -/

/-- A handler is read back. -/
theorem Handler.reads_write (h : Handler) : Handler.read.Reads h.write h := by
  rw [write, List.append_assoc, List.append_assoc]
  exact (reads_u16 h.start).bind ((reads_u16 h.stop).bind ((reads_u16 h.target).bind
    (reads_u16 h.caught).return))

namespace CodeAttribute

variable {c : CodeAttribute}

/-- **A code attribute is read back.** -/
theorem reads_write (hcode : c.code.length < 4294967296) (hhandlers : c.handlers.length < 65536)
    (hattributes : Attribute.AllFit c.attributes) :
    read.Reads c.write c := by
  rw [write, List.append_assoc, List.append_assoc, List.append_assoc, List.append_assoc]
  refine (reads_u16 c.maxStack).bind ((reads_u16 c.maxLocals).bind ((reads_u32 _).bind ?_))
  rw [UInt32.toNat_ofNat', Nat.mod_eq_of_lt hcode]
  exact (reads_take c.code).bind ((reads_list hhandlers fun h _ => h.reads_write).bind
    hattributes.reads.return)

theorem ofInfo_write (hcode : c.code.length < 4294967296) (hhandlers : c.handlers.length < 65536)
    (hattributes : Attribute.AllFit c.attributes) :
    ofInfo c.write = .ok c :=
  (reads_write hcode hhandlers hattributes).whole label

/-- The bytes of an attribute are part of those of the code that it belongs to. -/
theorem length_info_lt {a : Attribute} (ha : a ∈ c.attributes) :
    a.info.length < c.write.length := by
  have hitem : a.write.length ≤ (c.attributes.flatMap Attribute.write).length := by
    obtain ⟨before, behind, heq⟩ := List.append_of_mem ha
    rw [heq, List.flatMap_append, List.flatMap_cons, List.length_append, List.length_append]
    omega
  have hwrite : a.info.length < a.write.length := by
    simp only [Attribute.write, List.length_append, Bytes.length_u16, Bytes.length_u32]
    omega
  have hcode : (c.attributes.flatMap Attribute.write).length ≤ c.write.length := by
    simp only [write, Bytes.list, List.length_append]
    omega
  omega

/-- An attribute that is read to its last byte has a length that could be written. -/
theorem length_lt_of_read_write {a b : Attribute} (h : Attribute.read a.write = .ok (b, [])) :
    a.info.length < 4294967296 := by
  rw [Attribute.write, List.append_assoc] at h
  have hread := h
  unfold Attribute.read at hread
  rw [Reader.bind_of_ok (reads_u16 a.name _), Reader.bind_of_ok (reads_u32 _ a.info)] at hread
  obtain ⟨info, rest, htake, hreturn⟩ := Reader.bind_eq_ok hread
  cases hreturn
  unfold Reader.take at htake
  dsimp only at htake
  split at htake
  · have hdrop : a.info.drop (UInt32.ofNat a.info.length).toNat = [] :=
      congrArg Prod.snd (Except.ok.inj htake)
    have hle := List.drop_eq_nil_iff.1 hdrop
    have hlt := (UInt32.ofNat a.info.length).toNat_lt
    omega
  · cases htake

/-- **Nothing else is read from the bytes of code with at most one attribute.**  If the
attribute is too long for its length to be written, the code is not read at all. -/
theorem eq_of_ofInfo_write {c' : CodeAttribute} (hcode : c.code.length < 4294967296)
    (hhandlers : c.handlers.length < 65536) (hone : c.attributes.length ≤ 1)
    (h : ofInfo c.write = .ok c') : c' = c := by
  have hfit : Attribute.AllFit c.attributes := by
    refine ⟨by omega, fun a ha => ?_⟩
    have hsingle : c.attributes = [a] := by
      obtain ⟨x, hx⟩ := List.length_eq_one_iff.1
        (Nat.le_antisymm hone (List.length_pos_of_mem ha))
      rw [hx, List.mem_singleton] at ha
      rw [hx, ha]
    have hread : read c.write = .ok (c', []) := of_whole h
    rw [write, List.append_assoc, List.append_assoc, List.append_assoc, List.append_assoc] at hread
    unfold read at hread
    rw [Reader.bind_of_ok (reads_u16 c.maxStack _), Reader.bind_of_ok (reads_u16 c.maxLocals _),
      Reader.bind_of_ok (reads_u32 _ _), UInt32.toNat_ofNat', Nat.mod_eq_of_lt hcode,
      Reader.bind_of_ok (reads_take c.code _),
      Reader.bind_of_ok (reads_list hhandlers (fun h _ => h.reads_write) _), hsingle] at hread
    obtain ⟨as, rest, hlist, hreturn⟩ := Reader.bind_eq_ok hread
    cases hreturn
    have hcount : Reader.countFrom Attribute.read 1 [] a.write = .ok (as, []) := by
      rw [Bytes.list, Reader.list, Reader.bind_of_ok (reads_u16 _ _),
        List.flatMap_singleton] at hlist
      exact hlist
    unfold Reader.countFrom at hcount
    split at hcount
    · rename_i b rest hb
      cases hcount
      exact length_lt_of_read_write hb
    · cases hcount
  rw [ofInfo_write hcode hhandlers hfit] at h
  exact (Except.ok.inj h).symm

end CodeAttribute
end ClassForge
