/-
# Stack maps are compressed as far as they can be

Specification, section 8, *frame-delta minimality*.

Playing back undoes `compress` (`compress_invertible`), and no table that can be written
and plays back as the same frames takes fewer bytes (`compress_shortest`).  The second
rests on two facts about one entry:

| an entry that makes the frame | the entry that `compress` takes |
| --- | --- |
| spells the frame out | takes no more bytes (`Entry.Taken.size_le`) |
| is short, with a tag of its own | is the same one (`Entry.between_of_frame`) |

The distances leave no choice: where an entry stands follows from its distance and from the
entry before it (`Entry.distance_of_offset`).
-/

import ClassForge.Proofs.StackMaps
import Mathlib.Algebra.GroupWithZero.Nat

namespace ClassForge
namespace StackMap

variable {e : Entry} {frames : List (UInt16 × StoredFrame)} {last : Option UInt16}
  {entry f previous : StoredFrame} {t : Table} {offset : UInt16}

/-! ### What can be written -/

/-- There is a tag for the number of locals that an entry leaves off or adds. -/
def Entry.HasTag : Entry → Prop
  | .chop _ count => 1 ≤ count.toNat ∧ count.toNat ≤ 3
  | .append _ locals => 1 ≤ locals.length ∧ locals.length ≤ 3
  | _ => True

/-- How many bytes an entry takes. -/
def Entry.size : Entry → Nat
  | .same delta => if delta.toNat < 64 then 1 else 3
  | .sameOne delta t => (if delta.toNat < 64 then 1 else 3) + (StoredType.write t).length
  | .chop .. => 3
  | .append _ locals => 3 + (locals.flatMap StoredType.write).length
  | .full _ locals stack =>
    7 + (locals.flatMap StoredType.write).length + (stack.flatMap StoredType.write).length

/-- An entry that is written has a tag, and takes so many bytes. -/
theorem Entry.write_eq_ok {bytes : Bytes} (h : e.write = .ok bytes) :
    e.HasTag ∧ bytes.length = e.size := by
  cases e with
  | same delta =>
    cases h
    refine ⟨trivial, ?_⟩
    rw [size]
    split <;> rfl
  | sameOne delta t =>
    cases h
    refine ⟨trivial, ?_⟩
    rw [size, List.length_append]
    split <;> rfl
  | chop delta count =>
    rw [write] at h
    split at h
    · rename_i hcount
      cases h
      exact ⟨hcount, rfl⟩
    · cases h
  | append delta locals =>
    rw [write] at h
    split at h
    · rename_i hcount
      cases h
      refine ⟨hcount, ?_⟩
      rw [size, List.length_append, List.length_cons, Bytes.length_u16]
    · cases h
  | full delta locals stack =>
    cases h
    refine ⟨trivial, ?_⟩
    simp only [size, Bytes.list, List.length_append, List.length_cons, Bytes.length_u16]
    omega

theorem Entry.exists_write (h : e.HasTag) : ∃ bytes, e.write = .ok bytes := by
  cases e with
  | chop delta count => exact ⟨_, if_pos h⟩
  | append delta locals => exact ⟨_, if_pos h⟩
  | _ => exact ⟨_, rfl⟩

/-- The bytes of the entries of a table. -/
theorem mapM_write_eq_ok {entries : List Bytes} (h : t.mapM Entry.write = .ok entries) :
    (∀ e ∈ t, e.HasTag) ∧ entries.flatten.length = (t.map Entry.size).sum := by
  induction t generalizing entries with
  | nil =>
    cases h
    exact ⟨fun e he => (nomatch he), rfl⟩
  | cons e t ih =>
    obtain ⟨bytes, others, hbytes, hothers, rfl⟩ := mapM_write_cons h
    obtain ⟨htag, hsize⟩ := Entry.write_eq_ok hbytes
    obtain ⟨htags, hsizes⟩ := ih hothers
    refine ⟨List.forall_mem_cons.2 ⟨htag, htags⟩, ?_⟩
    rw [List.flatten_cons, List.length_append, List.map_cons, List.sum_cons, hsize, hsizes]

/-- The entries of a table that is written have tags, and it takes so many bytes. -/
theorem Table.write_eq_ok {bytes : Bytes} (h : t.write = .ok bytes) :
    (∀ e ∈ t, e.HasTag) ∧ bytes.length = 2 + (t.map Entry.size).sum := by
  unfold Table.write at h
  cases hentries : t.mapM Entry.write with
  | error fault =>
    rw [hentries] at h
    cases h
  | ok entries =>
    rw [hentries] at h
    cases h
    obtain ⟨htags, hsizes⟩ := mapM_write_eq_ok hentries
    refine ⟨htags, ?_⟩
    rw [List.length_append, Bytes.length_u16, hsizes]

/-- A table whose entries have tags can be written. Only a chop or an append of the wrong
number of locals has none. -/
theorem Table.exists_write (h : ∀ e ∈ t, e.HasTag) : ∃ bytes, t.write = .ok bytes := by
  have hentries : ∃ entries, t.mapM Entry.write = .ok entries := by
    induction t with
    | nil => exact ⟨[], rfl⟩
    | cons e t ih =>
      obtain ⟨htag, htags⟩ := List.forall_mem_cons.1 h
      obtain ⟨bytes, hbytes⟩ := Entry.exists_write htag
      obtain ⟨entries, hentries⟩ := ih htags
      rw [List.mapM_cons, hbytes, hentries]
      exact ⟨bytes :: entries, rfl⟩
  obtain ⟨entries, hentries⟩ := hentries
  unfold Table.write
  rw [hentries]
  exact ⟨_, rfl⟩

/-! ### The entries of frames -/

/-- An entry that is taken has a tag. -/
theorem Entry.Taken.hasTag {delta : UInt16} (h : Entry.Taken previous delta f e) : e.HasTag := by
  cases h with
  | chop count hcount hle => exact hcount
  | append more hmore => exact hmore
  | _ => trivial

theorem hasTag_compressFrom (previous : StoredFrame) (last : Option UInt16)
    (frames : List (UInt16 × StoredFrame)) :
    ∀ e ∈ compressFrom previous last frames, e.HasTag := by
  induction frames generalizing previous last with
  | nil =>
    intro e he
    cases he
  | cons frame frames ih =>
    intro e he
    rcases List.mem_cons.1 he with rfl | he
    · exact (Entry.taken_between _ _ _).hasTag
    · exact ih _ _ e he

/-- **The table of any frames can be written.** -/
theorem exists_write_compress (entry : StoredFrame) (frames : List (UInt16 × StoredFrame)) :
    ∃ info, (compress entry frames).write = .ok info :=
  Table.exists_write (hasTag_compressFrom entry none frames)

/-- **Playing back undoes compressing**, if the offsets increase, and every entry leaves off
or adds one to three locals, or none. -/
theorem compress_invertible {frames : List (UInt16 × StoredFrame)}
    (h : (frames.map Prod.fst).Pairwise (· < ·)) (entry : StoredFrame) :
    expand entry (compress entry frames) = .ok frames ∧
      ∀ e ∈ compress entry frames, e.HasTag :=
  ⟨expand_compress h entry, hasTag_compressFrom entry none frames⟩

/-- Frames from the first offset to the last. -/
def scatteredFrames : List (UInt16 × StoredFrame) :=
  [(0, ⟨[.integer, .object 3], []⟩), (65, ⟨[.integer], []⟩),
    (66, ⟨[.integer, .float, .null, .top], []⟩),
    (100, ⟨[.integer, .float, .null, .top], [.integer]⟩), (65535, ⟨[], [.float, .float]⟩)]

/-- One entry of each kind. -/
theorem scatteredFrames_invertible :
    (scatteredFrames.map Prod.fst).Pairwise (· < ·) ∧
      compress ⟨[.integer, .object 3], []⟩ scatteredFrames =
        [.same 0, .chop 64 1, .append 0 [.float, .null, .top], .sameOne 33 .integer,
          .full 65434 [] [.float, .float]] ∧
      expand ⟨[.integer, .object 3], []⟩ (compress ⟨[.integer, .object 3], []⟩ scatteredFrames) =
        .ok scatteredFrames ∧
      ∀ e ∈ compress ⟨[.integer, .object 3], []⟩ scatteredFrames, e.HasTag := by
  have hincreasing : (scatteredFrames.map Prod.fst).Pairwise (· < ·) := by decide
  exact ⟨hincreasing, by decide, compress_invertible hincreasing _⟩

/-! ### Sizes -/

theorem length_write_type_le (t : StoredType) : (StoredType.write t).length ≤ 3 := by
  cases t with
  | object index => exact Nat.le_refl 3
  | uninitialized offset => exact Nat.le_refl 3
  | _ => exact Nat.le_add_left 1 2

/-- Types take three bytes each at most. -/
theorem length_types_le (ts : List StoredType) :
    (ts.flatMap StoredType.write).length ≤ 3 * ts.length := by
  induction ts with
  | nil => exact Nat.zero_le _
  | cons t ts ih =>
    have ht := length_write_type_le t
    rw [List.flatMap_cons, List.length_append, List.length_cons]
    omega

/-- An entry that is taken needs no more bytes than the frame spelled out. -/
theorem Entry.Taken.size_le {delta : UInt16} (h : Entry.Taken previous delta f e) :
    e.size ≤ 7 + (f.locals.flatMap StoredType.write).length +
      (f.stack.flatMap StoredType.write).length := by
  have hsmall : (if delta.toNat < 64 then 1 else 3) ≤ 3 := by split <;> decide
  cases h with
  | same =>
    rw [size]
    omega
  | sameOne t =>
    rw [size, List.flatMap_singleton]
    omega
  | chop count hcount hle =>
    rw [size]
    omega
  | append more hmore =>
    rw [size, List.flatMap_append, List.length_append]
    omega
  | full => exact Nat.le_refl _

/-- **How long a table can get**: for each frame, the number of its types, a distance and
every type of the frame. -/
theorem length_write_compress_le {size : Nat}
    (hsize : ∀ s ∈ frames, (s.2.locals.flatMap StoredType.write).length +
      (s.2.stack.flatMap StoredType.write).length ≤ size) {info : Bytes}
    (h : (compress entry frames).write = .ok info) :
    info.length ≤ 2 + frames.length * (7 + size) := by
  have hentries (previous : StoredFrame) (last : Option UInt16) :
      ((compressFrom previous last frames).map Entry.size).sum ≤ frames.length * (7 + size) := by
    clear h
    induction frames generalizing previous last with
    | nil => exact Nat.zero_le _
    | cons s frames ih =>
      obtain ⟨hs, hrest⟩ := List.forall_mem_cons.1 hsize
      have hfirst := (Entry.taken_between previous s.2 (distance last s.1)).size_le
      have hothers := ih hrest s.2 (some s.1)
      rw [compressFrom, List.map_cons, List.sum_cons, List.length_cons, Nat.succ_mul]
      omega
  rw [(Table.write_eq_ok h).2]
  exact Nat.add_le_add_left (hentries entry none) 2

/-! ### Tables that play back as given frames -/

/-- The entries of a table make the given frames, one after the other. -/
inductive PlaysBack : StoredFrame → Option UInt16 → Table → List (UInt16 × StoredFrame) → Prop
  where
  | nil (previous : StoredFrame) (last : Option UInt16) : PlaysBack previous last [] []
  | cons {previous f : StoredFrame} {last : Option UInt16} {offset : UInt16} {e : Entry}
    {t : Table} {frames : List (UInt16 × StoredFrame)} (ho : e.offset last = .ok offset)
    (hf : e.frame previous = .ok f) (h : PlaysBack f (some offset) t frames) :
    PlaysBack previous last (e :: t) ((offset, f) :: frames)

/-- Playing back adds one frame for each entry behind those that are done, and each follows
from the frame and the offset before it. -/
theorem playsBack_of_expandFrom {done all : List (UInt16 × StoredFrame)}
    (h : expandFrom done previous last t = .ok all) :
    ∃ frames, all = done.reverse ++ frames ∧ PlaysBack previous last t frames := by
  induction t generalizing previous last done with
  | nil =>
    cases h
    exact ⟨[], (List.append_nil _).symm, .nil previous last⟩
  | cons e t ih =>
    unfold expandFrom at h
    split at h
    · cases h
    rename_i offset ho
    split at h
    · cases h
    rename_i f hf
    obtain ⟨frames, rfl, hframes⟩ := ih h
    exact ⟨(offset, f) :: frames, by simp, .cons ho hf hframes⟩

theorem playsBack_of_expand (h : expand entry t = .ok frames) : PlaysBack entry none t frames := by
  obtain ⟨all, rfl, hall⟩ := playsBack_of_expandFrom h
  exact hall

/-- Where an entry stands is behind the one before it, and gives its distance. -/
theorem Entry.distance_of_offset (h : e.offset last = .ok offset) :
    After last offset ∧ e.delta = distance last offset := by
  cases last with
  | none =>
    cases h
    exact ⟨after_none _, rfl⟩
  | some l =>
    unfold Entry.offset at h
    dsimp only at h
    split at h
    · rename_i hlt
      cases h
      have hsum : UInt16.ofNat (l.toNat + e.delta.toNat + 1) = l + e.delta + 1 := by
        rw [UInt16.ofNat_add, UInt16.ofNat_add, UInt16.ofNat_toNat, UInt16.ofNat_toNat]
        rfl
      refine ⟨fun l' hl' => ?_, ?_⟩
      · cases hl'
        rw [UInt16.lt_iff_toNat_lt, Entry.toNat_word hlt]
        omega
      · rw [distance, hsum]
        grind
    · cases h

/-- The offsets of a table lie behind the one before it. -/
theorem PlaysBack.after (h : PlaysBack previous last t frames) : ∀ s ∈ frames, After last s.1 := by
  induction h with
  | nil => exact fun s hs => nomatch hs
  | cons ho _ _ ih =>
    have hafter := (Entry.distance_of_offset ho).1
    refine List.forall_mem_cons.2 ⟨hafter, fun s hs l hl => ?_⟩
    exact UInt16.lt_trans (hafter l hl) (ih s hs _ rfl)

/-- They increase. -/
theorem PlaysBack.pairwise (h : PlaysBack previous last t frames) :
    (frames.map Prod.fst).Pairwise (· < ·) := by
  induction h with
  | nil => exact .nil
  | cons _ _ hrest ih =>
    refine List.pairwise_cons.2 ⟨fun offset hoffset => ?_, ih⟩
    obtain ⟨s, hs, rfl⟩ := List.mem_map.1 hoffset
    exact hrest.after s hs _ rfl

/-! ### The shortest table -/

/-- Does the entry spell out the frame? -/
def Entry.isFull : Entry → Bool
  | .full .. => true
  | _ => false

/-- **A short entry is the one that is taken.**  Whatever entry with a tag makes a frame of
another without spelling it out, it is the entry between the two. -/
theorem Entry.between_of_frame (htag : e.HasTag) (hfull : e.isFull = false)
    (hframe : e.frame previous = .ok f) :
    Entry.between previous f e.delta = e := by
  cases e with
  | same delta =>
    cases hframe
    simp [Entry.between, Entry.delta]
  | sameOne delta t =>
    cases hframe
    simp [Entry.between, Entry.delta]
  | chop delta count =>
    rw [Entry.frame] at hframe
    split at hframe
    · rename_i hle
      cases hframe
      have hlength : (previous.locals.take (previous.locals.length - count.toNat)).length =
          previous.locals.length - count.toNat := by
        rw [List.length_take]
        omega
      have hfewer : previous.locals.length - (previous.locals.length - count.toNat) =
          count.toNat := by omega
      have hpre : (previous.locals.take (previous.locals.length - count.toNat)).isPrefixOf
          previous.locals = true := List.isPrefixOf_iff_prefix.2 (List.take_prefix _ _)
      have hcount : 1 ≤ count.toNat ∧ count.toNat ≤ 3 := htag
      unfold Entry.between
      dsimp only
      rw [hlength, hfewer, if_pos (Nat.sub_le _ _), if_pos ⟨hcount.2, hpre⟩, if_neg (by omega),
        UInt8.ofNat_toNat]
      rfl
    · cases hframe
  | append delta locals =>
    cases hframe
    have hcount : 1 ≤ locals.length ∧ locals.length ≤ 3 := htag
    have hpre : previous.locals.isPrefixOf (previous.locals ++ locals) = true :=
      List.isPrefixOf_iff_prefix.2 (List.prefix_append _ _)
    unfold Entry.between
    dsimp only
    rw [List.length_append, if_neg (by omega), Nat.add_sub_cancel_left,
      if_pos ⟨hcount.2, hpre⟩, List.drop_left]
    rfl
  | full delta locals stack => cases hfull

/-- No entry with a tag that makes the frame takes fewer bytes than the one that is
taken. -/
theorem Entry.size_between_le (htag : e.HasTag) (hframe : e.frame previous = .ok f) :
    (Entry.between previous f e.delta).size ≤ e.size := by
  cases hfull : e.isFull with
  | false => exact Nat.le_of_eq (congrArg size (Entry.between_of_frame htag hfull hframe))
  | true =>
    cases e with
    | full delta locals stack =>
      cases hframe
      exact (Entry.taken_between previous _ delta).size_le
    | _ => cases hfull

theorem Entry.isFull_between (previous f : StoredFrame) (delta delta' : UInt16) :
    (Entry.between previous f delta).isFull = (Entry.between previous f delta').isFull := by
  unfold Entry.between
  dsimp only
  repeat' split
  all_goals rfl

/-- **No table of the same frames takes fewer bytes.** -/
theorem PlaysBack.size_le (h : PlaysBack previous last t frames) (htags : ∀ e ∈ t, e.HasTag) :
    ((compressFrom previous last frames).map Entry.size).sum ≤ (t.map Entry.size).sum := by
  induction h with
  | nil => exact Nat.le_refl 0
  | cons ho hf _ ih =>
    obtain ⟨htag, hrest⟩ := List.forall_mem_cons.1 htags
    have hfirst := Entry.size_between_le htag hf
    rw [(Entry.distance_of_offset ho).2] at hfirst
    rw [compressFrom, List.map_cons, List.map_cons, List.sum_cons, List.sum_cons]
    exact Nat.add_le_add hfirst (ih hrest)

/-- Each entry goes from the frame before to the frame that it stands for. -/
theorem getElem?_compressFrom {p : StoredFrame} (last : Option UInt16) {n : Nat}
    (hp : (previous :: frames.map Prod.snd)[n]? = some p) (hf : frames[n]? = some (offset, f)) :
    ∃ delta, (compressFrom previous last frames)[n]? = some (Entry.between p f delta) := by
  induction frames generalizing previous last n with
  | nil => cases hf
  | cons frame frames ih =>
    cases n with
    | zero =>
      cases hp
      cases hf
      exact ⟨_, rfl⟩
    | succ n => exact ih _ hp hf

/-- A frame is spelled out only if no short entry makes it. -/
theorem isFull_of_compress {n : Nat} {other : Entry}
    (hprevious : (entry :: frames.map Prod.snd)[n]? = some previous)
    (hf : frames[n]? = some (offset, f)) (he : (compress entry frames)[n]? = some e)
    (hfull : e.isFull = true) (htag : other.HasTag) (hframe : other.frame previous = .ok f) :
    other.isFull = true := by
  obtain ⟨delta, hbetween⟩ := getElem?_compressFrom none hprevious hf
  have heq : some (Entry.between previous f delta) = some e := hbetween.symm.trans he
  cases heq
  cases hother : other.isFull with
  | true => rfl
  | false =>
    have htaken := Entry.between_of_frame htag hother hframe
    rw [Entry.isFull_between previous f delta other.delta, htaken, hother] at hfull
    cases hfull

/-- **The table that is made is the shortest.**  Take any table that can be written and plays
back as frames.  The offsets of the frames increase; the table that they are compressed to
can be written, in no more bytes; and where that table spells out a frame, no short entry
that can be written makes it. -/
theorem compress_shortest {entry : StoredFrame} {t : Table} {bytes : Bytes}
    {frames : List (UInt16 × StoredFrame)} (hwrite : t.write = .ok bytes)
    (hexpand : expand entry t = .ok frames) :
    (frames.map Prod.fst).Pairwise (· < ·) ∧
      (∃ short, (compress entry frames).write = .ok short ∧ short.length ≤ bytes.length) ∧
      ∀ (n : Nat) (previous f : StoredFrame) (offset : UInt16) (e other : Entry) (written : Bytes),
        (entry :: frames.map Prod.snd)[n]? = some previous → frames[n]? = some (offset, f) →
        (compress entry frames)[n]? = some e → e.isFull = true →
        other.write = .ok written → other.frame previous = .ok f → other.isFull = true := by
  have hplays := playsBack_of_expand hexpand
  obtain ⟨htags, hlength⟩ := Table.write_eq_ok hwrite
  obtain ⟨short, hshort⟩ := exists_write_compress entry frames
  refine ⟨hplays.pairwise, ⟨short, hshort, ?_⟩, ?_⟩
  · rw [(Table.write_eq_ok hshort).2, hlength]
    exact Nat.add_le_add_left (hplays.size_le htags) 2
  · intro n previous f offset e other written hprevious hf he hfull hwritten hframe
    exact isFull_of_compress hprevious hf he hfull (Entry.write_eq_ok hwritten).1 hframe

/-- A table that spells out frames without need. -/
def wordyTable : Table :=
  [.full 0 [.integer] [], .full 63 [.integer, .float, .object 3] [],
    .full 64 [.integer, .float, .object 3] [.null], .full 0 [.float] [.null]]

/-- The frames of it. -/
def wordyFrames : List (UInt16 × StoredFrame) :=
  [(0, ⟨[.integer], []⟩), (64, ⟨[.integer, .float, .object 3], []⟩),
    (129, ⟨[.integer, .float, .object 3], [.null]⟩), (130, ⟨[.float], [.null]⟩)]

/-- The last frame is still spelled out, since no short entry makes it, and of 44 bytes 23
are left. -/
theorem wordyTable_shortened :
    ∃ bytes short, Table.write wordyTable = .ok bytes ∧ bytes.length = 44 ∧
      expand ⟨[.integer], []⟩ wordyTable = .ok wordyFrames ∧
      (wordyFrames.map Prod.fst).Pairwise (· < ·) ∧
      compress ⟨[.integer], []⟩ wordyFrames = [.same 0, .append 63 [.float, .object 3],
        .sameOne 64 .null, .full 0 [.float] [.null]] ∧
      (compress ⟨[.integer], []⟩ wordyFrames).write = .ok short ∧ short.length = 23 ∧
      short.length ≤ bytes.length ∧
      ∀ (other : Entry) (written : Bytes), other.write = .ok written →
        other.frame ⟨[.integer, .float, .object 3], [.null]⟩ = .ok ⟨[.float], [.null]⟩ →
        other.isFull = true := by
  have hwrite : ∃ bytes, Table.write wordyTable = .ok bytes ∧ bytes.length = 44 := ⟨_, rfl, rfl⟩
  obtain ⟨bytes, hbytes, hlength⟩ := hwrite
  have hexpand : expand ⟨[.integer], []⟩ wordyTable = .ok wordyFrames := rfl
  obtain ⟨hincreasing, ⟨short, hshort, hle⟩, hfull⟩ := compress_shortest hbytes hexpand
  have hlast (other : Entry) (written : Bytes) := hfull 3 ⟨[.integer, .float, .object 3], [.null]⟩
    ⟨[.float], [.null]⟩ 130 (.full 0 [.float] [.null]) other written rfl rfl rfl rfl
  exact ⟨bytes, short, hbytes, hlength, hexpand, hincreasing, rfl, hshort,
    (Table.write_eq_ok hshort).2, hle, hlast⟩

end StackMap
end ClassForge
