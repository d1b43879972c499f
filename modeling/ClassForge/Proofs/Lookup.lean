/-
# Where constants stand

The constants of a class file stand side by side, and a long or a double takes two indices.
Three places count them:

| place | counts | until |
| --- | --- | --- |
| reading | the indices that are left | none is left |
| an index that is looked up | the indices so far | the index is reached |
| a class that is searched by name | the indices so far, in 16 bits | the class is found |

They agree on where a constant stands (`ClassFile.StandsAt`), except at the very end.  A class
file has 65534 indices at most, but its last constant is read as soon as one index is left for
it, even if it takes two.  Then a search that passes all constants counts to 65536, which does
not fit in 16 bits, and fails instead of saying that there is no such class
(`ClassFile.lookups_agree`).
-/

import ClassForge.Proofs.ClassStorage
import ClassForge.Proofs.RoundTrip

namespace ClassForge
namespace ClassFile

variable {bytes : Bytes} {c : ClassFile} {k : Constant} {before : List Constant} {name : String}

/-- The indices that constants take are added up. -/
theorem totalWidth_append (ks ls : List Constant) :
    totalWidth (ks ++ ls) = totalWidth ks + totalWidth ls := by
  induction ks with
  | nil => exact (Nat.zero_add _).symm
  | cons k ks ih => rw [List.cons_append, totalWidth, totalWidth, ih, Nat.add_assoc]

/-! ### Constants by their indices -/

/-- The constant stands at the index: those before it take the indices from one on. -/
def StandsAt (c : ClassFile) (index : Nat) (k : Constant) : Prop :=
  ∃ before after, c.constants = before ++ k :: after ∧ index = 1 + totalWidth before

/-- **Counting reaches a constant just where it stands**: behind constants that together
take as many indices as lie between. The second index of a wide constant leads nowhere. -/
theorem constantFrom_eq_some_iff {position index : Nat} {ks : List Constant} :
    constantFrom position index ks = some k ↔
      ∃ before after, ks = before ++ k :: after ∧ index = position + totalWidth before := by
  induction ks generalizing position with
  | nil => simp [constantFrom]
  | cons l ks ih =>
    have hpos := l.width_pos
    rw [constantFrom]
    constructor
    · intro h
      split at h
      · rename_i heq
        cases h
        exact ⟨[], ks, rfl, heq.symm⟩
      · split at h
        · cases h
        · obtain ⟨before, after, rfl, hindex⟩ := ih.1 h
          refine ⟨l :: before, after, rfl, ?_⟩
          rw [totalWidth]
          omega
    · rintro ⟨before, after, heq, hindex⟩
      cases before with
      | nil =>
        cases heq
        have heq : position = index := hindex.symm
        rw [if_pos heq]
      | cons b before =>
        cases heq
        rw [totalWidth] at hindex
        rw [if_neg (by omega), if_neg (by omega)]
        exact ih.2 ⟨before, after, rfl, by omega⟩

/-- **A constant is found at an index just if it stands there.** The index behind a wide
constant finds nothing. -/
theorem constant?_eq_some_iff {index : UInt16} :
    c.constant? index = some k ↔ c.StandsAt index.toNat k :=
  constantFrom_eq_some_iff

/-- The class with an index is named just if the constant there is. -/
theorem className?_eq_some_iff {index : UInt16} :
    c.className? index = some name ↔
      ∃ k, c.constant? index = some k ∧ c.isClassNamed name k = true := by
  unfold className?
  constructor
  · intro h
    split at h
    · rename_i text hk
      exact ⟨_, hk, decide_eq_true h⟩
    · cases h
  · rintro ⟨k, hk, hnamed⟩
    rw [hk]
    cases k with
    | classRef text => exact of_decide_eq_true hnamed
    | _ => cases hnamed

/-! ### Classes by their names -/

/-- What comes of a search among constants that start at `position`. -/
inductive Searched (c : ClassFile) (name : String) (position : Nat) (ks : List Constant) :
    Except Malformed (Option UInt16) → Prop where
  | found {before after : List Constant} {k : Constant} {index : UInt16}
    (hks : ks = before ++ k :: after) (hnamed : c.isClassNamed name k = true)
    (hfirst : ∀ l ∈ before, c.isClassNamed name l = false)
    (hindex : index.toNat = position + totalWidth before) :
    Searched c name position ks (.ok (some index))
  | missing (hnone : ∀ k ∈ ks, c.isClassNamed name k = false)
    (hroom : position + totalWidth ks < 65536) : Searched c name position ks (.ok none)
  /-- The index behind `k` does not fit in 16 bits. -/
  | overflow {before after : List Constant} {k : Constant} (hks : ks = before ++ k :: after)
    (hnone : ∀ l ∈ before ++ [k], c.isClassNamed name l = false)
    (hfull : 65536 ≤ position + totalWidth before + k.width) :
    Searched c name position ks (.error .indexOverflow)

/-- A search goes on behind a constant that is not the class. -/
theorem Searched.cons {position : Nat} {ks : List Constant}
    {result : Except Malformed (Option UInt16)} (hk : c.isClassNamed name k = false)
    (h : Searched c name (position + k.width) ks result) :
    Searched c name position (k :: ks) result := by
  cases h with
  | @found before after l index hks hnamed hfirst hindex =>
    have hall : k :: ks = (k :: before) ++ l :: after := by rw [hks, List.cons_append]
    refine .found hall hnamed (List.forall_mem_cons.2 ⟨hk, hfirst⟩) ?_
    rw [totalWidth, hindex, Nat.add_assoc]
  | missing hnone hroom =>
    refine .missing (List.forall_mem_cons.2 ⟨hk, hnone⟩) ?_
    rw [totalWidth]
    omega
  | @overflow before after l hks hnone hfull =>
    have hall : k :: ks = (k :: before) ++ l :: after := by rw [hks, List.cons_append]
    refine .overflow hall (List.forall_mem_cons.2 ⟨hk, hnone⟩) ?_
    rw [totalWidth]
    omega

/-- **A search finds the first class with the name, or passes all constants, or runs out of
indices.** -/
theorem searched (c : ClassFile) (name : String) (position : UInt16) (ks : List Constant) :
    Searched c name position.toNat ks (c.findClassFrom name position ks) := by
  induction ks generalizing position with
  | nil => exact .missing (by simp) position.toNat_lt
  | cons k ks ih =>
    have hstart : k :: ks = [] ++ k :: ks := rfl
    rw [findClassFrom]
    split
    · rename_i hk
      exact .found hstart hk (by simp) rfl
    · rename_i hk
      have hk : c.isClassNamed name k = false := Bool.eq_false_iff.2 hk
      split
      · rename_i hroom
        have hnext := ih (position + UInt16.ofNat k.width)
        rw [toNat_next hroom] at hnext
        exact hnext.cons hk
      · rename_i hfull
        exact .overflow hstart (by simpa using hk) (Nat.le_of_not_lt hfull)

/-! ### Class files that are read -/

/-- Before each constant that is read, an index is left. -/
theorem width_before {remaining : Nat} (done : List Constant) {after : List Constant}
    {xs rest : Bytes}
    (h : readConstants remaining done xs = .ok (done.reverse ++ (before ++ k :: after), rest)) :
    totalWidth before < remaining := by
  induction before generalizing remaining done xs with
  | nil => exact Nat.pos_of_ne_zero (readConstants_cons h).1
  | cons b before ih =>
    obtain ⟨-, left, -, h⟩ := readConstants_cons h
    have hrest := ih (b :: done) h
    rw [totalWidth]
    omega

/-- The constants of a class that was parsed were read up to the index that its header
names. -/
theorem readConstants_of_parse (h : parse bytes = .ok c) :
    ∃ remaining xs rest, remaining ≤ 65534 ∧
      readConstants remaining [] xs = .ok (c.constants, rest) := by
  have hread := parse_eq_ok.1 h
  obtain ⟨found, _, -, hread⟩ := Reader.bind_eq_ok hread
  split at hread
  · cases hread
  obtain ⟨version, _, -, hread⟩ := Reader.bind_eq_ok hread
  obtain ⟨count, _, -, hread⟩ := Reader.bind_eq_ok hread
  obtain ⟨constants, _, hconstants, hread⟩ := Reader.bind_eq_ok hread
  obtain ⟨flags, _, -, hread⟩ := Reader.bind_eq_ok hread
  obtain ⟨thisClass, _, -, hread⟩ := Reader.bind_eq_ok hread
  obtain ⟨superClass, _, -, hread⟩ := Reader.bind_eq_ok hread
  obtain ⟨interfaces, _, -, hread⟩ := Reader.bind_eq_ok hread
  obtain ⟨fields, _, -, hread⟩ := Reader.bind_eq_ok hread
  obtain ⟨methods, _, -, hread⟩ := Reader.bind_eq_ok hread
  obtain ⟨attributes, _, -, hread⟩ := Reader.bind_eq_ok hread
  cases hread
  have hcount := count.toNat_lt
  exact ⟨_, _, _, by omega, hconstants⟩

/-- The constants before another one leave room for two more indices. -/
theorem width_before_of_parse (h : parse bytes = .ok c) {after : List Constant}
    (hks : c.constants = before ++ k :: after) :
    1 + totalWidth before ≤ 65534 := by
  obtain ⟨remaining, xs, rest, hremaining, hread⟩ := readConstants_of_parse h
  rw [hks] at hread
  have hbefore := width_before [] hread
  omega

/-- **A search fails just if there is no such class and the last constant takes an index too
many.** -/
theorem findClass?_eq_error_iff (h : parse bytes = .ok c) {e : Malformed} :
    c.findClass? name = .error e ↔
      e = .indexOverflow ∧ totalWidth c.constants = 65535 ∧
        ∀ k ∈ c.constants, c.isClassNamed name k = false := by
  have hsearched : Searched c name 1 c.constants (c.findClass? name) :=
    searched c name 1 c.constants
  generalize c.findClass? name = result at hsearched
  cases hsearched with
  | @found before after k index hks hnamed =>
    constructor
    · intro hfalse
      cases hfalse
    · rintro ⟨-, -, hnone⟩
      rw [hnone k (by rw [hks]; simp)] at hnamed
      cases hnamed
  | missing hnone hroom =>
    constructor
    · intro hfalse
      cases hfalse
    · rintro ⟨-, hwidth, -⟩
      omega
  | @overflow before after k hks hnone hfull =>
    have hbefore := width_before_of_parse h hks
    have hwide := k.width_le
    -- a constant behind `k` would not have been read
    have hlast : after = [] := by
      cases after with
      | nil => rfl
      | cons l after =>
        have hall : c.constants = (before ++ [k]) ++ l :: after := by rw [hks]; simp
        have hbehind := width_before_of_parse h hall
        rw [totalWidth_append, totalWidth, totalWidth] at hbehind
        omega
    subst hlast
    have htotal : totalWidth c.constants = 65535 := by
      rw [hks, totalWidth_append, totalWidth, totalWidth]
      omega
    rw [hks]
    rw [hks] at htotal
    constructor
    · rintro ⟨⟩
      exact ⟨rfl, htotal, hnone⟩
    · rintro ⟨rfl, -, -⟩
      rfl

/-- **Lookups agree.**  In every class file that is read, the constant with an index is the
one that stands there, with two indices for a long and a double.  A class that is found by a
name has that name, and if none is found, no class has it.  The search runs out of indices
just if no class has the name and the constants take 65535 indices, one more than a class file
can count; otherwise it ends. -/
theorem lookups_agree {bytes : Bytes} {c : ClassFile} (h : parse bytes = .ok c) :
    (∀ index k, c.constant? index = some k ↔ c.StandsAt index.toNat k) ∧
    ∀ name,
      (∀ index, c.findClass? name = .ok (some index) → c.className? index = some name) ∧
      (c.findClass? name = .ok none → ∀ k ∈ c.constants, c.isClassNamed name k = false) ∧
      (∀ e, c.findClass? name = .error e ↔ e = .indexOverflow ∧
        totalWidth c.constants = 65535 ∧ ∀ k ∈ c.constants, c.isClassNamed name k = false) ∧
      (totalWidth c.constants ≠ 65535 → ∃ found, c.findClass? name = .ok found) := by
  refine ⟨fun index k => constant?_eq_some_iff, fun name => ?_⟩
  have herror (e : Malformed) : c.findClass? name = .error e ↔ _ := findClass?_eq_error_iff h
  refine ⟨fun index hfound => ?_, fun hnone => ?_, herror, fun hwidth => ?_⟩
  · have hsearched := searched c name 1 c.constants
    unfold findClass? at hfound
    rw [hfound] at hsearched
    cases hsearched with
    | found hks hnamed _ hindex =>
      exact className?_eq_some_iff.2 ⟨_, constant?_eq_some_iff.2 ⟨_, _, hks, hindex⟩, hnamed⟩
  · have hsearched := searched c name 1 c.constants
    unfold findClass? at hnone
    rw [hnone] at hsearched
    cases hsearched with
    | missing hmissing => exact hmissing
  · cases hresult : c.findClass? name with
    | ok found => exact ⟨found, rfl⟩
    | error e => exact absurd ((herror e).1 hresult).2.1 hwidth

/-- Behind a long the indices go on by two. -/
theorem assorted_lookups :
    parse assorted.write = .ok assorted ∧ assorted.StandsAt 3 (.long (-2)) ∧
      assorted.StandsAt 5 (.nameAndType 1 1) ∧
      ∀ name, ∃ found, assorted.findClass? name = .ok found := by
  have hparse := parse_eq_ok.2 assorted_fits.read_write
  obtain ⟨hconstant, hfind⟩ := lookups_agree hparse
  exact ⟨hparse, (hconstant 3 _).1 rfl, (hconstant 5 _).1 rfl,
    fun name => (hfind name).2.2.2 (by decide)⟩

/-! ### One index too many -/

/-- Constants are read to the end when the indices that are left are used up by the last. -/
theorem reads_constants_last {last : Constant} (hfits : ∀ k ∈ before ++ [last], k.Fits)
    {remaining : Nat} (hleft : totalWidth before < remaining)
    (hused : remaining ≤ totalWidth before + last.width) (done : List Constant) :
    (readConstants remaining done).Reads ((before ++ [last]).flatMap Constant.write)
      (done.reverse ++ (before ++ [last])) := by
  induction before generalizing remaining done with
  | nil =>
    intro rest
    have hzero : remaining - last.width = 0 := by
      rw [totalWidth] at hused
      omega
    rw [readConstants, if_neg (by omega), List.nil_append, List.flatMap_singleton,
      Constant.reads_write (hfits last (by simp))]
    dsimp only
    rw [hzero, readConstants, if_pos rfl, List.reverse_cons]
  | cons k before ih =>
    intro rest
    rw [totalWidth] at hleft hused
    rw [List.cons_append] at hfits
    rw [readConstants, if_neg (by omega), List.cons_append, List.flatMap_cons, List.append_assoc,
      Constant.reads_write (hfits k List.mem_cons_self)]
    dsimp only
    rw [ih (fun l hl => hfits l (List.mem_cons_of_mem k hl)) (by omega) (by omega)]
    simp

/-- A class file with nothing but constants. -/
def bare (constants : List Constant) : ClassFile where
  version := .java8
  constants
  flags := .ofBits _ 0
  thisClass := 0
  superClass := 0
  interfaces := []
  fields := []
  methods := []
  attributes := []

/-- The bytes of such a class file, with the number that says where the indices end. -/
def bareBytes (count : UInt16) (constants : List Constant) : Bytes :=
  magic ++ (Version.java8.write ++ (Bytes.u16 count ++
    (constants.flatMap Constant.write ++ List.replicate 14 0)))

/-- Such a class file is read if its last constant has an index that is counted. -/
theorem parse_bareBytes {count : UInt16} {last : Constant} (hfits : ∀ k ∈ before ++ [last], k.Fits)
    (hleft : totalWidth before < count.toNat - 1)
    (hused : count.toNat - 1 ≤ totalWidth before + last.width) :
    parse (bareBytes count (before ++ [last])) = .ok (bare (before ++ [last])) := by
  have hmagic (rest : Bytes) : Reader.take 4 (magic ++ rest) = .ok (magic, rest) :=
    Reader.reads_take magic rest
  have hconstants := reads_constants_last hfits hleft hused []
  rw [parse_eq_ok, read, bareBytes, Reader.bind_of_ok (hmagic _), if_neg (fun hne => hne rfl)]
  dsimp only
  rw [Reader.bind_of_ok (Version.java8.reads_write _),
    Reader.bind_of_ok (Reader.reads_u16 count _)]
  exact Reader.bind_of_ok (hconstants _)

/-- Constants that leave one index. -/
def crowd : List Constant := .utf8 "" :: List.replicate 32766 (.long 0)

/-- Copies of one constant take as many indices each. -/
theorem totalWidth_replicate (n : Nat) (k : Constant) :
    totalWidth (List.replicate n k) = n * k.width := by
  induction n with
  | zero => rw [Nat.zero_mul]; rfl
  | succ n ih => rw [List.replicate_succ, totalWidth, ih, Nat.succ_mul, Nat.add_comm]

theorem totalWidth_crowd : totalWidth crowd = 65533 := by
  rw [crowd, totalWidth, totalWidth_replicate]
  rfl

/-- The sample has two constants, over and over. -/
theorem mem_crowd (h : k ∈ crowd ++ [.long 0]) : k = .utf8 "" ∨ k = .long 0 := by
  rcases List.mem_append.1 h with h | h
  · rcases List.mem_cons.1 h with h | h
    · exact .inl h
    · exact .inr (List.eq_of_mem_replicate h)
  · exact .inr (List.mem_singleton.1 h)

theorem parse_crowd : parse (bareBytes 65535 (crowd ++ [.long 0])) =
    .ok (bare (crowd ++ [.long 0])) := by
  have hcount : (65535 : UInt16).toNat - 1 = 65534 := rfl
  refine parse_bareBytes (fun k hk => ?_) ?_ ?_
  · rcases mem_crowd hk with rfl | rfl <;> decide
  · rw [totalWidth_crowd, hcount]
    decide
  · rw [totalWidth_crowd, hcount]
    decide

/-- **A search runs out of indices**: in a class file whose last constant, a long, has the
largest index that can be counted, no class has the name, and the search fails. -/
theorem search_overflows :
    parse (bareBytes 65535 (crowd ++ [.long 0])) = .ok (bare (crowd ++ [.long 0])) ∧
    (bare (crowd ++ [.long 0])).findClass? "x" = .error .indexOverflow := by
  have hwidth : totalWidth (bare (crowd ++ [.long 0])).constants = 65535 := by
    rw [bare, totalWidth_append, totalWidth_crowd]
    rfl
  refine ⟨parse_crowd, (findClass?_eq_error_iff parse_crowd).2 ⟨rfl, hwidth, fun k hk => ?_⟩⟩
  rcases mem_crowd hk with rfl | rfl <;> rfl

end ClassFile
end ClassForge
