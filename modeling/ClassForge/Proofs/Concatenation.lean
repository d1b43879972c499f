/-
# Strings are joined in one builder

Specification, section 10.6: joined strings.

`a + b + c` is two additions, and a program means them one after the other: a string is
made of `a` and `b`, and another one of that and `c` (`Telling.nested`).  The code makes no
string for `a + b`.  It goes down the left operands as long as these are additions of
strings, and appends what it finds there to a single string builder (`Expr.summands`):

| | appended |
| --- | --- |
| `(a + b) + c` | `a`, `b`, `c` |
| `a + (b + c)` | `a`, and `b + c` as one string, which has a builder of its own |
| `(1 + 2) + a`, with `1 + 2` an integer | `3`, `a` |

The code of the operands is not looked into.  They have a text, which is taken before the
next operand is evaluated, and may change what the program sees; the builder is hidden from
them (`View`).  Where the evaluation of an operand has a result, its code pushes a value with
the right text (`Telling.Pushes`).  What is pushed for the whole is then right too, by
induction on the tree (`Expr.Joins.pushes`): the nested meaning is a fold over the summands
(`Telling.nested_eq_fold`), and the code goes through them in just this order (`Appends`).

That such code can be made at all depends on the room in the constant pool
(`Lowering.hasRoom_plus`).
-/

import ClassForge.Proofs.Assignments
import ClassForge.Proofs.Counts

namespace ClassForge

/-! ### Additions of strings -/

namespace Expr

/-- The addition of two strings, or of a string and something else. -/
abbrev plus (left right : Expr) : Expr := .binary .add left right (some .string)

/-- Is this an addition of strings? -/
def isPlus : Expr → Bool
  | .binary op _ _ type => op = .add ∧ type = some .string
  | _ => false

/-- What is appended one after the other: the operands of a chain of additions, of which
only the left operands are chains themselves. -/
def summands (e : Expr) : List Expr :=
  match e with
  | .binary op left right type =>
    if op = .add ∧ type = some .string then left.summands ++ [right]
    else [.binary op left right type]
  | e => [e]

/-- **Trees of additions of strings**, over operands with some property. -/
inductive Joins (box : Expr → Prop) : Expr → Prop where
  | operand {e : Expr} (h : box e) (he : e.isPlus = false) : Joins box e
  | plus {left right : Expr} (hl : Joins box left) (hr : Joins box right) :
    Joins box (left.plus right)

theorem summands_of_not_plus {e : Expr} (h : e.isPlus = false) : e.summands = [e] := by
  cases e with
  | binary op left right type =>
    rw [summands, if_neg (of_decide_eq_false h)]
  | _ => rw [summands]; simp

theorem summands_plus (left right : Expr) :
    (left.plus right).summands = left.summands ++ [right] := by
  rw [summands, if_pos ⟨rfl, rfl⟩]

end Expr

/-- The text of an expression and what the program sees after it, if the evaluation has a
result. -/
abbrev Telling (R : Type) := Expr → R → Option (String × R)

namespace Telling

variable {R : Type} (T : Telling R)

/-- **What additions of strings mean**, one by one: the left operand is evaluated, then the
right one, and their texts make a new one. -/
def nested : Telling R
  | .binary op left right type, r =>
    if op = .add ∧ type = some .string then do
      let (text, r) ← nested left r
      let (more, r) ← nested right r
      some (text ++ more, r)
    else T (.binary op left right type) r
  | e, r => T e r

/-- A text with that of another expression behind it. -/
def extend (s : String × R) (x : Expr) : Option (String × R) := do
  let (more, r) ← T x s.2
  some (s.1 ++ more, r)

/-- What is no addition of texts is told as it is. -/
theorem nested_of_not_plus {e : Expr} (h : e.isPlus = false) (r : R) : T.nested e r = T e r := by
  cases e with
  | binary op left right type =>
    rw [nested, if_neg (of_decide_eq_false h)]
  | _ => rw [nested]; simp

theorem nested_plus (left right : Expr) (r : R) :
    T.nested (left.plus right) r = (T.nested left r).bind fun s => T.nested.extend s right := by
  rw [nested, if_pos ⟨rfl, rfl⟩]
  rfl

/-- **The nested meaning is a fold over the summands.**  No operand is moved into another
addition. -/
theorem nested_eq_fold {box : Expr → Prop} {e : Expr} (h : e.Joins box) (r : R) :
    T.nested e r = e.summands.foldlM T.nested.extend ("", r) := by
  induction h with
  | @operand e _ he =>
    have hone : T.nested.extend ("", r) e = T.nested e r := by
      unfold extend
      cases T.nested e r with
      | none => rfl
      | some s => exact congrArg (fun text => some (text, s.2)) (String.empty_append (s := s.1))
    rw [Expr.summands_of_not_plus he, List.foldlM_cons, hone]
    exact (bind_pure _).symm
  | @plus left right _ _ ihl _ =>
    rw [nested_plus, Expr.summands_plus, List.foldlM_append, ← ihl]
    refine congrArg (Option.bind _) (funext fun s => ?_)
    exact (bind_pure _).symm

end Telling

/-! ### What the program sees -/

/-- The objects keep their texts. -/
def Contents.Keeps {X : Type} (m : Contents X) (objects : List Nat) (m' : Contents X) : Prop :=
  ∀ n ∈ objects, ∀ text, m.textAt n = some text → m'.textAt n = some text

/-- What a program sees of the contents.  Some objects are hidden from it: string builders
that only its code knows of. -/
structure View (X R : Type) where
  /-- This is seen of the contents, with the given objects hidden. -/
  shows : List Nat → Contents X → R → Prop
  /-- What is hidden exists. -/
  made : ∀ {H : List Nat} {m : Contents X} {r : R}, shows H m r → ∀ n ∈ H, n < m.free
  /-- A new object may be hidden. -/
  build : ∀ {H : List Nat} {m : Contents X} {r : R}, shows H m r → ∀ text,
    shows (m.free :: H) (m.build text) r
  /-- Nothing is seen of a change to a hidden object. -/
  setText : ∀ {H : List Nat} {m : Contents X} {r : R} {n : Nat}, shows H m r → n ∈ H → ∀ text,
    shows H (m.setText n text) r
  /-- An object that is not hidden any more is still not known to the program. -/
  reveal : ∀ {H : List Nat} {m : Contents X} {r : R} {n : Nat}, shows (n :: H) m r → shows H m r

/-- The code of an expression pushes a value with the text of the expression, if the
evaluation has a result.  It leaves hidden objects alone. -/
def Telling.Pushes {X R : Type} (T : Telling R) (I : View X R) (P : Platform X) (q : ConstantPool)
    (W : Whole) (site : Site) (slots : LocalSlots) (x : Expr) : Prop :=
  ∀ (t : FieldType) (H : List Nat) (m : Contents X) (r r' : R) (text : String) (S : List Datum)
    (a b : Assembler) (slots' : LocalSlots), x.type = some t → T x r = some (text, r') →
    I.shows H m r → (x.fragment site).value slots a = .ok ((), slots') b →
    b.Grows W.assembler → a.isReachable = true →
      b.isReachable = true ∧ ∃ d m₁ m₂,
        (P.processor q).Crosses W a b ⟨S, m⟩ b.instructions.size ⟨d :: S, m₁⟩ ∧
        P.text? t d m₁ = some (text, m₂) ∧ I.shows H m₂ r' ∧ m.Keeps H m₂

namespace Contents

variable {X : Type} {m m₁ m₂ : Contents X} {H : List Nat} {n : Nat}

theorem Keeps.trans (h : m.Keeps H m₁) (h' : m₁.Keeps H m₂) : m.Keeps H m₂ :=
  fun n hn text htext => h' n hn text (h n hn text htext)

theorem keeps_build (m : Contents X) (H : List Nat) (text : String) : m.Keeps H (m.build text) :=
  fun _ _ _ h => textAt_build h text

theorem textAt_setText_ne {k : Nat} (h : k ≠ n) (m : Contents X) (text : String) :
    (m.setText n text).textAt k = m.textAt k := by
  have htexts : (m.setText n text).texts k = m.texts k := if_neg h
  unfold textAt
  rw [htexts]
  rfl

theorem keeps_setText (hn : n ∉ H) (m : Contents X) (text : String) :
    m.Keeps H (m.setText n text) := by
  intro k hk old hold
  have hne : k ≠ n := fun h => hn (h ▸ hk)
  exact (textAt_setText_ne hne m text).trans hold

theorem lt_free_of_textAt {text : String} (h : m.textAt n = some text) : n < m.free := by
  unfold textAt at h
  split at h
  · assumption
  · cases h

end Contents

/-! ### The operands of a run -/

/-- The descriptor of the method that appends a value of the type to a string builder. -/
def FieldType.appendDescriptor : FieldType → String
  | .base .int => "(I)Ljava/lang/StringBuilder;"
  | .base .float => "(F)Ljava/lang/StringBuilder;"
  | .base .boolean => "(Z)Ljava/lang/StringBuilder;"
  | .ref t =>
    if FieldType.ref t = .string then "(Ljava/lang/String;)Ljava/lang/StringBuilder;"
    else "(Ljava/lang/Object;)Ljava/lang/StringBuilder;"

/-- A point of a run at which a string builder is on top of the stack. -/
structure Building (X R : Type) where
  /-- The code up to this point. -/
  code : Assembler
  contents : Contents X
  /-- What the program sees. -/
  seen : R
  /-- The text in the builder. -/
  text : String

/-- **An expression is appended to the string builder `n`.**  Its code is run once, from its
start to its end.  The next instruction appends the value, by the method for its static
type. -/
inductive Appended {X R : Type} (T : Telling R) (P : Platform X) (q : ConstantPool) (W : Whole)
    (site : Site) (slots : LocalSlots) (n : Nat) (S : List Datum) (x : Expr)
    (s u : Building X R) : Prop where
  | intro {c : Assembler} {t : FieldType} {d : Datum} {m₁ m₂ : Contents X} {more : String}
    {index : UInt16}
    (code : (x.fragment site).value slots s.code = .ok ((), slots) c)
    (evaluated : (P.processor q).Crosses W s.code c ⟨.ref (some n) :: S, s.contents⟩
      c.instructions.size ⟨d :: .ref (some n) :: S, m₁⟩)
    (meaning : T x s.seen = some (more, u.seen))
    (type : x.type = some t)
    (value : P.text? t d m₁ = some (more, m₂))
    (call : W.assembler.instructions[c.instructions.size]? =
      some (.withConstant .invokevirtual index))
    (method : q.member? index = some ⟨"java/lang/StringBuilder", "append", t.appendDescriptor⟩)
    (next : u.code.instructions.size = c.instructions.size + 1)
    (appended : (P.processor q).Crosses W c u.code ⟨d :: .ref (some n) :: S, m₁⟩
      u.code.instructions.size ⟨.ref (some n) :: S, u.contents⟩)
    (text : u.text = s.text ++ more) :
    Appended T P q W site slots n S x s u

/-- **Expressions are appended one after the other**, each behind the one before. -/
inductive Appends {X R : Type} (T : Telling R) (P : Platform X) (q : ConstantPool) (W : Whole)
    (site : Site) (slots : LocalSlots) (n : Nat) (S : List Datum) :
    List Expr → Building X R → Building X R → Prop where
  | nil (s : Building X R) : Appends T P q W site slots n S [] s s
  | cons {x : Expr} {xs : List Expr} {s u s' : Building X R}
    (first : Appended T P q W site slots n S x s u)
    (rest : Appends T P q W site slots n S xs u s') :
    Appends T P q W site slots n S (x :: xs) s s'

/-- **A string is built of expressions.**  A single string builder is made, everything is
appended to it, and then it is replaced by its text, a new string at the address `k`. -/
inductive Builds {X R : Type} (T : Telling R) (P : Platform X) (q : ConstantPool) (W : Whole)
    (site : Site) (slots : LocalSlots) (S : List Datum) (xs : List Expr) (a b : Assembler)
    (m m' : Contents X) (r r' : R) (text : String) (k : Nat) : Prop where
  | intro {c : Assembler} {s : Building X R}
    (builder : Lowering.newBuilder slots a = .ok ((), slots) c)
    (made : (P.processor q).Crosses W a c ⟨S, m⟩ c.instructions.size
      ⟨.ref (some m.free) :: S, m.build ""⟩)
    (appends : Appends T P q W site slots m.free S xs ⟨c, m.build "", r, ""⟩ s)
    (seen : s.seen = r')
    (result : s.text = text)
    (string : Lowering.builderString slots s.code = .ok ((), slots) b)
    (taken : (P.processor q).Crosses W s.code b ⟨.ref (some m.free) :: S, s.contents⟩
      b.instructions.size ⟨.ref (some k) :: S, m'⟩) :
    Builds T P q W site slots S xs a b m m' r r' text k

section Code

open Lowering Platform

variable {X R : Type} {T : Telling R} {I : View X R} {P : Platform X} {q : ConstantPool} {W : Whole}
  {site : Site} {slots slots' : LocalSlots} {a b c : Assembler} {x e : Expr} {xs : List Expr}
  {n : Nat} {S : List Datum} {H : List Nat} {s s' : Building X R} {r : R} {text : String}

theorem Processor.Crosses.trans {p : Processor R} {σ σ₁ σ₂ : Processor.State R} {k : Nat}
    (hab : p.Crosses W a b σ b.instructions.size σ₁) (hbc : p.Crosses W b c σ₁ k σ₂)
    (ha : a.instructions.size ≤ b.instructions.size)
    (hc : b.instructions.size ≤ c.instructions.size) : p.Crosses W a c σ k σ₂ :=
  (Processor.Steps.mono hab Nat.le.refl hc).trans (Processor.Steps.mono hbc ha Nat.le.refl)

theorem Appended.crosses (h : Appended T P q W site slots n S x s s') :
    s.code.instructions.size ≤ s'.code.instructions.size ∧
      (P.processor q).Crosses W s.code s'.code ⟨.ref (some n) :: S, s.contents⟩
        s'.code.instructions.size ⟨.ref (some n) :: S, s'.contents⟩ := by
  cases h with
  | @intro c t d m₁ m₂ more index code evaluated meaning type value call method next appended =>
    have hcode := ((x.emits site).value _ _ _ _ _ code).1.built.grows.size_le
    have hcall : c.instructions.size ≤ s'.code.instructions.size := by omega
    exact ⟨Nat.le_trans hcode hcall, evaluated.trans appended hcode hcall⟩

/-- What is appended is run through from its start to its end. -/
theorem Appends.crosses (h : Appends T P q W site slots n S xs s s') :
    s.code.instructions.size ≤ s'.code.instructions.size ∧
      (P.processor q).Crosses W s.code s'.code ⟨.ref (some n) :: S, s.contents⟩
        s'.code.instructions.size ⟨.ref (some n) :: S, s'.contents⟩ := by
  induction h with
  | nil s => exact ⟨Nat.le.refl, .refl _⟩
  | cons first _ ih =>
    obtain ⟨hfirst, hcrosses⟩ := first.crosses
    exact ⟨Nat.le_trans hfirst ih.1, hcrosses.trans ih.2 hfirst ih.1⟩

theorem Builds.crosses {m m' : Contents X} {r' : R} {k : Nat}
    (h : Builds T P q W site slots S xs a b m m' r r' text k) :
    (P.processor q).Crosses W a b ⟨S, m⟩ b.instructions.size ⟨.ref (some k) :: S, m'⟩ := by
  cases h with
  | @intro c s builder made appends seen result string taken =>
    have hmade := (within_newBuilder.emits _ _ _ _ _ builder).1.built.grows.size_le
    have htaken := (within_builderString.emits _ _ _ _ _ string).1.built.grows.size_le
    obtain ⟨hsize, happends⟩ := appends.crosses
    exact (made.trans happends hmade hsize).trans taken (Nat.le_trans hmade hsize) htaken

/-! ### The code of an operand -/

theorem member_appendMethod (t : FieldType) :
    (appendMethod t).member =
      ⟨"java/lang/StringBuilder", "append", t.appendDescriptor⟩ := by
  cases t with
  | base t => cases t <;> decide +kernel
  | ref t =>
    rw [appendMethod, appendType, FieldType.appendDescriptor]
    by_cases ht : FieldType.ref t = .string
    · rw [if_pos ht, if_pos ht]
      decide +kernel
    · rw [if_neg ht, if_neg ht]
      decide +kernel

/-- Asking for the type of an expression succeeds just if it has one, and changes nothing. -/
theorem typeOf_eq_ok {t : FieldType} (h : typeOf e slots a = .ok (t, slots') b) :
    e.type = some t ∧ slots' = slots ∧ b = a := by
  unfold typeOf at h
  cases htype : e.type with
  | none =>
    rw [htype] at h
    cases h
  | some u =>
    rw [htype] at h
    cases h
    exact ⟨rfl, rfl, rfl⟩

/-- A call of a method of string builders is one instruction, which names the method. -/
theorem call_added {m : MethodRef} (hm : m.invokeKind false = .virtual)
    (hrun : emit (Assembler.invoke m false) slots a = .ok ((), slots') b)
    (ha : a.isReachable = true) (hgrows : b.Grows W.assembler) (hq : W.assembler.pool.Grows q) :
    b.instructions.size = a.instructions.size + 1 ∧ ∃ index,
      W.assembler.instructions[a.instructions.size]? =
        some (.withConstant .invokevirtual index) ∧ q.member? index = some m.member := by
  obtain ⟨index, a', hindex, hpush⟩ := bind_eq_ok (emit_eq_ok hrun).1
  obtain ⟨pool, hpool, rfl⟩ := Interning.toAssembling_eq_ok.1 hindex
  unfold Assembler.callInstruction at hpush
  rw [hm] at hpush
  cases Operation.run_push_iff.1 hpush with
  | drop _ hc =>
    rw [Assembler.isReachable, hc] at ha
    cases ha
  | push hc hb hs =>
    have hname := (ConstantPool.yields_methodName m _ _ _ hpool).2 q (hgrows.pool.trans hq)
    exact ⟨Array.size_push _, index, hgrows.instructions _ _ Array.getElem?_push_size, hname⟩

/-- The state of a run that builds a string. -/
structure Building.Holds (I : View X R) (H : List Nat) (n : Nat) (s : Building X R) : Prop where
  reachable : s.code.isReachable = true
  text : s.contents.textAt n = some s.text
  shows : I.shows (n :: H) s.contents s.seen

theorem emits_appendOperand (site : Site) (x : Expr) :
    (appendOperand (x.fragment site).toOperand).Emits :=
  (x.emits site).value.bind fun _ => (within_typeOf _).emits.bind fun t => (within_append t).emits

/-- **One operand is appended.** Its code runs once, and the text of the builder grows by
what the operand tells in the state in which it is evaluated. -/
theorem Building.Holds.append (hs : s.Holds I H n) (hn : n ∉ H) (hq : W.assembler.pool.Grows q)
    (hx : T.Pushes I P q W site slots x) {more : String} (hmore : T x s.seen = some (more, r))
    (hrun : appendOperand (x.fragment site).toOperand slots s.code = .ok ((), slots) c)
    (hgrows : c.Grows W.assembler) (S : List Datum) :
    ∃ u : Building X R, u.code = c ∧ u.seen = r ∧ u.text = s.text ++ more ∧ u.Holds I H n ∧
      s.contents.Keeps H u.contents ∧ Appended T P q W site slots n S x s u := by
  obtain ⟨⟨⟩, slots₁, b, hvalue, hrun⟩ := Lowering.bind_eq_ok hrun
  obtain ⟨t, slots₂, b', ht, hcall⟩ := Lowering.bind_eq_ok hrun
  obtain ⟨htype, rfl, rfl⟩ := typeOf_eq_ok ht
  rw [Expr.source_fragment] at htype
  obtain ⟨hadds, rfl⟩ := (within_append t).emits _ _ _ _ _ hcall
  obtain ⟨hreach, d, m₁, m₂, hcrosses, htext, hshows, hkeeps⟩ :=
    hx t (n :: H) s.contents s.seen r more (.ref (some n) :: S) s.code b' slots htype hmore
      hs.shows hvalue (hadds.built.grows.trans hgrows) hs.reachable
  -- the operand has left the builder alone
  have hbuilder := hkeeps n List.mem_cons_self _ hs.text
  obtain ⟨-, hreach', hsteps⟩ := (follows_append hq htext hbuilder S).crosses hcall hgrows hreach
  obtain ⟨hsize, index, hindex, hname⟩ := call_added rfl hcall hreach hgrows hq
  rw [member_appendMethod] at hname
  refine ⟨⟨c, m₂.setText n (s.text ++ more), r, s.text ++ more⟩, rfl, rfl, rfl, ?_, ?_, ?_⟩
  · exact ⟨hreach', Contents.textAt_setText hbuilder _, I.setText hshows List.mem_cons_self _⟩
  · exact Contents.Keeps.trans (fun k hk => hkeeps k (List.mem_cons_of_mem n hk))
      (Contents.keeps_setText hn m₂ _)
  · exact .intro hvalue hcrosses hmore htype htext hindex hname hsize hsteps rfl

/-- **Operands are appended one after the other.** The induction is on the operands; what an
earlier one changed is seen by the later ones. -/
theorem Building.Holds.appendAll (hs : s.Holds I H n) (hn : n ∉ H) (hq : W.assembler.pool.Grows q)
    (hxs : ∀ x ∈ xs, T.Pushes I P q W site slots x)
    (htext : xs.foldlM T.extend (s.text, s.seen) = some (text, r))
    (hrun : (xs.map fun x => (x.fragment site).toOperand).forM appendOperand slots s.code =
      .ok ((), slots) c) (hgrows : c.Grows W.assembler) (S : List Datum) :
    ∃ u : Building X R, u.code = c ∧ u.seen = r ∧ u.text = text ∧ u.Holds I H n ∧
      s.contents.Keeps H u.contents ∧ Appends T P q W site slots n S xs s u := by
  induction xs generalizing s with
  | nil =>
    cases htext
    cases hrun
    exact ⟨s, rfl, rfl, rfl, hs, fun _ _ _ h => h, .nil s⟩
  | cons x xs ih =>
    obtain ⟨⟨text₁, r₁⟩, hfirst, htext⟩ := Option.bind_eq_some_iff.1 htext
    obtain ⟨⟨more, r₂⟩, hmore, hfirst⟩ := Option.bind_eq_some_iff.1 hfirst
    cases hfirst
    obtain ⟨⟨⟩, slots₁, b, hoperand, hrun⟩ := Lowering.bind_eq_ok hrun
    obtain ⟨-, rfl⟩ := emits_appendOperand site x _ _ _ _ _ hoperand
    obtain ⟨hrest, -⟩ := emits_forM (List.forall_mem_map.2 fun y _ => emits_appendOperand site y)
      _ _ _ _ _ hrun
    obtain ⟨u, rfl, rfl, hu, hholds, hkeeps, happended⟩ := hs.append hn hq
      (hxs x List.mem_cons_self) hmore hoperand (hrest.built.grows.trans hgrows) S
    rw [← hu] at htext
    obtain ⟨u', hcode, hseen, htext', hholds', hkeeps', happends⟩ :=
      ih hholds (fun y hy => hxs y (List.mem_cons_of_mem x hy)) htext hrun
    exact ⟨u', hcode, hseen, htext', hholds', hkeeps.trans hkeeps', .cons happended happends⟩

/-- **The code that joins operands builds a string of them.** One builder is made for all of
them, and hidden ones that operands make for themselves do not get in its way. -/
theorem joined_builds (hq : W.assembler.pool.Grows q)
    (hxs : ∀ x ∈ xs, T.Pushes I P q W site slots x) {m : Contents X} {r' : R} (hm : I.shows H m r)
    (htext : xs.foldlM T.extend ("", r) = some (text, r'))
    (hrun : joined (xs.map fun x => (x.fragment site).toOperand) slots a = .ok ((), slots) b)
    (hgrows : b.Grows W.assembler) (ha : a.isReachable = true) (S : List Datum) :
    b.isReachable = true ∧ ∃ (k : Nat) (m' : Contents X),
      Builds T P q W site slots S xs a b m m' r r' text k ∧ m'.textAt k = some text ∧
      I.shows H m' r' ∧ m.Keeps H m' := by
  obtain ⟨⟨⟩, slots₁, c, hbuilder, hrun⟩ := Lowering.bind_eq_ok hrun
  obtain ⟨⟨⟩, slots₂, d, hoperands, hstring⟩ := Lowering.bind_eq_ok hrun
  obtain ⟨-, rfl⟩ := within_newBuilder.emits _ _ _ _ _ hbuilder
  obtain ⟨hlast, rfl⟩ := within_builderString.emits _ _ _ _ _ hstring
  obtain ⟨hadds, -⟩ := emits_forM (List.forall_mem_map.2 fun y _ => emits_appendOperand site y)
    _ _ _ _ _ hoperands
  have hd := hlast.built.grows.trans hgrows
  have hmade :=
    (follows_newBuilder (P := P) hq S m).crosses hbuilder (hadds.built.grows.trans hd) ha
  -- the builder is new, so nothing that was hidden before is changed by appending to it
  have hfree : m.free ∉ H := fun h => Nat.lt_irrefl _ (I.made hm _ h)
  have hstart : Building.Holds I H m.free ⟨c, m.build "", r, ""⟩ :=
    ⟨hmade.2.1, m.textAt_build_free "", I.build hm ""⟩
  obtain ⟨s, rfl, hseen, hs, hholds, hkeeps, happends⟩ :=
    hstart.appendAll hfree hq hxs htext hoperands hd S
  have htaken :=
    (follows_builderString (P := P) hq hholds.text S).crosses hstring hgrows hholds.reachable
  refine ⟨htaken.2.1, s.contents.free, s.contents.build s.text, ?_, ?_, ?_, ?_⟩
  · exact .intro hbuilder hmade.2.2 happends hseen hs hstring htaken.2.2
  · rw [← hs]
    exact s.contents.textAt_build_free s.text
  · rw [← hseen]
    exact I.reveal (I.reveal (I.build hholds.shows s.text))
  · exact ((m.keeps_build H "").trans hkeeps).trans (s.contents.keeps_build H s.text)

/-! ### The code of a tree -/

namespace Expr

variable {box : Expr → Prop} {left right : Expr}

/-- The pieces that the code of an expression is made of are its summands. -/
theorem Joins.pieces_eq (h : e.Joins box) (site : Site) :
    (e.fragment site).pieces = e.summands.map fun x => (x.fragment site).toOperand := by
  induction h with
  | @operand e _ he =>
    rw [summands_of_not_plus he, List.map_singleton]
    cases e with
    | binary op left right type =>
      rw [fragment]
      exact if_neg (of_decide_eq_false he)
    | unary op operand type => cases op <;> (rw [fragment]; rfl)
    | _ =>
      rw [fragment]
      rfl
  | @plus left right _ _ ihl _ =>
    have hchain : ((left.plus right).fragment site).pieces =
        (left.fragment site).pieces ++ [(right.fragment site).toOperand] := by
      rw [fragment, binaryFragment, chain, if_pos ⟨rfl, rfl⟩]
    rw [hchain, summands_plus, List.map_append, ihl]
    rfl

/-- **The code of an addition of strings joins its summands.** -/
theorem Joins.value_plus (hl : left.Joins box) (site : Site) :
    ((left.plus right).fragment site).value =
      joined ((left.plus right).summands.map fun x => (x.fragment site).toOperand) := by
  have hvalue : ((left.plus right).fragment site).value =
      joined ((left.fragment site).pieces ++ [(right.fragment site).toOperand]) := by
    rw [fragment]
    change binaryValue _ _ _ _ _ = _
    rw [binaryValue, typeOf_of_some rfl, pure_bind, if_pos ⟨rfl, rfl⟩]
  rw [hvalue, hl.pieces_eq site, summands_plus, List.map_append]
  rfl

end Expr

/-- **The code of a tree of additions pushes its text**, and so does that of each of its
summands. -/
theorem Expr.Joins.pushes (h : e.Joins (T.Pushes I P q W site slots))
    (hq : W.assembler.pool.Grows q) :
    (∀ x ∈ e.summands, T.nested.Pushes I P q W site slots x) ∧
      T.nested.Pushes I P q W site slots e := by
  induction h with
  | @operand e h he =>
    have hpushes : T.nested.Pushes I P q W site slots e := by
      intro t H m r r' text S a b slots' ht htext
      rw [T.nested_of_not_plus he] at htext
      exact h t H m r r' text S a b slots' ht htext
    rw [Expr.summands_of_not_plus he]
    exact ⟨fun x hx => List.mem_singleton.1 hx ▸ hpushes, hpushes⟩
  | @plus left right hl hr ihl ihr =>
    -- no code pushes the left operand: its summands take its place
    have hsummands : ∀ x ∈ (left.plus right).summands, T.nested.Pushes I P q W site slots x := by
      intro x hx
      rw [Expr.summands_plus, List.mem_append, List.mem_singleton] at hx
      rcases hx with hx | rfl
      · exact ihl.1 x hx
      · exact ihr.2
    refine ⟨hsummands, ?_⟩
    intro t H m r r' text S a b slots' ht htext hm hrun hgrows ha
    cases ht
    obtain ⟨-, rfl⟩ := ((left.plus right).emits site).value _ _ _ _ _ hrun
    rw [hl.value_plus site] at hrun
    rw [T.nested_eq_fold (.plus hl hr)] at htext
    obtain ⟨hreach, k, m', hbuilds, hk, hshows, hkeeps⟩ :=
      joined_builds hq hsummands hm htext hrun hgrows ha S
    refine ⟨hreach, .ref (some k), m', m', hbuilds.crosses, ?_, hshows, hkeeps⟩
    exact congrArg (Option.map _) hk

/-- An operand is pushed if its code can be followed. -/
theorem Telling.pushes_of_follows
    (h : ∀ (t : FieldType) (H : List Nat) (m : Contents X) (r r' : R) (text : String),
      x.type = some t → T x r = some (text, r') → I.shows H m r → ∃ d m₁ m₂,
        (∀ S, (P.processor q).Follows W slots (x.fragment site).value (.here ⟨S, m⟩)
          (.here ⟨d :: S, m₁⟩)) ∧
        P.text? t d m₁ = some (text, m₂) ∧ I.shows H m₂ r' ∧ m.Keeps H m₂) :
    T.Pushes I P q W site slots x := by
  intro t H m r r' text S a b slots' ht htext hm hrun hgrows ha
  obtain ⟨d, m₁, m₂, hfollows, hd, hshows, hkeeps⟩ := h t H m r r' text ht htext hm
  obtain ⟨-, hreach, hsteps⟩ := (hfollows S).crosses hrun hgrows ha
  exact ⟨hreach, d, m₁, m₂, hsteps, hd, hshows, hkeeps⟩

/-- **Additions of strings mean what they say.**  From the start of the code of a tree of
additions the processor comes to its end, with a new string on the stack: the text that the
additions yield one by one.  On the way a single string builder is made, and each summand is
evaluated once and from left to right, and appended by the method for its static type.  What
the program sees behind the code is what it sees after the additions. -/
theorem Telling.concatenation_runs (T : Telling R) (I : View X R) (P : Platform X)
    (q : ConstantPool) (W : Whole) (hq : W.assembler.pool.Grows q) (site : Site)
    (slots slots' : LocalSlots) (left right : Expr)
    (hleft : left.Joins (T.Pushes I P q W site slots))
    (hright : right.Joins (T.Pushes I P q W site slots)) (H : List Nat) (m : Contents X)
    (r r' : R) (hm : I.shows H m r) (text : String)
    (htext : T.nested (left.plus right) r = some (text, r')) (a b : Assembler)
    (ha : a.isReachable = true) (hgrows : b.Grows W.assembler)
    (hrun : ((left.plus right).fragment site).value slots a = .ok ((), slots') b)
    (S : List Datum) :
    b.isReachable = true ∧ ∃ (k : Nat) (m' : Contents X),
      (P.processor q).Crosses W a b ⟨S, m⟩ b.instructions.size ⟨.ref (some k) :: S, m'⟩ ∧
      m'.textAt k = some text ∧ I.shows H m' r' ∧ m.Keeps H m' ∧
      Builds T.nested P q W site slots S (left.plus right).summands a b m m' r r' text k := by
  have htree : (left.plus right).Joins (T.Pushes I P q W site slots) := .plus hleft hright
  obtain ⟨-, rfl⟩ := ((left.plus right).emits site).value _ _ _ _ _ hrun
  rw [hleft.value_plus site] at hrun
  rw [T.nested_eq_fold htree] at htext
  obtain ⟨hreach, k, m', hbuilds, hk, hshows, hkeeps⟩ :=
    joined_builds hq (htree.pushes hq).1 hm htext hrun hgrows ha S
  exact ⟨hreach, k, m', hbuilds.crosses, hk, hshows, hkeeps, hbuilds⟩

end Code

/-! ### Code for which there is room -/

namespace Lowering

variable {id : LocalId} {slot : UInt16}

/-- Wherever the frame has the first property and there is room for so many constants more,
the code is made, and the frame has the second property behind it.  No label is made. -/
def HasRoom (slots : LocalSlots) (room : Nat) (F G : Frame → Prop) (x : Lowering Unit) : Prop :=
  ∀ (a : Assembler) (f : Frame), a.current = some f → F f →
    a.pool.size + room ≤ ConstantPool.capacity →
      ∃ b g, x slots a = .ok ((), slots) b ∧ b.current = some g ∧ G g ∧
        b.pool.size ≤ a.pool.size + room ∧ b.labels = a.labels

variable {slots : LocalSlots} {room more : Nat} {F G K : Frame → Prop} {x y : Lowering Unit}
  {L : List FrameType} {S : Frame.Stack}

/-- There is room for code that pushes one value. -/
abbrev PushesWithin (slots : LocalSlots) (room : Nat) (L : List FrameType) (S : Frame.Stack)
    (x : Lowering Unit) : Prop :=
  HasRoom slots room (· = ⟨L, S⟩) (fun f => ∃ t, f = ⟨L, t :: S⟩) x

theorem HasRoom.bind (hx : HasRoom slots room F G x) (hy : HasRoom slots more G K y) :
    HasRoom slots (room + more) F K (x >>= fun _ => y) := by
  intro a f hc hF hroom
  obtain ⟨b, g, hb, hg, hG, hsize, hlabels⟩ := hx a f hc hF (by omega)
  obtain ⟨c, k, hc, hk, hK, hsize', hlabels'⟩ := hy b g hg hG (by omega)
  exact ⟨c, k, (Lowering.bind_of_ok hb).trans hc, hk, hK, by omega, hlabels'.trans hlabels⟩

theorem HasRoom.mono (h : HasRoom slots room F G x) (hle : room ≤ more) (hK : ∀ f, G f → K f) :
    HasRoom slots more F K x := by
  intro a f hc hF hroom
  obtain ⟨b, g, hb, hg, hG, hsize, hlabels⟩ := h a f hc hF (by omega)
  exact ⟨b, g, hb, hg, hK g hG, by omega, hlabels⟩

theorem hasRoom_skip (room : Nat) : HasRoom slots room F F (pure ()) := fun a f hc hF _ =>
  ⟨a, f, rfl, hc, hF, Nat.le_add_right _ _, rfl⟩

theorem hasRoom_constant {c : Interning UInt16} {i : UInt16 → Instruction} {types : OperandTypes}
    (hc : ∀ p : ConstantPool, p.size + room ≤ ConstantPool.capacity →
      ∃ index q, c p = .ok index q ∧ q.size ≤ p.size + room)
    (hi : ∀ index, (i index).opcode.effect.isBranch = false)
    (hu : ∀ index, (i index).opcode.effect.isUnconditional = false)
    (hstep : ∀ f n index, F f → ∃ g, f.step n (i index) types = .ok g ∧ G g) :
    HasRoom slots room F G
      (emit (c.toAssembling >>= fun index => Assembler.push (i index) types)) := by
  intro a f hcurrent hF hroom
  obtain ⟨index, q, hindex, hsize⟩ := hc a.pool hroom
  obtain ⟨g, hg, hG⟩ := hstep f a.instructions.size index hF
  exact ⟨_, g, emit_of_ok ((Assembler.push_constant_iff hcurrent hi hu).2
    ⟨index, q, g, hindex, hg, rfl⟩), rfl, hG, hsize, rfl⟩

theorem hasRoom_push {i : Instruction} {types : OperandTypes}
    (hi : i.opcode.effect.isBranch = false) (hu : i.opcode.effect.isUnconditional = false)
    (hstep : ∀ f n, F f → ∃ g, f.step n i types = .ok g ∧ G g) :
    HasRoom slots room F G (emit (Assembler.push i types)) :=
  hasRoom_constant (c := pure 0) (i := fun _ => i) (fun p _ => ⟨0, p, rfl, Nat.le_add_right _ _⟩)
    (fun _ => hi) (fun _ => hu) fun f n _ => hstep f n

/-- A new string builder takes a class and a method. -/
theorem hasRoom_newBuilder (hL : ∀ n, .uninitialized n ∉ L) (hS : ∀ n, .uninitialized n ∉ S) :
    HasRoom slots 8 (· = ⟨L, S⟩) (· = ⟨L, .object builderType :: S⟩) newBuilder := by
  have hnew : HasRoom slots 2 (· = ⟨L, S⟩) (fun f => ∃ n, f = ⟨L, .uninitialized n :: S⟩)
      (emit (Assembler.newObject builderType)) := by
    refine hasRoom_constant (fun p => ConstantPool.className_of_room builderType.className)
      (fun _ => rfl) (fun _ => rfl) ?_
    rintro _ n index rfl
    exact ⟨_, rfl, n, rfl⟩
  have hdup : HasRoom slots 0 (fun f => ∃ n, f = ⟨L, .uninitialized n :: S⟩)
      (fun f => ∃ n, f = ⟨L, .uninitialized n :: .uninitialized n :: S⟩)
      (emit (Assembler.simple .dup)) := by
    refine hasRoom_push rfl rfl ?_
    rintro _ _ ⟨n, rfl⟩
    exact ⟨_, rfl, n, rfl⟩
  have hconstruct : HasRoom slots 6
      (fun f => ∃ n, f = ⟨L, .uninitialized n :: .uninitialized n :: S⟩)
      (· = ⟨L, .object builderType :: S⟩)
      (emit (Assembler.construct (.constructor .stringBuilder []) builderType)) := by
    refine hasRoom_constant (fun p => ConstantPool.methodRef_of_room _)
      (fun _ => rfl) (fun _ => rfl) ?_
    rintro _ _ index ⟨n, rfl⟩
    exact ⟨_, Frame.step_construct index [] builderType (hL n) (hS n), rfl⟩
  exact hnew.bind (hdup.bind hconstruct)

/-- A call of a string builder takes a method. -/
theorem hasRoom_invoke {m : MethodRef} (hm : m.invokeKind false = .virtual)
    (hstatic : m.isStatic = false) {A : List FrameType}
    (hA : m.descriptor.parameters.length = A.length) {returns : FieldType}
    (hreturns : m.descriptor.returns = some returns) :
    HasRoom slots 6 (· = ⟨L, A ++ .object builderType :: S⟩)
      (· = ⟨L, returns.verification :: S⟩) (emit (Assembler.invoke m false)) := by
  unfold Assembler.invoke
  rw [hA, hreturns]
  refine hasRoom_constant (fun p => ConstantPool.methodRef_of_room m) (fun _ => ?_) (fun _ => ?_) ?_
  · rw [Assembler.callInstruction, hm]
    rfl
  · rw [Assembler.callInstruction, hm]
    rfl
  · rintro _ _ index rfl
    exact ⟨_, Frame.step_call_receiver hstatic false index A rfl _, rfl⟩

/-- An operand with a type can be appended. -/
theorem hasRoom_appendOperand {o : Operand} (htype : o.source.type.isSome = true)
    (h : PushesWithin slots room L (.object builderType :: S) o.value) :
    HasRoom slots (room + 6) (· = ⟨L, .object builderType :: S⟩)
      (· = ⟨L, .object builderType :: S⟩) (appendOperand o) := by
  obtain ⟨type, htype⟩ := Option.isSome_iff_exists.1 htype
  unfold appendOperand
  rw [typeOf_of_some htype]
  refine h.bind fun a f hc hf hroom => ?_
  obtain ⟨t, rfl⟩ := hf
  exact hasRoom_invoke (m := appendMethod type) (A := [t]) rfl rfl rfl rfl a _ hc rfl hroom

/-- **A string is built wherever there is room** -/
theorem hasRoom_joined {pieces : List Operand} (hL : ∀ n, .uninitialized n ∉ L)
    (hS : ∀ n, .uninitialized n ∉ S)
    (h : ∀ o ∈ pieces, o.source.type.isSome = true ∧
      PushesWithin slots room L (.object builderType :: S) o.value) :
    PushesWithin slots (8 + (pieces.length * (room + 6) + 6)) L S (joined pieces) := by
  have happend : HasRoom slots (pieces.length * (room + 6)) (· = ⟨L, .object builderType :: S⟩)
      (· = ⟨L, .object builderType :: S⟩) (pieces.forM appendOperand) := by
    induction pieces with
    | nil => exact hasRoom_skip _
    | cons o pieces ih =>
      obtain ⟨htype, ho⟩ := h o List.mem_cons_self
      have hpieces := ih fun p hp => h p (List.mem_cons_of_mem o hp)
      refine ((hasRoom_appendOperand htype ho).bind hpieces).mono (Nat.le_of_eq ?_) fun _ h => h
      rw [List.length_cons, Nat.succ_mul, Nat.add_comm]
  have hstring : HasRoom slots 6 (· = ⟨L, .object builderType :: S⟩)
      (fun f => ∃ t, f = ⟨L, t :: S⟩) builderString :=
    (hasRoom_invoke (A := []) rfl rfl rfl rfl).mono Nat.le.refl fun _ h => ⟨_, h⟩
  exact (hasRoom_newBuilder hL hS).bind (happend.bind hstring)

/-- **An addition of strings has code wherever there is room.** -/
theorem hasRoom_plus {box : Expr → Prop} {left right : Expr} (hl : left.Joins box) {site : Site}
    {xs : List Expr} (hxs : (left.plus right).summands = xs) (hL : ∀ n, .uninitialized n ∉ L)
    (hS : ∀ n, .uninitialized n ∉ S)
    (h : ∀ x ∈ xs, x.type.isSome = true ∧
      PushesWithin slots room L (.object builderType :: S) (x.fragment site).value)
    (hmore : 8 + (xs.length * (room + 6) + 6) ≤ more) :
    PushesWithin slots more L S ((left.plus right).fragment site).value := by
  have hpieces : ∀ o ∈ xs.map fun x => (x.fragment site).toOperand, o.source.type.isSome = true ∧
      PushesWithin slots room L (.object builderType :: S) o.value := by
    refine List.forall_mem_map.2 fun x hx => ?_
    obtain ⟨htype, hvalue⟩ := h x hx
    refine ⟨?_, hvalue⟩
    rw [Expr.source_fragment]
    exact htype
  have hjoined := hasRoom_joined hL hS hpieces
  rw [List.length_map] at hjoined
  rw [hl.value_plus site, hxs]
  exact hjoined.mono hmore fun _ h => h

/-- The slot of a local is looked up. -/
theorem hasRoom_lookup {found : UInt16 × FieldType} {f : UInt16 × FieldType → Lowering Unit}
    (hslot : slots.lookup? id = some found) (h : HasRoom slots room F G (f found)) :
    HasRoom slots room F G (lookup id >>= f) := by
  intro a g
  have hfound : lookup id slots a = .ok (found, slots) a := by rw [lookup, hslot]
  rw [Lowering.bind_of_ok hfound]
  exact h a g

theorem hasRoom_loadLocal {type : FieldType} {t : FrameType} (hL : L[slot.toNat]? = some t)
    (ht : Frame.hasKind t type.kind = true) :
    PushesWithin slots room L S (emit (Assembler.loadLocal slot type)) := by
  have heffect := (Frame.effect_load type.kind slot).1
  refine hasRoom_push (by rw [heffect]; rfl) (by rw [heffect]; rfl) ?_
  rintro _ n rfl
  exact ⟨_, Frame.step_load hL ht _, t, rfl⟩

theorem hasRoom_var {type : FieldType} {t : FrameType}
    (hslot : slots.lookup? id = some (slot, type)) (hL : L[slot.toNat]? = some t)
    (ht : Frame.hasKind t type.kind = true) (site : Site) :
    PushesWithin slots room L S ((Expr.var id (some type)).fragment site).value := by
  rw [Expr.fragment]
  exact hasRoom_lookup hslot (hasRoom_loadLocal hL ht)

theorem hasRoom_increment (hL : L[slot.toNat]? = some .integer) (amount : Int16) :
    HasRoom slots 0 (fun f => ∃ t, f = ⟨L, t :: S⟩) (fun f => ∃ t, f = ⟨L, t :: S⟩)
      (emit (Assembler.increment slot amount)) := by
  have hop := (Machine.operands_increment slot amount).1
  refine hasRoom_push (by rw [hop]; rfl) (by rw [hop]; rfl) ?_
  rintro _ n ⟨t, rfl⟩
  exact ⟨_, Frame.step_increment hL amount, t, rfl⟩

theorem hasRoom_incrementSlot (hslot : slots.lookup? id = some (slot, .int))
    (hL : L[slot.toNat]? = some .integer) (decrement : Bool) :
    PushesWithin slots room L S (incrementSlot id .int decrement false true) :=
  hasRoom_lookup hslot
    ((hasRoom_loadLocal hL rfl).bind ((hasRoom_increment hL _).bind (hasRoom_skip 0)))

end Lowering

/-! ### A string of several values -/

/-- The operand `i++`. -/
def counted : Expr := .increment (Sample.var 1 .int) false false (some .int)

/-- The chain `s + i++ + z`. -/
def tallyLeft : Expr := ((Sample.var 0 .string).plus counted).plus (Sample.var 2 .boolean)

/-- The addition `i++ + s`, which stands on the right. -/
def tallyRight : Expr := counted.plus (Sample.var 0 .string)

/-- A method in which the locals are parameters. -/
def tallySite : Site where
  settings := {}
  owner := Sample.counter Sample.counterName
  method :=
    { name := ⟨"tally", by decide⟩
      flags := Sample.publicStatic
      parameters := [⟨⟨0⟩, .string⟩, ⟨⟨1⟩, .int⟩, ⟨⟨2⟩, .boolean⟩]
      returns := some .string
      body := [.returnValue (some (tallyLeft.plus tallyRight))] }

/-- The string is `a`, and the truth value is true. -/
def tallied : Telling Int32
  | .var ⟨0⟩ _, i => some ("a", i)
  | .var ⟨2⟩ _, i => some ("true", i)
  | .increment .., i => some (toString i.toInt, i + 1)
  | _, _ => none

/-- The locals are in their slots, and the string is not hidden. -/
structure Tally (H : List Nat) (m : Contents Unit) (i : Int32) : Prop where
  string : m.cells (.slot 0) = some (.ref (some 5))
  text : m.textAt 5 = some "a"
  known : 5 ∉ H
  count : m.cells (.slot 1) = some (.int i)
  truth : m.cells (.slot 2) = some (.int 1)
  made : ∀ n ∈ H, n < m.free

/-- The program sees the counter, which is all that changes. -/
def tallyView : View Unit Int32 where
  shows := Tally
  made h := h.made
  build h text :=
    { h with
      text := Contents.textAt_build h.text text
      known := List.not_mem_cons_of_ne_of_not_mem
        (Nat.ne_of_lt (Contents.lt_free_of_textAt h.text)) h.known
      made := List.forall_mem_cons.2
        ⟨Nat.lt_succ_self _, fun n hn => Nat.lt_succ_of_lt (h.made n hn)⟩ }
  setText {_ m _ n} h hn text :=
    have hne : 5 ≠ n := fun heq => h.known (heq ▸ hn)
    { h with text := (Contents.textAt_setText_ne hne m text).trans h.text }
  reveal h :=
    { h with
      known := fun hmem => h.known (List.mem_cons_of_mem _ hmem)
      made := fun n hn => h.made n (List.mem_cons_of_mem _ hn) }

section Tally

open Lowering

variable {q : ConstantPool} {W : Whole} {slots : LocalSlots}

/-- A local is pushed if its slot holds a value with the right text. -/
theorem tallied_pushes_var {id : LocalId} {slot : UInt16} {t : FieldType} {d : Datum}
    {text : String} (hslot : slots.lookup? id = some (slot, t)) (hd : t.Admits d)
    (htext : ∀ i, tallied (.var id (some t)) i = some (text, i))
    (h : ∀ H m i, Tally H m i →
      m.cells (.slot slot.toNat) = some d ∧ adder.text? t d m = some (text, m)) :
    tallied.Pushes tallyView adder q W tallySite slots (.var id (some t)) := by
  refine Telling.pushes_of_follows fun _ H m i i' _ ht hi hm => ?_
  cases ht
  cases (htext i).symm.trans hi
  obtain ⟨hcell, hd'⟩ := h H m i hm
  refine ⟨d, m, m, fun S => ?_, hd', hm, fun _ _ _ h => h⟩
  rw [Expr.fragment]
  exact (Place.stands_slot hslot).load S m d hcell hd

/-- The counter is pushed before it is increased. -/
theorem tallied_pushes_counted (hq : W.assembler.pool.Grows q)
    (hslot : slots.lookup? ⟨1⟩ = some (1, .int)) :
    tallied.Pushes tallyView adder q W tallySite slots counted := by
  refine Telling.pushes_of_follows fun _ H m i i' _ ht hi hm => ?_
  cases ht
  cases hi
  have hread : m.read? .int (.slot 1) = some (.int i) := by
    rw [Contents.read?, hm.count, Option.filter_some, if_pos (decide_eq_true (.int i))]
  have hchange : Valuation.change (fun _ _ => none) adder slots counted m =
      some ⟨.slot 1, .int (i + 1), .int i, m⟩ := by
    have hlocate : Valuation.locate (fun _ _ => none) adder slots (Sample.var 1 .int) m =
        some (.slot 1, m) := by
      rw [Sample.var, Valuation.locate, hslot]
      rfl
    change (Valuation.locate _ _ _ _ m).bind _ = _
    rw [hlocate, Option.bind_some]
    dsimp only
    rw [hread]
    rfl
  have hupdates : counted.Updates (Valuation.Pushes (fun _ _ => none) (adder.processor q) W
      tallySite slots) slots := .increment (.var hslot) (.inl rfl) false false _
  refine ⟨.int i, m.set (.slot 1) (.int (i + 1)), m.set (.slot 1) (.int (i + 1)),
    hupdates.follows hq trivial hchange rfl true, rfl, ?_, fun _ _ _ h => h⟩
  exact { hm with
    string := (m.cells_set_ne (by decide) _).trans hm.string
    count := m.cells_set_self _ _
    truth := (m.cells_set_ne (by decide) _).trans hm.truth }

/-- Three parameters of a method are in the first slots. -/
theorem tallySite_slots : ∃ slots, tallySite.slots = .ok slots ∧
    slots.lookup? ⟨0⟩ = some (0, .string) ∧ slots.lookup? ⟨1⟩ = some (1, .int) ∧
    slots.lookup? ⟨2⟩ = some (2, .boolean) := by
  have hslots : tallySite.slots.toOption.any (fun slots =>
      decide (slots.lookup? ⟨0⟩ = some (0, .string)) &&
      decide (slots.lookup? ⟨1⟩ = some (1, .int)) &&
      decide (slots.lookup? ⟨2⟩ = some (2, .boolean))) = true := by
    decide +kernel
  obtain ⟨slots, hslots, htest⟩ := exists_of_toOption hslots
  simp only [Bool.and_eq_true, decide_eq_true_eq] at htest
  exact ⟨slots, hslots, htest.1.1, htest.1.2, htest.2⟩

/-- The code is made where nothing is on the stack. -/
theorem tally_hasRoom (hzero : slots.lookup? ⟨0⟩ = some (0, .string))
    (hone : slots.lookup? ⟨1⟩ = some (1, .int)) (htwo : slots.lookup? ⟨2⟩ = some (2, .boolean)) :
    PushesWithin slots 142 tallySite.entry.locals []
      ((tallyLeft.plus tallyRight).fragment tallySite).value := by
  have hplain (n : Nat) : .uninitialized n ∉ tallySite.entry.locals := by
    rw [show tallySite.entry.locals = [.object (.object .string), .integer, .integer] from rfl]
    simp
  have hstring (room : Nat) (S : Frame.Stack) : PushesWithin slots room tallySite.entry.locals S
      ((Sample.var 0 .string).fragment tallySite).value :=
    hasRoom_var hzero rfl rfl tallySite
  have htruth (room : Nat) (S : Frame.Stack) : PushesWithin slots room tallySite.entry.locals S
      ((Sample.var 2 .boolean).fragment tallySite).value :=
    hasRoom_var htwo rfl rfl tallySite
  have hcounted (room : Nat) (S : Frame.Stack) : PushesWithin slots room tallySite.entry.locals S
      (counted.fragment tallySite).value := by
    rw [counted, Sample.var, Expr.fragment, Expr.fragment]
    exact hasRoom_incrementSlot hone rfl false
  -- the right operand has a builder of its own, above the one of the chain
  have hright : PushesWithin slots 26 tallySite.entry.locals [.object builderType]
      (tallyRight.fragment tallySite).value := by
    have hjoins : counted.Joins fun _ => True := .operand trivial rfl
    have hroom : ∀ x ∈ [counted, Sample.var 0 .string], x.type.isSome = true ∧
        PushesWithin slots 0 tallySite.entry.locals [.object builderType, .object builderType]
          (x.fragment tallySite).value :=
      List.forall_mem_cons.2 ⟨⟨rfl, hcounted _ _⟩, List.forall_mem_singleton.2 ⟨rfl, hstring _ _⟩⟩
    refine hasRoom_plus hjoins rfl hplain (fun n h => ?_) hroom (by decide)
    cases List.mem_singleton.1 h
  have hjoins : tallyLeft.Joins fun _ => True :=
    .plus (.plus (.operand trivial rfl) (.operand trivial rfl)) (.operand trivial rfl)
  have hroom : ∀ x ∈ [Sample.var 0 .string, counted, Sample.var 2 .boolean, tallyRight],
      x.type.isSome = true ∧ PushesWithin slots 26 tallySite.entry.locals [.object builderType]
        (x.fragment tallySite).value := by
    simp only [List.forall_mem_cons]
    exact ⟨⟨rfl, hstring _ _⟩, ⟨rfl, hcounted _ _⟩, ⟨rfl, htruth _ _⟩, ⟨rfl, hright⟩,
      fun _ h => absurd h List.not_mem_nil⟩
  exact hasRoom_plus hjoins rfl hplain (fun _ => List.not_mem_nil) hroom (by decide)

end Tally

/-- A string, a counter and a truth value in the first slots. -/
def tallyContents : Contents Unit where
  cells
    | .slot 0 => some (.ref (some 5))
    | .slot 1 => some (.int 7)
    | .slot 2 => some (.int 1)
    | _ => none
  texts n := if n = 5 then some "a" else none
  free := 6
  beside := ()

/-- The counter is increased twice, and what it was stands in the text. -/
theorem tally_runs :
    ∃ (slots : LocalSlots) (W : Whole) (b : Assembler) (k : Nat) (m : Contents Unit),
      tallySite.slots = .ok slots ∧
      tallyLeft.Joins (tallied.Pushes tallyView adder W.assembler.pool W tallySite slots) ∧
      tallyRight.Joins (tallied.Pushes tallyView adder W.assembler.pool W tallySite slots) ∧
      tallied.nested (tallyLeft.plus tallyRight) 7 = some ("a7true8a", 9) ∧
      ((tallyLeft.plus tallyRight).fragment tallySite).value slots
        (.start .empty tallySite.entry) = .ok ((), slots) b ∧
      (adder.processor W.assembler.pool).Crosses W (.start .empty tallySite.entry) b
        ⟨[], tallyContents⟩ b.instructions.size ⟨[.ref (some k)], m⟩ ∧
      m.textAt k = some "a7true8a" ∧ m.cells (.slot 1) = some (.int 9) := by
  obtain ⟨slots, hslots, hzero, hone, htwo⟩ := tallySite_slots
  obtain ⟨b, _, hrun, -, -, -, hlabels⟩ := tally_hasRoom hzero hone htwo
    (.start .empty tallySite.entry) tallySite.entry rfl rfl (by decide)
  have hplaced : b.labels.all (fun state => !state.jumpedTo || state.placed.isSome) = true := by
    rw [hlabels]
    exact Array.all_eq_true_iff_forall_mem.2 fun _ h => absurd h (Array.not_mem_empty _)
  let W := Whole.ofPlaced b hplaced
  have hq : W.assembler.pool.Grows b.pool := .refl _
  have hstring : tallied.Pushes tallyView adder b.pool W tallySite slots (Sample.var 0 .string) :=
    tallied_pushes_var hzero (.ref _ _) (fun _ => rfl) fun H m i h =>
      ⟨h.string, congrArg (Option.map _) h.text⟩
  have htruth : tallied.Pushes tallyView adder b.pool W tallySite slots (Sample.var 2 .boolean) :=
    tallied_pushes_var htwo (d := .int 1) (by decide) (fun _ => rfl) fun H m i h => ⟨h.truth, rfl⟩
  have hcounted := tallied_pushes_counted (W := W) hq hone
  have hleft : tallyLeft.Joins (tallied.Pushes tallyView adder b.pool W tallySite slots) :=
    .plus (.plus (.operand hstring rfl) (.operand hcounted rfl)) (.operand htruth rfl)
  have hright : tallyRight.Joins (tallied.Pushes tallyView adder b.pool W tallySite slots) :=
    .plus (.operand hcounted rfl) (.operand hstring rfl)
  have htext : tallied.nested (tallyLeft.plus tallyRight) 7 = some ("a7true8a", 9) := by
    decide +kernel
  have hm : tallyView.shows [] tallyContents 7 := ⟨rfl, rfl, by decide, rfl, rfl, by simp⟩
  obtain ⟨-, k, m, hcrosses, hk, hshows, -⟩ := tallied.concatenation_runs tallyView adder b.pool W
    hq tallySite slots slots tallyLeft tallyRight hleft hright [] tallyContents 7 9 hm _ htext _ b
    rfl (.refl b) hrun []
  exact ⟨slots, W, b, k, m, hslots, hleft, hright, htext, hrun, hcrosses, hk, hshows.count⟩

end ClassForge
