/-
# Code without constants

The constants of a class are shared by its methods, so the code of a method may depend on
those that are there already, by their indices.  Code that asks for no constants does not:
if it is made in a class without constants and there are still none, then it is made in
any class, as the same code (`Site.body_of_isEmpty`).  The same holds of the frames of a
method when they are stored (`Frame.portable_store`).

| computation | what does not depend on the constants |
| --- | --- |
| that adds constants (`ConstantPool.Portable`) | the result |
| of the assembler (`Assembling.Portable`) | the result and the code |
| that makes code (`Lowering.Portable`) | the result, the code and the slots |

An operation does the same with any constants, unless it asks for one
(`Advances.withPool`), and one that asks for one has a constant afterwards.  The rest
follows the order in which code is put together (`Lowering.Orderly`).
-/

import ClassForge.Proofs.Storage

namespace ClassForge

namespace ConstantPool

variable {ε α β : Type} {p q : ConstantPool}
  {x : EStateM ε ConstantPool α} {f : α → EStateM ε ConstantPool β}

/-- No index is that of a constant. -/
def IsEmpty (p : ConstantPool) : Prop := ∀ index, p.get? index = none

/-- A pool is empty if it has no constants. -/
theorem isEmpty_of_size (h : p.size = 0) : p.IsEmpty := by
  intro index
  unfold get? constantAt?
  split
  · rfl
  · have hentries : p.entries.size = 0 := h
    rw [Array.size_eq_zero_iff.1 hentries]
    exact Array.getElem?_empty

/-- What an empty pool has grown from was empty. -/
theorem IsEmpty.of_grows (hq : q.IsEmpty) (h : p.Grows q) : p.IsEmpty := by
  intro index
  cases hget : p.get? index with
  | none => rfl
  | some c =>
    have hsome := h index c hget
    rw [hq index] at hsome
    cases hsome

/-- After the computation there are constants. -/
def Fills (x : EStateM ε ConstantPool α) : Prop :=
  ∀ (p : ConstantPool) (v : α) (q : ConstantPool), x p = .ok v q → ¬ q.IsEmpty

theorem fills_intern (c : Constant) : Fills (intern c) := by
  intro p index q h hempty
  have hget := (intern_eq_ok h).2
  rw [hempty index] at hget
  cases hget

theorem Fills.bind (hf : ∀ v, Fills (f v)) : Fills (x >>= f) := by
  intro p w r h
  obtain ⟨v, q, -, hw⟩ := bind_eq_ok h
  exact hf v q w r hw

/-- A class fills the pool. -/
theorem fills_className (name : String) : Fills (className name) :=
  .bind fun _ => fills_intern _

theorem fills_string (text : String) : Fills (string text) := .bind fun _ => fills_intern _

/-- A field fills the pool. -/
theorem fills_fieldRef (f : FieldRef) : Fills (fieldRef f) :=
  .bind fun _ => .bind fun _ => fills_intern _

/-- A method fills the pool. -/
theorem fills_methodRef (m : MethodRef) : Fills (methodRef m) :=
  .bind fun _ => .bind fun _ => fills_intern _

/-- If there are no constants after the computation, it yields the same with any. -/
def Portable (x : EStateM ε ConstantPool α) : Prop :=
  ∀ (p : ConstantPool) (v : α) (q : ConstantPool), x p = .ok v q → q.IsEmpty →
    ∀ r, x r = .ok v r

theorem portable_pure (v : α) : Portable (pure v : EStateM ε ConstantPool α) := by
  rintro p w q ⟨⟩ - r
  rfl

theorem Fills.portable (hx : Fills x) : Portable x :=
  fun p v q h hempty => absurd hempty (hx p v q h)

theorem Portable.bind {P : α → β → ConstantPool → Prop} (hx : Portable x) (hf : ∀ v, Portable (f v))
    (hgrows : ∀ v, Yields (f v) (P v)) : Portable (x >>= f) := by
  intro p w s h hempty r
  obtain ⟨v, q, hv, hw⟩ := bind_eq_ok h
  have hq : q.IsEmpty := hempty.of_grows (hgrows v q w s hw).1
  rw [bind_of_ok (hx p v q hv hq r)]
  exact hf v q w s hw hempty r

theorem portable_mapM {P : α → β → ConstantPool → Prop} {xs : List α} (h : ∀ x, Portable (f x))
    (hgrows : ∀ x, Yields (f x) (P x)) :
    Portable (xs.mapM f) := by
  induction xs with
  | nil =>
    rw [List.mapM_nil]
    exact portable_pure []
  | cons x xs ih =>
    rw [List.mapM_cons]
    have hrest (y : β) : Yields (do
        let ys ← xs.mapM f
        return y :: ys) fun _ _ => True :=
      (yields_mapM fun z _ => hgrows z).bind fun _ => yields_pure fun _ _ => trivial
    refine (h x).bind (fun y => ?_) hrest
    exact ih.bind (fun ys => portable_pure _) fun ys => yields_pure (P := fun _ _ => True)
      fun _ => trivial

end ConstantPool

open ConstantPool

/-! ### Frames -/

theorem VerificationType.portable_store (offsetOf : Nat → UInt16) (t : FrameType) :
    Portable (t.store offsetOf) := by
  cases t with
  | top | integer | float | null | uninitializedThis | uninitialized _ => exact portable_pure _
  | object type =>
    exact (fills_className type.className).portable.bind (fun _ => portable_pure _)
      fun _ => yields_pure (P := fun _ _ => True) fun _ => trivial

/-- **A frame that needs no constants is stored alike in every class.** -/
theorem Frame.portable_store (offsetOf : Nat → UInt16) (f : Frame) :
    Portable (f.store offsetOf) := by
  have hmap (ts : List FrameType) : Portable (ts.mapM (VerificationType.store offsetOf)) :=
    portable_mapM (fun t => t.portable_store offsetOf) fun t => t.yields_store offsetOf
  have hyields (ts : List FrameType) := yields_mapM fun t (_ : t ∈ ts) => t.yields_store offsetOf
  refine (hmap f.locals).bind (P := fun _ _ _ => True) (fun locals => ?_) fun locals => ?_
  · exact (hmap _).bind (P := fun _ _ _ => True) (fun _ => portable_pure _)
      fun _ => yields_pure fun _ => trivial
  · exact (hyields _).bind fun _ => yields_pure fun _ _ => trivial

theorem Body.portable_storeFrames (b : Body) (length : Nat) (frames : List (Nat × Frame)) :
    Portable (frames.mapM (b.storeFrame length)) := by
  refine portable_mapM (P := fun _ _ _ => True) (fun frame => ?_) fun frame => ?_
  · exact (frame.2.portable_store b.originOffset).bind (P := fun _ _ _ => True)
      (fun _ => portable_pure _) fun _ => yields_pure fun _ => trivial
  · exact (frame.2.yields_store b.originOffset).bind fun _ => yields_pure fun _ _ => trivial

/-! ### Operations -/

/-- **An operation does the same with any constants** -/
theorem Advances.withPool {o : Operation} {a b : Assembler} (h : Advances o a b)
    (ho : ∀ c, o ≠ .constant c) (p : ConstantPool) :
    Advances o { a with pool := p } { b with pool := p } := by
  cases h with
  | label limit => exact .label limit _
  | constant => exact absurd rfl (ho _)
  | drop ho hc => exact .drop ho hc
  | push hc hi hs => exact .push hc hi hs
  | jumpBack hc hs hl hp ht ha => exact .jumpBack hc hs hl hp ht ha
  | jumpAhead hc hs hl hp hj => exact .jumpAhead hc hs hl hp hj
  | place hl hp hj => exact .place hl hp hj
  | killLocals first => exact .killLocals first _
  | noteLocals count => exact .noteLocals count _
  | generalize hc hg => exact .generalize hc hg

namespace Assembling

variable {α : Type}

/-- If there are no constants after the computation, it makes the same code with any. -/
def Portable (x : Assembling α) : Prop :=
  ∀ (a : Assembler) (v : α) (b : Assembler), x a = .ok v b → b.pool.IsEmpty →
    ∀ p, x { a with pool := p } = .ok v { b with pool := p }

theorem portable_run {o : Operation} (ho : ∀ c, o ≠ .constant c) : Portable o.run := by
  intro a v b h _ p
  exact Operation.run_eq_ok.2 ((Operation.run_eq_ok.1 h).withPool ho p)

theorem portable_push (i : Instruction) (types : OperandTypes) :
    Portable (Assembler.push i types) :=
  portable_run (o := .push i types) fun _ h => by cases h

/-- An instruction that asks for a constant leaves one behind. -/
theorem portable_constant {x : Interning UInt16} (hx : Fills x) (i : UInt16 → Instruction)
    (types : OperandTypes) :
    Portable (do
      let index ← x.toAssembling
      Assembler.push (i index) types) := by
  intro a v b h hempty
  obtain ⟨index, c, hindex, hpush⟩ := bind_eq_ok h
  obtain ⟨pool, hpool, rfl⟩ := Interning.toAssembling_eq_ok.1 hindex
  have hgrows : pool.Grows b.pool :=
    (Assembler.Grows.of_advances (Operation.run_push_iff.1 hpush)).pool
  exact absurd (hempty.of_grows hgrows) (hx _ _ _ hpool)

/-- A common instruction, with the constant that it asks for or without one. -/
theorem Common.portable {x : Assembling Unit} (h : x.Common) : Portable x := by
  cases h with
  | simple | loadLocal | storeLocal | increment => exact portable_push _ _
  | killLocals first => exact portable_run (o := .killLocals first) fun _ h => by cases h
  | generalize type => exact portable_run (o := .generalize type) fun _ h => by cases h
  | pushInt value =>
    unfold Assembler.pushInt
    split
    · exact portable_push _ _
    · exact portable_constant (fills_intern _) _ _
  | pushFloat value =>
    unfold Assembler.pushFloat
    split
    · exact portable_push _ _
    · exact portable_constant (fills_intern _) _ _
  | pushString text => exact portable_constant (fills_string text) _ _
  | getField field => exact portable_constant (fills_fieldRef field) _ _
  | putField field => exact portable_constant (fills_fieldRef field) _ _
  | invoke method viaSuper => exact portable_constant (fills_methodRef method) _ _
  | construct method type => exact portable_constant (fills_methodRef method) _ _
  | newObject | checkCast | instanceOf => exact portable_constant (fills_className _) _ _
  | newArray type dimensions =>
    unfold Assembler.newArray
    split
    · exact portable_push _ _
    · exact portable_constant (fills_className _) _ _
    · exact portable_constant (fills_className _) _ _

end Assembling

namespace Assembler

/-- Where labels stand has nothing to do with constants. -/
theorem addFrom_withPool (a : Assembler) (p : ConstantPool) (number : Nat)
    (placement : Placement) (states : List LabelState) :
    placement.addFrom { a with pool := p } number states = placement.addFrom a number states := by
  induction states generalizing number placement with
  | nil => rfl
  | cons state states ih =>
    unfold Placement.addFrom
    have hadd : placement.add { a with pool := p } ⟨number⟩ state =
        placement.add a ⟨number⟩ state := rfl
    rw [hadd]
    split
    · exact ih _ _
    · rfl

theorem finish_withPool (a : Assembler) (p : ConstantPool) :
    finish { a with pool := p } = a.finish := by
  unfold finish
  rw [addFrom_withPool]

end Assembler

/-! ### Methods -/

namespace Lowering

variable {α β : Type}

/-- If there are no constants after the computation, it makes the same code with any. -/
def Portable (x : Lowering α) : Prop :=
  ∀ (slots : LocalSlots) (a : Assembler) (v : α) (slots' : LocalSlots) (b : Assembler),
    x slots a = .ok (v, slots') b → b.pool.IsEmpty →
      ∀ p, x slots { a with pool := p } = .ok (v, slots') { b with pool := p }

theorem portable_emit {x : Assembling α} (hx : x.Portable) : Portable (emit x) := by
  intro slots a v slots' b h hempty p
  obtain ⟨hv, rfl⟩ := emit_eq_ok h
  exact emit_of_ok (hx a v b hv hempty p)

/-- The second part keeps the constants of the first, so there are none in between. -/
theorem Portable.bind {x : Lowering α} {f : α → Lowering β} (hx : Portable x)
    (hf : ∀ slots a v slots' b, x slots a = .ok (v, slots') b → Portable (f v) ∧ Adds (f v)) :
    Portable (x >>= f) := by
  intro slots a w slots' c h hempty p
  obtain ⟨v, slots₁, b, hv, hw⟩ := bind_eq_ok h
  obtain ⟨hportable, hadds⟩ := hf slots a v slots₁ b hv
  have hb : b.pool.IsEmpty := hempty.of_grows (hadds _ _ _ _ _ hw).built.grows.pool
  rw [bind_of_ok (hx slots a v slots₁ b hv hb p)]
  exact hportable _ _ _ _ _ hw hempty p

/-- **Code in order is the same in every class, if it asks for no constants.** The induction
is on the order; the only step that looks at the constants is one that leaves some. -/
theorem Orderly.portable {free : Bool} {K U V : List Label} {x : Lowering α}
    (h : Orderly free K U V x) : Portable x := by
  induction h with
  | ask g =>
    rintro slots a v slots' b ⟨⟩ - p
    rfl
  | throw => rintro slots a v slots' b ⟨⟩
  | bindYields _ hP hf ihx ihf =>
    refine ihx.bind fun slots a v slots' b hv => ?_
    have hv := hP slots a v slots' b hv
    exact ⟨ihf v hv, fun _ _ _ _ _ hw => ((hf v hv).emitted hw).1⟩
  | lookup id =>
    intro slots a v slots' b hx _ p
    unfold Lowering.lookup at hx ⊢
    split at hx
    · cases hx
      rfl
    · cases hx
  | emit hcommon => exact portable_emit hcommon.portable
  | @branch _ _ op target =>
    exact portable_emit (Assembling.portable_run (o := .branch op target) fun _ h => by cases h)
  | place newer l =>
    exact portable_emit (Assembling.portable_run (o := .place l) fun _ h => by cases h)
  | @fresh _ _ _ _ _ limit hf ih =>
    refine Portable.bind (portable_emit ?_) fun slots a l slots' b _ => ?_
    · rintro a l b ⟨⟩ - p
      rfl
    · exact ⟨ih l, fun _ _ _ _ _ hw => ((hf l).emitted hw).1⟩
  | declare _ id type =>
    intro slots a v slots' b hx _ p
    unfold Lowering.declare at hx ⊢
    split at hx
    · cases hx
      rfl
    · cases hx
  | modify _ g =>
    rintro slots a v slots' b ⟨⟩ - p
    rfl

end Lowering

namespace Site

/-- **The code of every method is portable**: if it asked for no constants, it is the same
with any. -/
theorem portable_lower (site : Site) : site.lower.Portable := by
  rw [site.lower_eq_lowerCode]
  refine (site.within_lowerCode.orderly (K := []) (U := [])).portable.bind
    fun slots a v slots' b _ => ⟨?_, ?_⟩
  · rintro slots a v slots' b ⟨⟩ - p
    rfl
  · exact fun _ _ _ _ _ h => (emits_lowerSlots _ _ _ _ _ h).1

/-- **A method that asks for no constants has the same body in every class.** It is enough
to compile it once, with no constants at all, to know it. -/
theorem body_of_isEmpty {site : Site} {b : Body} {p q : ConstantPool}
    (h : site.body p = .ok b q) (hempty : q.IsEmpty) (r : ConstantPool) :
    site.body r = .ok b r := by
  unfold body at h ⊢
  split at h
  · cases h
  rename_i slots hslots
  split at h
  · cases h
  rename_i v a hlower
  split at h
  · cases h
  rename_i body hfinish
  cases h
  obtain ⟨⟨⟩, slots'⟩ := v
  have hrun : site.lower slots (Assembler.start r site.entry) =
      .ok ((), slots') { a with pool := r } :=
    site.portable_lower _ _ _ _ _ hlower hempty r
  rw [hrun]
  dsimp only
  rw [a.finish_withPool, hfinish]

/-- Is the method compiled in a class without constants, and are there none before the
names that it is stored with? -/
def isSelfContained (site : Site) : Bool :=
  (outcome? (site.body .empty)).any fun made => made.2.size = 0 &&
    (outcome? made.1.resolve).any fun laid =>
      laid.2.maxStack < 65536 && laid.2.maxLocals < 65536 &&
      (outcome? (laid.2.entry.store laid.2.originOffset .empty)).any fun entry =>
        entry.2.size = 0 &&
        (outcome? (laid.2.frames.toList.mapM (laid.2.storeFrame laid.1) .empty)).any fun frames =>
          frames.2.size = 0 && (StackMap.compress entry.1 frames.1).write.toOption.isSome

/-- **A method that is compiled without constants is compiled in any class** that has room
for the four texts that it is stored with. -/
theorem compile_of_isSelfContained {site : Site} (h : site.isSelfContained = true)
    (hcode : site.method.isAbstract = false) {p : ConstantPool} (hroom : p.size + 4 ≤ capacity) :
    ∃ info q, site.compile p = .ok info q ∧ q.size ≤ p.size + 4 := by
  obtain ⟨b, q₁, hbody, h⟩ := exists_of_outcome h
  rw [Bool.and_eq_true, decide_eq_true_eq] at h
  obtain ⟨length, c, hresolve, hc⟩ := exists_of_outcome h.2
  rw [Bool.and_eq_true, Bool.and_eq_true, decide_eq_true_eq, decide_eq_true_eq] at hc
  obtain ⟨entry, q₂, hentry, he⟩ := exists_of_outcome hc.2
  rw [Bool.and_eq_true, decide_eq_true_eq] at he
  obtain ⟨frames, q₃, hframes, hf⟩ := exists_of_outcome he.2
  rw [Bool.and_eq_true, decide_eq_true_eq] at hf
  obtain ⟨bytes, hwrite, -⟩ := exists_of_toOption (p := fun _ => true)
    ((Option.any_eq_true _ _).2 ((Option.isSome_iff_exists.1 hf.2).imp fun _ h => ⟨h, rfl⟩))
  -- each part asks for no constants, so it is the same with those of the class
  have hbody := body_of_isEmpty hbody (isEmpty_of_size h.1) p
  have hentry := c.entry.portable_store c.originOffset _ _ _ hentry (isEmpty_of_size he.1) p
  have hframes :=
    c.portable_storeFrames length c.frames.toList _ _ _ hframes (isEmpty_of_size hf.1) p
  obtain ⟨code, q, hstore, hq⟩ :=
    Body.store_of_ok hresolve hc.1.1 hc.1.2 hentry hframes hwrite (by omega)
  obtain ⟨info, r, hcompile, hr⟩ := compile_of_ok hcode hbody hstore (by omega)
  exact ⟨info, r, hcompile, by omega⟩

end Site
end ClassForge
