/-
# Dead code adds nothing

Specification, section 10.6, *unreachable emission*.

Code may be made where control cannot be: behind a return, a jump or a loop that never
ends.  It is gone through like any other code, and yet nothing comes of it:

| part | where control cannot be |
| --- | --- |
| a common instruction | its constants are added, and it is dropped |
| a branch | is dropped, and its label does not learn of it |
| a new label | no edge leads to it |
| a label is placed | no edge leads to it, so control does not come back |
| a declaration, a block | slots are taken as anywhere |

Control would come back at a label to which some edge leads, and the labels of the live
code around may well be such.  But code in order places just its own labels, and those
were made where control cannot be.  The labels from a number `n` on are the new ones:
`DeadFrom n` says that no edge leads to them, and `SameBelow n` that all else is as it was.
One induction over code in order keeps both (`Lowering.Orderly.idles`).
-/

import ClassForge.Proofs.Allocation
import ClassForge.Sample

namespace ClassForge

namespace Assembler

/-- Control is not at the current point, and no edge leads to the labels from the number
`n` on. -/
structure DeadFrom (n : Nat) (a : Assembler) : Prop where
  current : a.current = none
  unreached : ∀ (l : Nat) (state : LabelState), n ≤ l → a.labels[l]? = some state →
    state.frame = none ∧ state.jumpedTo = false

/-- The one assembler is the other but for the labels from the number `n` on and for
constants and labels that were added. -/
structure SameBelow (n : Nat) (a b : Assembler) : Prop where
  instructions : b.instructions = a.instructions
  placedFrames : b.placedFrames = a.placedFrames
  entry : b.entry = a.entry
  maxStack : b.maxStack = a.maxStack
  maxLocals : b.maxLocals = a.maxLocals
  labels : ∀ l < n, b.labels[l]? = a.labels[l]?
  size : a.labels.size ≤ b.labels.size
  pool : a.pool.Grows b.pool

/-- Nothing came of the code that was made from the one assembler to the other: control
still cannot be there, no edge leads to the labels that were made, and all else is as it
was, except that constants were added. -/
structure Idles (a b : Assembler) : Prop where
  dead : b.DeadFrom a.labels.size
  same : a.SameBelow a.labels.size b

namespace SameBelow

variable {n : Nat} {a b c : Assembler}

theorem refl (n : Nat) (a : Assembler) : a.SameBelow n a :=
  ⟨rfl, rfl, rfl, rfl, rfl, fun _ _ => rfl, Nat.le.refl, .refl _⟩

/-- What is the same after the first part and after the second is the same after both. -/
theorem trans (hab : a.SameBelow n b) (hbc : b.SameBelow n c) : a.SameBelow n c where
  instructions := hbc.instructions.trans hab.instructions
  placedFrames := hbc.placedFrames.trans hab.placedFrames
  entry := hbc.entry.trans hab.entry
  maxStack := hbc.maxStack.trans hab.maxStack
  maxLocals := hbc.maxLocals.trans hab.maxLocals
  labels l hl := (hbc.labels l hl).trans (hab.labels l hl)
  size := Nat.le_trans hab.size hbc.size
  pool := hab.pool.trans hbc.pool

end SameBelow

namespace DeadFrom

variable {n : Nat} {a : Assembler}

theorem of_current (h : a.current = none) : a.DeadFrom a.labels.size where
  current := h
  unreached l state hl hstate := by
    rw [Array.getElem?_eq_none hl] at hstate
    cases hstate

theorem pool (h : a.DeadFrom n) (pool : ConstantPool) : { a with pool }.DeadFrom n :=
  ⟨h.current, h.unreached⟩

/-- No edge leads to a new label. -/
theorem label (h : a.DeadFrom n) (hn : n ≤ a.labels.size) (limit : Option Nat) :
    { a with labels := a.labels.push { limit } }.DeadFrom n ∧
      a.SameBelow n { a with labels := a.labels.push { limit } } := by
  refine ⟨⟨h.current, fun l state hle hstate => ?_⟩, ?_⟩
  · rw [Array.getElem?_push] at hstate
    split at hstate
    · cases hstate
      exact ⟨rfl, rfl⟩
    · exact h.unreached l state hle hstate
  · exact
      { SameBelow.refl n a with
        labels := fun l hlt => by
          rw [Array.getElem?_push, if_neg (Nat.ne_of_lt (Nat.lt_of_lt_of_le hlt hn))]
        size := by
          rw [Array.size_push]
          exact Nat.le_succ _ }

/-- Control does not come back at a label to which no edge leads. -/
theorem settle (h : a.DeadFrom n) {label : Label} {state : LabelState}
    (hl : a.labels[label.index]? = some state) (hn : n ≤ label.index) :
    (a.settle label state none).DeadFrom n ∧ a.SameBelow n (a.settle label state none) := by
  have hstate := h.unreached label.index state hn hl
  refine ⟨⟨rfl, fun l other hle hother => ?_⟩, ?_⟩
  · rw [Assembler.settle, Array.getElem?_setIfInBounds] at hother
    split at hother
    · split at hother
      · cases hother
        exact ⟨rfl, hstate.2⟩
      · cases hother
    · exact h.unreached l other hle hother
  · exact
      { SameBelow.refl n a with
        labels := fun l hlt => by
          rw [Assembler.settle, Array.getElem?_setIfInBounds,
            if_neg (Nat.ne_of_gt (Nat.lt_of_lt_of_le hlt hn))]
        size := Nat.le_of_eq Array.size_setIfInBounds.symm }

end DeadFrom
end Assembler

/-! ### Common instructions -/

/-- **Where control cannot be, a common instruction adds its constants and nothing
else.** -/
theorem Assembling.Straight.adds_constants {x : Assembling Unit} (h : x.Straight)
    {a b : Assembler} (hc : a.current = none) (hx : x a = .ok () b) :
    ∃ pool, b = { a with pool } ∧ a.pool.Grows pool := by
  induction h generalizing a with
  | push hi types =>
    cases Operation.run_push_iff.1 hx with
    | drop => exact ⟨_, rfl, .refl _⟩
    | push hlive =>
      rw [hc] at hlive
      cases hlive
  | constant hconstant _ ih =>
    obtain ⟨index, a₁, hintern, hx⟩ := bind_eq_ok hx
    have hgrows := (hconstant _ _ _ hintern).grows.pool
    obtain ⟨pool, -, rfl⟩ := Interning.toAssembling_eq_ok.1 hintern
    obtain ⟨pool', rfl, hgrows'⟩ := ih index (a := { a with pool }) hc hx
    exact ⟨pool', rfl, hgrows.trans hgrows'⟩
  | killLocals first =>
    cases hx
    cases a
    cases hc
    exact ⟨_, rfl, .refl _⟩
  | generalize type =>
    cases Operation.run_generalize_iff.1 hx with
    | drop => exact ⟨_, rfl, .refl _⟩
    | generalize hlive =>
      rw [hc] at hlive
      cases hlive

/-! ### Code in order -/

namespace Lowering

open Assembler (DeadFrom SameBelow)

variable {α : Type} {free : Bool} {K U V : List Label}

/-- **Nothing comes of code in order where control cannot be**, if the labels that it
finds pending are new. -/
theorem Orderly.idles {x : Lowering α} (h : Orderly free K U V x) {n : Nat}
    {slots slots' : LocalSlots} {a b : Assembler} {v : α} (ha : a.DeadFrom n)
    (hn : n ≤ a.labels.size) (hU : ∀ l ∈ U, n ≤ l.index) (hx : x slots a = .ok (v, slots') b) :
    b.DeadFrom n ∧ a.SameBelow n b ∧ ∀ l ∈ V, n ≤ l.index := by
  induction h generalizing slots slots' a b with
  | ask g =>
    cases hx
    exact ⟨ha, .refl n a, hU⟩
  | throw => cases hx
  | bindYields _ hP _ ihx ihf =>
    obtain ⟨w, slots₁, a₁, hw, hv⟩ := bind_eq_ok hx
    obtain ⟨ha₁, hsame, hV⟩ := ihx ha hn hU hw
    obtain ⟨hb, hsame', hW⟩ := ihf w (hP _ _ _ _ _ hw) ha₁ (Nat.le_trans hn hsame.size) hV hv
    exact ⟨hb, hsame.trans hsame', hW⟩
  | lookup id =>
    unfold Lowering.lookup at hx
    split at hx
    · cases hx
      exact ⟨ha, .refl n a, hU⟩
    · cases hx
  | emit hcommon =>
    obtain ⟨hv, -⟩ := emit_eq_ok hx
    obtain ⟨pool, rfl, hgrows⟩ := hcommon.straight.adds_constants ha.current hv
    exact ⟨ha.pool pool, { SameBelow.refl n a with pool := hgrows }, hU⟩
  | branch =>
    obtain ⟨hv, -⟩ := emit_eq_ok hx
    cases Operation.run_branch_iff.1 hv with
    | drop => exact ⟨ha, .refl n a, hU⟩
    | jumpBack hlive =>
      rw [ha.current] at hlive
      cases hlive
    | jumpAhead hlive =>
      rw [ha.current] at hlive
      cases hlive
  | place newer label =>
    obtain ⟨hv, -⟩ := emit_eq_ok hx
    have hnew : n ≤ label.index := hU label (by simp)
    cases Operation.run_place_iff.1 hv with
    | drop ho => cases ho
    | place hl _ hj =>
      -- neither the code above nor a branch leads to the label
      rw [ha.current, (ha.unreached label.index _ hnew hl).1] at hj
      cases hj
      obtain ⟨hdead, hsame⟩ := ha.settle hl hnew
      refine ⟨hdead, hsame, fun l hmem => hU l ?_⟩
      rw [List.mem_append] at hmem ⊢
      exact hmem.imp_right (List.mem_cons_of_mem label)
  | fresh limit _ ih =>
    obtain ⟨label, slots₁, a₁, hl, hv⟩ := bind_eq_ok hx
    obtain ⟨hlabel, -⟩ := emit_eq_ok hl
    cases hlabel
    obtain ⟨ha₁, hsame⟩ := ha.label hn limit
    obtain ⟨hb, hsame', hV⟩ := ih _ ha₁ (Nat.le_trans hn hsame.size)
      (List.forall_mem_cons.2 ⟨hn, hU⟩) hv
    exact ⟨hb, hsame.trans hsame', hV⟩
  | declare hfree id type =>
    unfold Lowering.declare at hx
    split at hx
    · cases hx
      exact ⟨ha, .refl n a, hU⟩
    · cases hx
  | modify hfree g =>
    cases hx
    exact ⟨ha, .refl n a, hU⟩

theorem Within.idles {labels : List Label} {x : Lowering α} (h : Within free labels x)
    {slots slots' : LocalSlots} {a b : Assembler} {v : α} (ha : a.current = none)
    (hx : x slots a = .ok (v, slots') b) : a.Idles b := by
  have hnone : ∀ l ∈ ([] : List Label), a.labels.size ≤ l.index := fun l hl =>
    absurd hl List.not_mem_nil
  obtain ⟨hdead, hsame, -⟩ := (h labels [] (List.Subset.refl labels)).idles (.of_current ha)
    Nat.le.refl hnone hx
  exact ⟨hdead, hsame⟩

end Lowering

/-- **Dead code adds nothing.**  If control cannot be where the code of a statement is made,
or that of an expression for its value or its effect, or that of a condition for its
branches, then it still cannot be there afterwards.  The instructions, the frames at
labels, the room that is taken and every label that existed before are as they were.  There
may be new labels, to which no edge leads, and new constants; a statement may have taken
slots, by declarations and whole blocks, and an expression takes none. -/
theorem dead_code_adds_nothing (site : Site) {a : Assembler} (ha : a.isReachable = false) :
    (∀ (loops : List Loop) (s : Stmt) (slots slots' : LocalSlots) (b : Assembler),
      s.lower site loops slots a = .ok ((), slots') b → a.Idles b ∧ slots.Allotted slots') ∧
    (∀ (e : Expr) (slots slots' : LocalSlots) (b : Assembler),
      (e.fragment site).value slots a = .ok ((), slots') b → a.Idles b ∧ slots' = slots) ∧
    (∀ (e : Expr) (slots slots' : LocalSlots) (b : Assembler),
      (e.fragment site).effect slots a = .ok ((), slots') b → a.Idles b ∧ slots' = slots) ∧
    ∀ (e : Expr) (outcome : Bool) (target : Label) (slots slots' : LocalSlots) (b : Assembler),
      (e.fragment site).jump outcome target slots a = .ok ((), slots') b →
        a.Idles b ∧ slots' = slots := by
  have hcurrent : a.current = none := Option.not_isSome_iff_eq_none.1 (Bool.eq_false_iff.1 ha)
  refine ⟨fun loops s slots slots' b h => ?_, fun e slots slots' b h => ?_,
    fun e slots slots' b h => ?_, fun e outcome target slots slots' b h => ?_⟩
  · exact ⟨(s.within site loops).idles hcurrent h,
      (s.allots site loops slots slots a _ slots' b (.refl slots) h).2⟩
  · have hwithin := (e.within false site).value
    exact ⟨hwithin.idles hcurrent h, (hwithin.emits _ _ _ _ _ h).2⟩
  · have hwithin := (e.within false site).effect
    exact ⟨hwithin.idles hcurrent h, (hwithin.emits _ _ _ _ _ h).2⟩
  · have hwithin := (e.within false site).jump outcome target
    exact ⟨hwithin.idles hcurrent h, (hwithin.emits _ _ _ _ _ h).2⟩

/-- A loop that declares a local and may be left for the loop around it. -/
def stranded : Stmt :=
  .whileLoop none (Sample.compare .lt (Sample.int 1) (Sample.int 2))
    (.block [.declare ⟨0⟩ .int (some (Sample.int 5)),
      .branch (Sample.compare .lt (Sample.var 0 .int) (Sample.int 3)) (.breakLoop (some "outer"))
        none])

/-- Nothing comes of the loop behind a jump out of the loop around it, although it jumps to
the same label. -/
theorem stranded_adds_nothing :
    ∃ a slots b, Operation.runAll [.label none, .branch .goto ⟨0⟩]
        (Assembler.start .empty .empty) = .ok () a ∧ a.isReachable = false ∧
      a.labels[0]?.map LabelState.jumpedTo = some true ∧
      stranded.lower ⟨{}, Sample.counter Sample.counterName, Sample.init⟩
        [⟨some "outer", ⟨0⟩, ⟨0⟩⟩] (.start 0) a = .ok ((), slots) b ∧
      a.Idles b ∧ (LocalSlots.start 0).Allotted slots ∧ b.labels.size = 4 ∧ slots.max = 1 := by
  have h : (outcome? (Operation.runAll [.label none, .branch .goto ⟨0⟩]
      (Assembler.start .empty .empty))).any (fun r => decide (r.2.isReachable = false ∧
        r.2.labels[0]?.map LabelState.jumpedTo = some true) &&
        (outcome? (stranded.lower ⟨{}, Sample.counter Sample.counterName, Sample.init⟩
          [⟨some "outer", ⟨0⟩, ⟨0⟩⟩] (.start 0) r.2)).any fun t =>
            decide (t.2.labels.size = 4 ∧ t.1.2.max = 1)) = true := by
    decide +kernel
  obtain ⟨_, a, hstart, h⟩ := exists_of_outcome h
  rw [Bool.and_eq_true, decide_eq_true_eq] at h
  obtain ⟨⟨hdead, hjumped⟩, h⟩ := h
  obtain ⟨⟨_, slots⟩, b, hlower, h⟩ := exists_of_outcome h
  obtain ⟨hsize, hmax⟩ := of_decide_eq_true h
  obtain ⟨hidles, hallotted⟩ := (dead_code_adds_nothing _ hdead).1 _ _ _ _ _ hlower
  exact ⟨a, slots, b, hstart, hdead, hjumped, hlower, hidles, hallotted, hsize, hmax⟩

end ClassForge
