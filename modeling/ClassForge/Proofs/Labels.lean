/-
# Labels are taken care of

Whatever a program is, and even if it has no types that make sense, the code of its
methods does not fail because of a label, or because control could run off its end
(`Site.compile_in_order`):

| what could go wrong | why it does not |
| --- | --- |
| a branch goes to a label that there is not | a label is known only once it is made |
| a label is placed twice or never | it is pending until it is placed (`Assembler.Ledger`) |
| a branch goes back to dead code | there is a frame, or no control yet (`Assembler.Settled`) |
| a label stands behind the last instruction | control goes on from it (`Assembler.Lands`) |
| control runs off the end | the end of a method is a return, if control can be there |

Since all code is in order (`Site.within_lowerCode`), the first three are an induction
(`Lowering.Orderly.keeps`).
-/

import ClassForge.Proofs.Finishing
import ClassForge.Proofs.Orderly
import ClassForge.Proofs.Revival
import ClassForge.Sample
import Mathlib.Data.List.Nodup

namespace ClassForge

/-- Was a label or the end of the code not taken care of? -/
def Fault.isDisorder : Fault → Bool
  | .unplacedLabel _ | .duplicateLabel _ | .labelAtEnd _ | .unreachableLabel _
  | .notFinished => true
  | _ => false

/-- Was a label or the end of the code not taken care of? -/
def CompileError.isDisorder : CompileError → Bool
  | .fault cause => cause.isDisorder
  | _ => false

theorem Fault.isDisorder_of_isTooLarge {e : Fault} (h : e.isTooLarge = true) :
    e.isDisorder = false := by
  cases e <;> first | rfl | cases h

/-- An error of the source is no matter of labels. -/
theorem CompileError.isDisorder_of_isFault {e : CompileError} (h : e.isFault = false) :
    e.isDisorder = false := by
  cases e with
  | fault => cases h
  | _ => rfl

/-! ### Labels that are placed -/

namespace Assembler

variable {a b : Assembler}

/-- Where a label stands there is a frame, or nothing comes behind it yet and control
cannot be there. -/
def Settled (a : Assembler) : Prop :=
  ∀ l index, a.position l = some index →
    (a.placedFrames[index]?).isSome = true ∨ a.current = none ∧ a.instructions.size = index

theorem settled_start (pool : ConstantPool) (entry : Frame) : (start pool entry).Settled := by
  intro l index h
  simp [position, start] at h

/-- **Every operation leaves the labels settled.** Control comes back to a label only with a
frame, and once an instruction stands behind a label, there is a frame at it. -/
theorem Settled.advances {o : Operation} (h : a.Settled) (hstep : Advances o a b) : b.Settled := by
  intro l index hindex
  have hmoves := Moves.of_advances hstep
  cases hold : a.position l with
  | some n =>
    rw [hmoves.labels l n hold] at hindex
    cases hindex
    rcases h l index hold with hframe | ⟨hc, rfl⟩
    · exact .inl (hmoves.frames index hframe)
    · rcases hmoves.revived hc with ⟨hc', hsize⟩ | ⟨-, -, -, hframe⟩
      · exact .inr ⟨hc', hsize⟩
      · exact .inl hframe
  | none =>
    -- the label is the one that is placed now
    have hplaced := (isSome_position_advances hstep l).1 (by rw [hindex]; rfl)
    rw [hold] at hplaced
    obtain rfl : o = .place l := hplaced.resolve_left nofun
    cases hstep with
    | drop ho => cases ho
    | place hl hp hj =>
      rename_i state frame
      rw [position_settle hl] at hindex
      cases hindex
      cases frame with
      | none => exact .inr ⟨rfl, rfl⟩
      | some f => exact .inl (by simp [settle])

theorem Settled.built (h : a.Settled) (hab : Built a b) : b.Settled :=
  hab.induct h fun _ _ _ _ hstep hsettled => hsettled.advances hstep

/-- **A branch to a label that exists fails only because of frames.** A label that is placed
already has a frame where control can be, so there is nothing else to complain of. -/
theorem Settled.isDisorder_branch (h : a.Settled) {op : Opcode} {target : Label} {e : Fault}
    (ht : target.index < a.labels.size) (hfail : branch op target a = .error e b) :
    e.isDisorder = false := by
  unfold branch at hfail
  split at hfail
  · cases hfail
  rename_i f hc
  dsimp only at hfail
  split at hfail
  · cases hfail
    rfl
  split at hfail
  · rename_i hnone
    rw [Array.getElem?_eq_getElem ht] at hnone
    cases hnone
  rename_i state hl
  split at hfail
  · rename_i index hp
    have hposition : a.position target = some index := Option.bind_eq_some_iff.2 ⟨state, hl, hp⟩
    rcases h target index hposition with hframe | ⟨hnone, -⟩
    · obtain ⟨there, hthere⟩ := Option.isSome_iff_exists.1 hframe
      rw [hthere] at hfail
      dsimp only at hfail
      split at hfail
      · cases hfail
      · cases hfail
        rfl
    · rw [hc] at hnone
      cases hnone
  · split at hfail
    · cases hfail
    · split at hfail
      · cases hfail
      · cases hfail
        rfl

/-- **A label that is not placed can be placed**, if the frames agree. It is then neither
unknown nor a duplicate, which are the complaints about disorder that placing knows. -/
theorem isDisorder_place {l : Label} {e : Fault} (hl : l.index < a.labels.size)
    (hnone : a.position l = none) (hfail : place l a = .error e b) : e.isDisorder = false := by
  unfold place at hfail
  split at hfail
  · rename_i hmissing
    rw [Array.getElem?_eq_getElem hl] at hmissing
    cases hmissing
  rename_i state hstate
  unfold position at hnone
  rw [hstate, Option.bind_some] at hnone
  rw [hnone] at hfail
  split at hfail
  · rename_i hplaced
    cases hplaced
  split at hfail
  · split at hfail
    · cases hfail
    · cases hfail
      rfl
  · cases hfail
  · cases hfail

/-! ### Labels that are pending -/

/-- The known labels `K` exist, and those that have yet to be placed are the pending
ones `U`. -/
structure Ledger (a : Assembler) (K U : List Label) : Prop where
  known : ∀ l ∈ K, l.index < a.labels.size
  pending : ∀ l : Label, l ∈ U ↔ l.index < a.labels.size ∧ a.position l = none
  nodup : U.Nodup

theorem ledger_start (pool : ConstantPool) (entry : Frame) : (start pool entry).Ledger [] [] where
  known := nofun
  pending l := by simp [start]
  nodup := .nil

namespace Ledger

variable {K U : List Label}

/-- The labels stay where they are. -/
theorem congr (h : a.Ledger K U) (hsize : b.labels.size = a.labels.size)
    (hposition : ∀ l, b.position l = a.position l) : b.Ledger K U where
  known l hl := hsize ▸ h.known l hl
  pending l := by rw [hsize, hposition, h.pending]
  nodup := h.nodup

theorem of_labels_eq (h : a.Ledger K U) (hlabels : b.labels = a.labels) : b.Ledger K U := by
  refine h.congr (by rw [hlabels]) fun l => ?_
  unfold position
  rw [hlabels]

/-- A new label. -/
theorem label (h : a.Ledger K U) (limit : Option Nat) :
    { a with labels := a.labels.push { limit } }.Ledger
      (⟨a.labels.size⟩ :: K) (⟨a.labels.size⟩ :: U) := by
  have hposition (l : Label) :
      { a with labels := a.labels.push { limit } }.position l = a.position l := by
    unfold position
    rw [Array.getElem?_push]
    split
    · rename_i heq
      rw [heq]
      simp
    · rfl
  have hsize : (a.labels.push ({ limit } : LabelState)).size = a.labels.size + 1 :=
    Array.size_push ..
  refine ⟨fun l hl => ?_, fun l => ?_, List.nodup_cons.2 ⟨fun hmem => ?_, h.nodup⟩⟩
  · rw [hsize]
    rcases List.mem_cons.1 hl with rfl | hl
    · exact Nat.lt_succ_self _
    · exact Nat.lt_succ_of_lt (h.known l hl)
  · rw [hposition, List.mem_cons, h.pending, hsize]
    constructor
    · rintro (rfl | ⟨hlt, hnone⟩)
      · refine ⟨Nat.lt_succ_self _, ?_⟩
        simp [position]
      · exact ⟨Nat.lt_succ_of_lt hlt, hnone⟩
    · rintro ⟨hlt, hnone⟩
      rcases Nat.lt_succ_iff_lt_or_eq.1 hlt with hlt | heq
      · exact .inr ⟨hlt, hnone⟩
      · exact .inl (by cases l; exact congrArg _ heq)
  · exact Nat.lt_irrefl _ ((h.pending _).1 hmem).1

/-- A label that is forgotten. -/
theorem tail {l : Label} (h : a.Ledger (l :: K) U) : a.Ledger K U :=
  ⟨fun m hm => h.known m (List.mem_cons_of_mem l hm), h.pending, h.nodup⟩

/-- A label that is placed is no longer pending. -/
theorem settle {l : Label} {newer : List Label} (h : a.Ledger K (newer ++ l :: U))
    {state : LabelState} (hl : a.labels[l.index]? = some state) (frame : Option Frame) :
    (a.settle l state frame).Ledger K (newer ++ U) := by
  have hsize : (a.settle l state frame).labels.size = a.labels.size := Array.size_setIfInBounds ..
  have hnodup := List.nodup_cons.1 (List.nodup_middle.1 h.nodup)
  refine ⟨fun m hm => hsize ▸ h.known m hm, fun m => ?_, hnodup.2⟩
  rw [hsize]
  by_cases heq : l = m
  · subst heq
    refine iff_of_false hnodup.1 fun hm => ?_
    rw [position_settle hl] at hm
    cases hm.2
  · rw [position_settle_of_ne heq, ← h.pending m]
    simp [Ne.symm heq]

end Ledger
end Assembler

/-! ### Code without labels -/

namespace Assembling

/-- Adding constants fails only for the size of the pool. -/
theorem failsOnly_toAssembling {α : Type} (x : Interning α) :
    FailsOnly (·.isDisorder = false) x.toAssembling := by
  intro a e b h
  unfold Interning.toAssembling at h
  dsimp only at h
  split at h
  · cases h
  · cases h
    rfl

variable {x : Assembling Unit}

/-- Straight code neither makes nor places a label. -/
theorem Straight.labels_eq (h : x.Straight) {a b : Assembler} (hx : x a = .ok () b) :
    b.labels = a.labels := by
  induction h generalizing a with
  | push hi types =>
    cases Operation.run_push_iff.1 hx with
    | drop => rfl
    | push => rfl
  | constant _ _ ih =>
    obtain ⟨index, c, hintern, hx⟩ := bind_eq_ok hx
    obtain ⟨pool, -, rfl⟩ := Interning.toAssembling_eq_ok.1 hintern
    have hlabels := ih index hx
    exact hlabels
  | killLocals first =>
    cases hx
    rfl
  | generalize type =>
    cases Operation.run_generalize_iff.1 hx with
    | drop => rfl
    | generalize => rfl

/-- Straight code never fails because of a label: it fails in a frame, or because the pool
is full. -/
theorem Straight.failsOnly (h : x.Straight) : FailsOnly (·.isDisorder = false) x := by
  induction h with
  | push hi types =>
    intro a e b hfail
    unfold Assembler.push at hfail
    split at hfail
    · cases hfail
    dsimp only at hfail
    split at hfail
    · cases hfail
      rfl
    · split at hfail
      · cases hfail
        rfl
      · cases hfail
  | constant _ _ ih => exact (failsOnly_toAssembling _).bind ih
  | killLocals first => exact fun a e b hfail => nomatch hfail
  | generalize type =>
    intro a e b hfail
    unfold Assembler.generalize at hfail
    split at hfail
    · cases hfail
    · split at hfail
      · cases hfail
      · cases hfail
        rfl

end Assembling

/-! ### Code in order -/

namespace Lowering

variable {α : Type} {free : Bool} {K U V : List Label}

theorem emit_of_error {x : Assembling α} {slots : LocalSlots} {a b : Assembler} {e : Fault}
    (h : x a = .error e b) : emit x slots a = .error (.fault e) b := by
  unfold emit
  rw [h]

/-- **Code in order takes care of its labels**: it leaves those pending that it should, or
it fails for another reason. -/
theorem Orderly.keeps {x : Lowering α} (h : Orderly free K U V x) (slots : LocalSlots)
    {a : Assembler} (hsettled : a.Settled) (hledger : a.Ledger K U) :
    (∃ v slots' b, x slots a = .ok (v, slots') b ∧ b.Ledger K V) ∨
      ∃ e b, x slots a = .error e b ∧ e.isDisorder = false := by
  induction h generalizing slots a with
  | ask g => exact .inl ⟨_, slots, a, rfl, hledger⟩
  | throw he => exact .inr ⟨_, a, rfl, CompileError.isDisorder_of_isFault he⟩
  | bindYields hx hP _ ihx ihf =>
    rcases ihx slots hsettled hledger with ⟨v, slots₁, a₁, hv, hledger₁⟩ | ⟨e, b, hfail, he⟩
    · rw [Lowering.bind_of_ok hv]
      have hsettled₁ := hsettled.built (hx.emitted hv).1.built
      exact ihf v (hP _ _ _ _ _ hv) slots₁ hsettled₁ hledger₁
    · exact .inr ⟨e, b, Lowering.bind_of_error hfail, he⟩
  | lookup id =>
    unfold Lowering.lookup
    split
    · exact .inl ⟨_, slots, a, rfl, hledger⟩
    · exact .inr ⟨_, a, rfl, rfl⟩
  | @emit _ _ x hcommon =>
    cases hx : x a with
    | ok v b =>
      exact .inl ⟨v, slots, b, emit_of_ok hx, hledger.of_labels_eq (hcommon.straight.labels_eq hx)⟩
    | error e b => exact .inr ⟨_, b, emit_of_error hx, hcommon.straight.failsOnly a e b hx⟩
  | @branch _ _ op target hop ht =>
    cases hx : Assembler.branch op target a with
    | ok v b =>
      refine .inl ⟨v, slots, b, emit_of_ok hx, ?_⟩
      cases Operation.run_branch_iff.1 hx with
      | drop => exact hledger
      | jumpBack hc hs hl =>
        exact hledger.congr Array.size_setIfInBounds (Assembler.position_setLabel hl rfl (by rfl))
      | jumpAhead hc hs hl =>
        exact hledger.congr Array.size_setIfInBounds (Assembler.position_setLabel hl rfl (by rfl))
    | error e b =>
      exact .inr ⟨_, b, emit_of_error hx, hsettled.isDisorder_branch (hledger.known target ht) hx⟩
  | place newer l =>
    obtain ⟨hlt, hnone⟩ := (hledger.pending l).1 (by simp)
    cases hx : Assembler.place l a with
    | ok v b =>
      refine .inl ⟨v, slots, b, emit_of_ok hx, ?_⟩
      cases Operation.run_place_iff.1 hx with
      | drop ho => cases ho
      | place hl => exact hledger.settle hl _
    | error e b => exact .inr ⟨_, b, emit_of_error hx, Assembler.isDisorder_place hlt hnone hx⟩
  | @fresh _ _ _ _ f limit _ ih =>
    have hnew : Lowering.emit (Assembler.newLabel { limit }) slots a =
        .ok (⟨a.labels.size⟩, slots) { a with labels := a.labels.push { limit } } := rfl
    rw [Lowering.bind_of_ok hnew]
    rcases ih _ slots (hsettled.advances (.label limit a)) (hledger.label limit) with
      ⟨v, slots', b, hv, hledger'⟩ | hfail
    · exact .inl ⟨v, slots', b, hv, hledger'.tail⟩
    · exact .inr hfail
  | declare hfree id type =>
    unfold Lowering.declare
    split
    · exact .inl ⟨_, _, a, rfl, hledger⟩
    · rename_i e slots' hfail
      refine .inr ⟨_, a, rfl, ?_⟩
      unfold LocalSlots.declare at hfail
      split at hfail
      · cases hfail
        rfl
      · cases hfail
  | modify hfree g => exact .inl ⟨_, _, a, rfl, hledger⟩

end Lowering

/-! ### Methods -/

namespace Site

open Lowering

variable {site : Site}

/-- Control does not go on behind a return. -/
theorem current_of_exit {a b : Assembler} (h : Assembler.exit none a = .ok () b) :
    b.current = none := by
  have hstep : Advances (.push (.simple .returnVoid) .none) a b := Operation.run_push_iff.1 h
  cases hstep with
  | drop _ hc => exact hc
  | push => rfl

/-- At the end of a method control is nowhere. -/
theorem current_of_lower {slots : LocalSlots} {a b : Assembler} {r : Unit × LocalSlots}
    (h : site.lower slots a = .ok r b) : b.current = none := by
  obtain ⟨-, slots₁, a₁, -, h⟩ := Lowering.bind_eq_ok h
  obtain ⟨-, slots₂, a₂, -, h⟩ := Lowering.bind_eq_ok h
  obtain ⟨v, slots₃, a₃, hend, h⟩ := Lowering.bind_eq_ok h
  have hcurrent : a₃.current = none := by
    have hreach : isReachable slots₂ a₂ = .ok (a₂.isReachable, slots₂) a₂ := rfl
    unfold lowerEnd at hend
    rw [Lowering.bind_of_ok hreach] at hend
    cases hreachable : a₂.isReachable with
    | false =>
      rw [hreachable] at hend
      cases hend
      exact Option.not_isSome_iff_eq_none.1 (Bool.eq_false_iff.1 hreachable)
    | true =>
      rw [hreachable] at hend
      cases hreturns : site.method.returns with
      | none =>
        rw [hreturns] at hend
        exact current_of_exit (emit_eq_ok hend).1
      | some type =>
        rw [hreturns] at hend
        cases hend
  cases h
  exact hcurrent

/-- **The code of every method takes care of its labels** -/
theorem lower_keeps (site : Site) (slots : LocalSlots) (pool : ConstantPool) :
    (∃ v slots' a, site.lower slots (Assembler.start pool site.entry) = .ok (v, slots') a ∧
      a.Ledger [] []) ∨
    ∃ e a, site.lower slots (Assembler.start pool site.entry) = .error e a ∧
      e.isDisorder = false := by
  have hcode := (site.within_lowerCode [] [] (List.Subset.refl [])).keeps slots
    (Assembler.settled_start pool site.entry) (Assembler.ledger_start pool site.entry)
  rw [site.lower_eq_lowerCode]
  rcases hcode with ⟨v, slots', a, hok, hledger⟩ | ⟨e, a, hfail, he⟩
  · rw [Lowering.bind_of_ok hok]
    exact .inl ⟨(), slots', _, rfl, hledger.of_labels_eq rfl⟩
  · exact .inr ⟨e, a, Lowering.bind_of_error hfail, he⟩

/-- **Code that is made is finished.** -/
theorem finish_of_lower {slots slots' : LocalSlots} {pool : ConstantPool} {a : Assembler}
    (h : site.lower slots (Assembler.start pool site.entry) = .ok ((), slots') a) :
    ∃ b, a.finish = .ok b := by
  have hbuilt := (site.adds_lower slots _ _ _ _ h).built
  rcases site.lower_keeps slots pool with ⟨v, slots₁, b, hok, hledger⟩ | ⟨e, b, hfail, -⟩
  · rw [h] at hok
    cases hok
    refine (Assembler.lands_of_built hbuilt).finish_of_placed (current_of_lower h)
      fun n state hn hnone => ?_
    -- a label that is not placed would be pending
    have hposition : a.position ⟨n⟩ = none := by
      unfold Assembler.position
      rw [hn, Option.bind_some, hnone]
    have hmem := (hledger.pending ⟨n⟩).2 ⟨(Array.getElem?_eq_some_iff.1 hn).1, hposition⟩
    cases hmem
  · rw [h] at hfail
    cases hfail

/-- The slots of parameters are taken, unless there are too many. -/
theorem failsOnly_declareParameters (ps : List Parameter) :
    FailsOnly (·.isTooLarge = true) (declareParameters ps) := by
  induction ps with
  | nil => exact .pure ()
  | cons p ps ih =>
    refine .bind (fun s e t h => ?_) fun _ => ih
    unfold LocalSlots.declare at h
    split at h
    · cases h
      rfl
    · cases h

theorem isTooLarge_of_slots {e : Fault} (h : site.slots = .error e) : e.isTooLarge = true := by
  unfold slots at h
  split at h
  · cases h
  · rename_i hdeclare
    cases h
    exact failsOnly_declareParameters _ _ _ _ hdeclare

/-- **No method fails because of its labels or its end.** Statements place what they make,
and the end of the code is taken care of. -/
theorem failsOnly_body (site : Site) : FailsOnly (·.isDisorder = false) site.body := by
  intro pool e q h
  unfold body at h
  split at h
  · rename_i hslots
    cases h
    exact Fault.isDisorder_of_isTooLarge (isTooLarge_of_slots hslots)
  rename_i slots hslots
  split at h
  · rename_i e' a hfail
    cases h
    rcases site.lower_keeps slots pool with ⟨v, slots', b, hok, -⟩ | ⟨e', b, hfail', he⟩
    · rw [hfail] at hok
      cases hok
    · rw [hfail] at hfail'
      cases hfail'
      exact he
  · rename_i r a hlower
    obtain ⟨b, hb⟩ := finish_of_lower hlower
    rw [hb] at h
    cases h

theorem closed_of_body {pool q : ConstantPool} {b : Body} (h : site.body pool = .ok b q) :
    b.Closed := by
  obtain ⟨-, hyields⟩ := site.yields_body pool b q h
  obtain ⟨a, hassembles, -⟩ := hyields q (.refl q)
  obtain ⟨p, hbuilt⟩ := hassembles.built
  obtain ⟨-, -, -, -, -, hfinish⟩ := hassembles
  exact Body.closed_of_finish hbuilt hfinish

theorem failsOnly_constant {α : Type} (x : Interning α) :
    FailsOnly (·.isDisorder = false) x.toCompiling :=
  (FailsOnly.any x).adaptExcept fun _ _ => rfl

theorem failsOnly_attributes (site : Site) : FailsOnly (·.isDisorder = false) site.attributes := by
  unfold attributes
  split
  · exact .pure _
  · refine site.failsOnly_body.bindOk fun pool b q hb => ?_
    have hstore : FailsOnly (·.isDisorder = false) (b.store.adaptExcept CompileError.fault) :=
      (closed_of_body hb).failsOnly_store.adaptExcept fun _ => Fault.isDisorder_of_isTooLarge
    exact hstore.bind fun _ => (failsOnly_constant _).bind fun _ => .pure _

/-- **Labels are taken care of in every method**, whatever its statements are: it is
never because of a label, or because control could run off the end of its code, that it
is not compiled; and code that is made for it is finished. -/
theorem compile_in_order (site : Site) :
    (∀ pool e q, site.compile pool = .error e q → e.isDisorder = false) ∧
    ∀ pool slots slots' a,
      site.lower slots (Assembler.start pool site.entry) = .ok ((), slots') a →
        ∃ b, a.finish = .ok b := by
  refine ⟨fun pool e q h => ?_, fun pool slots slots' a h => finish_of_lower h⟩
  have hcompile : FailsOnly (·.isDisorder = false) site.compile :=
    site.failsOnly_attributes.bind fun _ => (failsOnly_constant _).bind fun _ =>
      (failsOnly_constant _).bind fun _ => .pure _
  exact hcompile pool e q h

end Site

/-- Goes on with the outer of two loops from the inner one, with a loop in the dead code
behind that; then come other statements. -/
def maze (rest : List Stmt) : MethodDecl where
  name := ⟨"maze", by decide⟩
  flags := Sample.publicStatic
  parameters := [⟨⟨0⟩, .int⟩]
  returns := none
  body :=
    .whileLoop (some "outer") (Sample.compare .gt (Sample.var 0 .int) (Sample.int 0))
      (.doWhileLoop none
        (.block
          [.branch (Sample.compare .eq (Sample.var 0 .int) (Sample.int 1))
            (.breakLoop (some "outer")) (some (.continueLoop (some "outer"))),
           .whileLoop none (.boolean true (some .boolean)) (.breakLoop none)])
        (.boolean true (some .boolean))) :: rest

/-- The method in the sample class. -/
def mazeSite (rest : List Stmt) : Site :=
  ⟨{}, Sample.counter Sample.counterName, maze rest⟩

/-- The code of the loops is finished, and a jump behind them is refused for what it
is. -/
theorem mazeSite_in_order :
    (∃ slots slots' a b, (mazeSite []).slots = .ok slots ∧
      (mazeSite []).lower slots (Assembler.start .empty (mazeSite []).entry) = .ok ((), slots') a ∧
        a.finish = .ok b) ∧
    ∃ e q, (mazeSite [.breakLoop none]).compile .empty = .error e q ∧
      e = .misplacedJump none ∧ e.isDisorder = false := by
  have hlower : (mazeSite []).slots.toOption.any (fun slots =>
      (outcome? ((mazeSite []).lower slots (Assembler.start .empty (mazeSite []).entry))).any
        fun _ => true) = true := by decide +kernel
  have hbreak : (match (mazeSite [.breakLoop none]).compile .empty with
      | .error (.misplacedJump none) _ => true
      | _ => false) = true := by decide +kernel
  constructor
  · obtain ⟨slots, hslots, hlower⟩ := exists_of_toOption hlower
    obtain ⟨r, a, hok, -⟩ := exists_of_outcome hlower
    obtain ⟨b, hb⟩ := (mazeSite []).compile_in_order.2 _ _ _ _ hok
    exact ⟨slots, r.2, a, b, hslots, hok, hb⟩
  · split at hbreak
    · rename_i q herror
      exact ⟨_, q, herror, rfl, (mazeSite [.breakLoop none]).compile_in_order.1 _ _ _ herror⟩
    · cases hbreak

end ClassForge
