/-
# How finishing can fail

Specification, section 10.2: the faults of labels and of the end of the code.

Where a sequence of operations has succeeded, the body is finished and stored, or
there is one of a few reasons why not (`Assembler.finish_outcomes`):

| what fails | why |
| --- | --- |
| `Assembler.finish` | control is behind the last instruction |
| `Assembler.finish` | a branch goes to a label that was never placed |
| `Body.store` | the body is too large |

Nothing else can go wrong.  Wherever a label that is jumped to stands, there is a
frame, and there is code behind it (`Assembler.Lands`); the layout can only fail for a
distance or the length; and the stack map leaves off or adds one to three locals where
it uses a short entry.
-/

import ClassForge.Proofs.Compression
import ClassForge.Proofs.Offsets

namespace ClassForge

/-! ### Computations that fail for few reasons -/

/-- Every failure of the computation has the property. -/
def FailsOnly {ε σ α : Type} (E : ε → Prop) (x : EStateM ε σ α) : Prop :=
  ∀ s e t, x s = .error e t → E e

namespace FailsOnly

variable {ε ε' σ α β : Type} {E : ε → Prop} {x : EStateM ε σ α}

theorem pure (v : α) : FailsOnly E (Pure.pure v : EStateM ε σ α) := by
  rintro s e t ⟨⟩

/-- What comes second need only be looked at for what the first can result in. -/
theorem bindOk {f : α → EStateM ε σ β} (hx : FailsOnly E x)
    (hf : ∀ s v t, x s = .ok v t → FailsOnly E (f v)) : FailsOnly E (x >>= f) := by
  intro s e t h
  cases hv : x s with
  | ok v u =>
    rw [bind_of_ok hv] at h
    exact hf s v u hv u e t h
  | error e' u =>
    rw [bind_of_error hv] at h
    cases h
    exact hx s e t hv

theorem bind {f : α → EStateM ε σ β} (hx : FailsOnly E x) (hf : ∀ v, FailsOnly E (f v)) :
    FailsOnly E (x >>= f) :=
  hx.bindOk fun _ v _ _ => hf v

/-- Whatever the failure is, what becomes of it has the property. -/
theorem adaptExcept {E' : ε' → Prop} {f : ε → ε'} (hx : FailsOnly E x) (h : ∀ e, E e → E' (f e)) :
    FailsOnly E' (x.adaptExcept f) := by
  intro s e t hfail
  unfold EStateM.adaptExcept at hfail
  split at hfail
  · rename_i hx'
    cases hfail
    exact h _ (hx s _ t hx')
  · cases hfail

theorem any (x : EStateM ε σ α) : FailsOnly (fun _ => True) x := fun _ _ _ _ => trivial

end FailsOnly

theorem Interning.failsOnly_toStoring {α : Type} (x : Interning α) :
    FailsOnly (·.isTooLarge = true) x.toStoring :=
  (FailsOnly.any x).adaptExcept fun _ _ => rfl

/-! ### Labels that were jumped to -/

/-- What is jumped to has a frame, and code comes behind it. -/
structure LabelState.Lands (state : LabelState) (a : Assembler) : Prop where
  within : ∀ index, state.placed = some index → index ≤ a.instructions.size
  awaited : state.jumpedTo = true → state.placed = none → state.frame.isSome = true
  framed : state.jumpedTo = true → ∀ index, state.placed = some index →
    (a.placedFrames[index]?).isSome = true
  followed : state.jumpedTo = true → ∀ index, state.placed = some index → a.current = none →
    index < a.instructions.size

/-- What holds for a label goes on to hold while code is added. -/
theorem LabelState.Lands.mono {state : LabelState} {a b : Assembler} (h : state.Lands a)
    (hframes : ∀ n : Nat, (a.placedFrames[n]?).isSome = true → (b.placedFrames[n]?).isSome = true)
    (hsize : a.instructions.size ≤ b.instructions.size)
    (hcurrent : a.instructions.size = b.instructions.size → b.current = none → a.current = none) :
    state.Lands b where
  within index hindex := Nat.le_trans (h.within index hindex) hsize
  awaited := h.awaited
  framed hjumped index hindex := hframes index (h.framed hjumped index hindex)
  followed hjumped index hindex hc := by
    rcases Nat.eq_or_lt_of_le hsize with heq | hlt
    · rw [← heq]
      exact h.followed hjumped index hindex (hcurrent heq hc)
    · exact Nat.lt_of_le_of_lt (h.within index hindex) hlt

namespace Assembler

/-- All labels that were jumped to have frames, and code comes behind them. -/
def Lands (a : Assembler) : Prop :=
  ∀ (n : Nat) (state : LabelState), a.labels[n]? = some state → state.Lands a

variable {a b : Assembler}

/-- **No operation leaves a label without code behind it.**  A label that is jumped to
has a frame, so control goes on from where it is placed. -/
theorem Lands.advances {o : Operation} (h : a.Lands) (hstep : Advances o a b) : b.Lands := by
  cases hstep with
  | label limit =>
    intro n state hn
    rw [Array.getElem?_push] at hn
    split at hn
    · cases hn
      exact ⟨fun index hindex => absurd hindex (Option.some_ne_none index).symm,
        fun hjumped => absurd hjumped Bool.false_ne_true,
        fun hjumped => absurd hjumped Bool.false_ne_true,
        fun hjumped => absurd hjumped Bool.false_ne_true⟩
    · exact (h n state hn).mono (fun _ => id) Nat.le.refl fun _ => id
  | constant => exact fun n state hn => (h n state hn).mono (fun _ => id) Nat.le.refl fun _ => id
  | drop => exact h
  | push =>
    intro n state hn
    refine (h n state hn).mono (fun _ => id) (by simp) fun heq => ?_
    simp at heq
  | jumpBack hc hs hl hp ht ha =>
    intro n state hn
    have hsize (t : Label) (op : Opcode) (f : Frame) :
        a.instructions.size < (a.instructions.push (.branch op t f)).size := by simp
    rcases eq_or_of_setLabel hn with rfl | hn
    · have hold := h _ _ hl
      refine ⟨fun index hindex => ?_, fun _ hnone => ?_, fun _ index hindex => ?_,
        fun _ index hindex _ => ?_⟩
      · exact Nat.le_of_lt (Nat.lt_of_le_of_lt (hold.within index hindex) (hsize _ _ _))
      · exact absurd (hp.symm.trans hnone) (Option.some_ne_none _)
      · cases hp.symm.trans hindex
        exact Option.isSome_iff_exists.2 ⟨_, ht⟩
      · exact Nat.lt_of_le_of_lt (hold.within index hindex) (hsize _ _ _)
    · exact (h n state hn).mono (fun _ => id) (Nat.le_of_lt (hsize _ _ _)) fun heq =>
        absurd heq (Nat.ne_of_lt (hsize _ _ _))
  | jumpAhead hc hs hl hp hj =>
    intro n state hn
    rcases eq_or_of_setLabel hn with rfl | hn
    · have hnone {index : Nat} : none ≠ some index := (Option.some_ne_none index).symm
      exact ⟨fun index hindex => absurd (hp.symm.trans hindex) hnone, fun _ _ => rfl,
        fun _ index hindex => absurd (hp.symm.trans hindex) hnone,
        fun _ index hindex => absurd (hp.symm.trans hindex) hnone⟩
    · refine (h n state hn).mono (fun _ => id) (by simp [pushJump]) fun heq => ?_
      simp [pushJump] at heq
  | place hl hp hj =>
    rename_i label state frame
    intro n other hn
    rcases eq_or_of_setLabel hn with rfl | hn
    · refine ⟨?_, fun _ hnone => absurd hnone (Option.some_ne_none _), ?_, ?_⟩
      · rintro index ⟨⟩
        exact Nat.le.refl
      · rintro hjumped index ⟨⟩
        have hsome := hj.isSome_iff.2 (.inr ((h _ _ hl).awaited hjumped hp))
        obtain ⟨f, rfl⟩ := Option.isSome_iff_exists.1 hsome
        simp [settle]
      · rintro hjumped index ⟨⟩ hc
        have hsome := hj.isSome_iff.2 (.inr ((h _ _ hl).awaited hjumped hp))
        change frame = none at hc
        rw [hc] at hsome
        cases hsome
    · refine (h n other hn).mono (isSome_placedFrames_settle label state frame) Nat.le.refl
        fun _ hc => ?_
      change frame = none at hc
      cases hcurrent : a.current with
      | none => rfl
      | some f =>
        have hsome := hj.isSome_iff.2 (.inl (by rw [hcurrent]; rfl))
        rw [hc] at hsome
        cases hsome
  | killLocals first =>
    refine fun n state hn => (h n state hn).mono (fun _ => id) Nat.le.refl fun _ hc => ?_
    exact Option.map_eq_none_iff.1 hc
  | noteLocals =>
    exact fun n state hn => (h n state hn).mono (fun _ => id) Nat.le.refl fun _ => id
  | generalize hc hg =>
    exact fun n state hn => (h n state hn).mono (fun _ => id) Nat.le.refl fun _ hnone =>
      absurd hnone (Option.some_ne_none _)

theorem lands_of_built {pool : ConstantPool} {entry : Frame} (h : Built (start pool entry) a) :
    a.Lands := by
  refine h.induct (fun n state hn => ?_) fun _ _ _ _ hstep hlands => hlands.advances hstep
  simp [start] at hn

/-! ### Finished bodies -/

/-- A label with code behind it, if it was jumped to, can be added to others, unless it
was jumped to and not placed. -/
theorem add_of_lands {state : LabelState} (hc : a.current = none) (h : state.Lands a) (l : Label)
    (p : Placement) :
    (∃ q, p.add a l state = .ok q) ∨
      state.jumpedTo = true ∧ state.placed = none ∧
        p.add a l state = .error (.unplacedLabel l) := by
  unfold Placement.add
  cases hplaced : state.placed with
  | some index =>
    dsimp only
    split
    · rename_i hjumped
      rw [if_neg (Nat.not_le.2 (h.followed hjumped index hplaced hc))]
      obtain ⟨f, hf⟩ := Option.isSome_iff_exists.1 (h.framed hjumped index hplaced)
      rw [hf]
      exact .inl ⟨_, rfl⟩
    · exact .inl ⟨_, rfl⟩
  | none =>
    dsimp only
    split
    · rename_i hjumped
      exact .inr ⟨hjumped, rfl, rfl⟩
    · exact .inl ⟨_, rfl⟩

/-- Labels are added one after the other, up to the first that was jumped to and not
placed. -/
theorem addFrom_of_lands {states : List LabelState} (hc : a.current = none)
    (h : ∀ state ∈ states, state.Lands a) (number : Nat) (p : Placement) :
    (∃ q, p.addFrom a number states = .ok q) ∨
      ∃ n state, states[n]? = some state ∧ state.jumpedTo = true ∧ state.placed = none ∧
        p.addFrom a number states = .error (.unplacedLabel ⟨number + n⟩) := by
  induction states generalizing number p with
  | nil => exact .inl ⟨p, rfl⟩
  | cons state states ih =>
    unfold Placement.addFrom
    rcases add_of_lands hc (h state List.mem_cons_self) ⟨number⟩ p with
      ⟨q, hq⟩ | ⟨hjumped, hplaced, herror⟩
    · rw [hq]
      rcases ih (fun s hs => h s (List.mem_cons_of_mem state hs)) (number + 1) q with
        hok | ⟨n, s, hs, hjumped, hplaced, herror⟩
      · exact .inl hok
      · refine .inr ⟨n + 1, s, hs, hjumped, hplaced, ?_⟩
        rw [Nat.add_comm n 1, ← Nat.add_assoc]
        exact herror
    · rw [herror]
      exact .inr ⟨0, state, rfl, hjumped, hplaced, rfl⟩

/-- Where control is nowhere, only a label that is not placed keeps the body from being
finished. -/
theorem Lands.finish_cases (h : a.Lands) (hc : a.current = none) :
    (∃ b, a.finish = .ok b) ∨
      ∃ l, a.finish = .error (.unplacedLabel l) ∧ a.isTarget l.index ∧ a.position l = none := by
  have hstates : ∀ state ∈ a.labels.toList, state.Lands a := by
    intro state hmem
    obtain ⟨n, hn⟩ := Array.mem_iff_getElem?.1 (Array.mem_toList_iff.1 hmem)
    exact h n state hn
  unfold finish
  rw [hc]
  rcases addFrom_of_lands hc hstates 0 {} with ⟨p, hp⟩ | ⟨n, state, hn, hjumped, hplaced, herror⟩
  · rw [hp]
    exact .inl ⟨_, rfl⟩
  · rw [Array.getElem?_toList] at hn
    rw [herror, Nat.zero_add]
    refine .inr ⟨⟨n⟩, rfl, ⟨state, hn, hjumped⟩, ?_⟩
    unfold position
    rw [hn, Option.bind_some, hplaced]

/-- **Code behind which control is nowhere is finished** once all labels are
placed. -/
theorem Lands.finish_of_placed (h : a.Lands) (hc : a.current = none)
    (hplaced : ∀ (n : Nat) (state : LabelState), a.labels[n]? = some state → state.placed ≠ none) :
    ∃ b, a.finish = .ok b := by
  rcases h.finish_cases hc with hok | ⟨l, -, ⟨state, hl, -⟩, hnone⟩
  · exact hok
  · unfold position at hnone
    rw [hl, Option.bind_some] at hnone
    exact absurd hnone (hplaced l.index state hl)

/-! ### Labels that were placed -/

/-- A label is placed by the operation that places it, and by no other. -/
theorem isSome_position_advances {o : Operation} (hstep : Advances o a b) (l : Label) :
    (b.position l).isSome = true ↔ (a.position l).isSome = true ∨ o = .place l := by
  cases hstep with
  | label limit =>
    unfold position
    rw [Array.getElem?_push]
    split
    · rename_i heq
      rw [heq]
      simp
    · simp
  | place hl hp hj =>
    rename_i label state frame
    by_cases heq : label = l
    · subst heq
      rw [position_settle hl]
      simp
    · rw [position_settle_of_ne heq, Operation.place.injEq]
      exact (or_iff_left heq).symm
  | jumpBack hc hs hl =>
    rw [position_setLabel hl rfl (by rfl)]
    simp
  | jumpAhead hc hs hl =>
    rw [position_setLabel hl rfl (by rfl)]
    simp
  | drop ho =>
    refine (or_iff_left fun heq => ?_).symm
    rw [heq] at ho
    cases ho
  | _ => simp [position]

/-- **The labels that are placed in the end** -/
theorem isSome_position_iff {pool : ConstantPool} {entry : Frame} {os : List Operation}
    (hrun : Operation.runAll os (start pool entry) = .ok () a) (l : Label) :
    (a.position l).isSome = true ↔ .place l ∈ os := by
  have h : ∀ {x : Assembler}, Operation.runAll os x = .ok () a →
      ((a.position l).isSome = true ↔ (x.position l).isSome = true ∨ .place l ∈ os) := by
    clear hrun
    induction os with
    | nil =>
      rintro x ⟨⟩
      simp
    | cons o os ih =>
      intro x hx
      obtain ⟨y, hstep, hrun⟩ := Operation.runAll_cons.1 hx
      rw [ih hrun, isSome_position_advances hstep l, List.mem_cons, or_assoc, eq_comm (a := o)]
  rw [h hrun]
  simp [position, start]

end Assembler

/-! ### Stored bodies -/

namespace Body

variable {b : Body}

/-- Laying out a closed body fails only because it is too large, since all of its labels
have places. -/
theorem Closed.failsOnly_resolve (h : b.Closed) {e : Fault} {c : Body}
    (hfail : Body.resolve b = .error e c) : e.isTooLarge = true := by
  by_cases hlength : b.sizeBefore b.instructions.size ≤ maxLength
  · rcases h.resolve hlength with ⟨length, c', hok, -⟩ | ⟨n, d, c', herror, -⟩
    · rw [hok] at hfail
      cases hfail
    · rw [herror] at hfail
      cases hfail
      rfl
  · have htotal : maxLength < (layOut #[] 0 b.instructions.toList).2 := by
      rw [layOut_eq, Nat.zero_add, Array.length_toList, ← sizeBefore_eq]
      exact Nat.lt_of_not_le hlength
    unfold Body.resolve at hfail
    change (if maxLength < (layOut #[] 0 b.instructions.toList).2 then _ else _) = _ at hfail
    rw [if_pos htotal] at hfail
    cases hfail
    rfl

/-- Storing a body that is laid out fails only because something is too large: its stack,
its locals or the pool. -/
theorem failsOnly_storeResolved (b : Body) (length : Nat) :
    FailsOnly (·.isTooLarge = true) (b.storeResolved length) := by
  unfold storeResolved
  split
  · rintro s e t ⟨⟩
    rfl
  split
  · rintro s e t ⟨⟩
    rfl
  refine (Interning.failsOnly_toStoring _).bind fun entry =>
    (Interning.failsOnly_toStoring _).bind fun frames => .bind ?_ fun _ => .pure _
  unfold stackMapAttributes
  split
  · exact .pure _
  · obtain ⟨info, hinfo⟩ := StackMap.exists_write_compress entry frames
    rw [hinfo]
    exact (Interning.failsOnly_toStoring _).bind fun _ => .pure _

/-- **A closed body is stored, unless it is too large.** -/
theorem Closed.failsOnly_store (h : b.Closed) : FailsOnly (·.isTooLarge = true) b.store := by
  intro pool e pool' hfail
  unfold store at hfail
  split at hfail
  · exact failsOnly_storeResolved _ _ _ _ _ hfail
  · rename_i hresolve
    cases hfail
    exact h.failsOnly_resolve hresolve

end Body

/-! ### What can go wrong in the end -/

namespace Assembler

/-- **Finishing fails for few reasons.**  Take any operations that succeed, with
instructions from the constructors.  The body is not finished if control is behind its
last instruction, and otherwise only for a label that an instruction branches to and no
operation placed.  A finished body is stored, unless it is too large. -/
theorem finish_outcomes {os : List Operation} {pool : ConstantPool} {entry : Frame}
    {a : Assembler} (hos : ∀ o ∈ os, o.Constructed)
    (hrun : Operation.runAll os (start pool entry) = .ok () a) :
    (a.finish = .error .notFinished ↔ a.isReachable = true) ∧
    ((∃ b, a.finish = .ok b) ↔
      a.isReachable = false ∧ ∀ l, BranchTo a.instructions l → .place l ∈ os) ∧
    (∀ e, a.finish = .error e → e ≠ .notFinished →
      ∃ l, e = .unplacedLabel l ∧ BranchTo a.instructions l ∧ .place l ∉ os) ∧
    ∀ b, a.finish = .ok b → ∀ p, (∃ code q, b.store p = .ok code q) ∨
      ∃ e q, b.store p = .error e q ∧ e.isTooLarge = true := by
  have hbuilt := Built.of_constructed hos hrun
  have htargets := hbuilt.connected.targets
  have hplaced := isSome_position_iff hrun
  cases hc : a.current with
  | some f =>
    have hreachable : a.isReachable = true := by
      unfold isReachable
      rw [hc]
      rfl
    have hfinish : a.finish = .error .notFinished := by
      unfold finish
      rw [hc]
      rfl
    simp [hreachable, hfinish]
  | none =>
    have hreachable : a.isReachable = false := by
      unfold isReachable
      rw [hc]
      rfl
    rcases (lands_of_built hbuilt).finish_cases hc with ⟨b, hb⟩ | ⟨l, herror, htarget, hnone⟩
    · refine ⟨?_, ?_, ?_, ?_⟩
      · simp [hb, hreachable]
      · refine iff_of_true ⟨b, hb⟩ ⟨hreachable, fun l hl => ?_⟩
        obtain ⟨n, hn, -⟩ := Body.exists_frame_of_branchTo hbuilt.connected hb hl
        exact (hplaced l).1 (hn ▸ rfl)
      · simp [hb]
      · intro b hb p
        cases hstore : b.store p with
        | ok code q => exact .inl ⟨code, q, rfl⟩
        | error e q =>
          have hclosed := Body.closed_of_finish hbuilt hb
          exact .inr ⟨e, q, rfl, hclosed.failsOnly_store p e q hstore⟩
    · have hbranch := (htargets l).1 htarget
      have hnever : .place l ∉ os := by
        rw [← hplaced l, hnone]
        decide
      refine ⟨?_, ?_, ?_, ?_⟩
      · simp [herror, hreachable]
      · refine iff_of_false (by simp [herror]) fun h => hnever (h.2 l hbranch)
      · rw [herror]
        rintro e ⟨⟩ -
        exact ⟨l, rfl, hbranch, hnever⟩
      · simp [herror]

/-- A loop whose way out was left open. -/
theorem openCountdown_outcomes :
    ∃ a, (∀ o ∈ Body.steepCountdown.take 7, o.Constructed) ∧
      Operation.runAll (Body.steepCountdown.take 7) (start .empty Body.counterFrame) = .ok () a ∧
      a.isReachable = false ∧ a.finish = .error (.unplacedLabel ⟨1⟩) ∧
      BranchTo a.instructions ⟨1⟩ ∧ .place ⟨1⟩ ∉ Body.steepCountdown.take 7 := by
  have h : (outcome? (Operation.runAll (Body.steepCountdown.take 7)
      (start .empty Body.counterFrame))).any (fun r =>
        !r.2.isReachable && decide (fault? r.2.finish = some (.unplacedLabel ⟨1⟩))) = true := by
    decide +kernel
  have hos : ∀ o ∈ Body.steepCountdown.take 7, o.Constructed := fun o ho =>
    Body.steepCountdown_constructed o (List.mem_of_mem_take ho)
  obtain ⟨_, a, ha, h⟩ := exists_of_outcome h
  rw [Bool.and_eq_true, Bool.not_eq_true'] at h
  obtain ⟨hreachable, h⟩ := h
  have herror := eq_error_of_fault (of_decide_eq_true h)
  obtain ⟨l, hl, hbranch, hnever⟩ := (finish_outcomes hos ha).2.2.1 _ herror (by decide)
  cases hl
  exact ⟨a, hos, ha, hreachable, herror, hbranch, hnever⟩

end Assembler
end ClassForge
