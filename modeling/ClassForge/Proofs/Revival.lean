/-
# Labels in dead code come alive

Specification, section 10.6, *unreachable emission*: where code is reachable again.

A label may be placed where control cannot be.  Nothing is added to the code until
control comes back, and it comes back only at another label, which then stands at the
same place and has a frame there (`Assembler.Moves`).  So a branch back to the first
label is judged by the frame of the other one:

| that frame | the branch |
| --- | --- |
| accepts the frame that the branch arrives with | is added, and goes behind the other label |
| does not accept it | fails because of the two frames |

It is never refused for the dead code that its label was placed in
(`Assembler.branch_to_dead_label`).  None of this changes if some of the operations in
between fail (`Refuses`).
-/

import ClassForge.Proofs.Flow

namespace ClassForge

/-! ### Operations that fail -/

open Assembler in
/-- The assemblers that an operation may leave behind when it fails. -/
inductive Refuses : Operation → Assembler → Assembler → Prop where
  | unchanged (o : Operation) (a : Assembler) : Refuses o a a
  | constant (c : Constant) (pool : ConstantPool) (a : Assembler) :
    Refuses (.constant c) a { a with pool }
  | frame (o : Operation) {a : Assembler} {f : Frame} (hc : a.current = some f) (next : Frame) :
    Refuses o a { a with current := some next }
  | mark {op : Opcode} {target : Label} {a : Assembler} {f : Frame} {state : LabelState}
    (hc : a.current = some f) (hl : a.labels[target.index]? = some state) (next : Frame) :
    Refuses (.branch op target) a
      { a with
        current := some next
        labels := a.labels.setIfInBounds target.index { state with jumpedTo := true } }
  | place {label : Label} {a : Assembler} {f : Frame} {state : LabelState}
    (hc : a.current = some f) (hl : a.labels[label.index]? = some state)
    (hp : state.placed = none) : Refuses (.place label) a (a.settle label state none)

namespace Operation

/-- A branch that fails leaves everything as it was, or has changed the current frame and
marked its label by then. -/
theorem refuses_of_branch {op : Opcode} {target : Label} {a b : Assembler} {e : Fault}
    (h : Assembler.branch op target a = .error e b) : Refuses (.branch op target) a b := by
  unfold Assembler.branch at h
  split at h
  · cases h
  rename_i f hc
  dsimp only at h
  split at h
  · cases h
    exact .unchanged _ a
  rename_i next hs
  split at h
  · cases h
    exact .frame _ hc next
  rename_i state hl
  split at h
  · split at h
    · cases h
      exact .mark hc hl next
    · split at h
      · cases h
      · cases h
        exact .mark hc hl next
  · split at h
    · cases h
    · split at h
      · cases h
      · cases h
        exact .mark hc hl next

/-- A label that cannot be placed leaves everything as it was, or it has been settled
without a frame by then. -/
theorem refuses_of_place {label : Label} {a b : Assembler} {e : Fault}
    (h : Assembler.place label a = .error e b) : Refuses (.place label) a b := by
  unfold Assembler.place at h
  split at h
  · cases h
    exact .unchanged _ a
  rename_i state hl
  split at h
  · cases h
    exact .unchanged _ a
  rename_i hp
  split at h
  · rename_i above jumped habove hjumped
    obtain ⟨f, hc, -⟩ := Option.map_eq_some_iff.1 habove
    split at h
    · cases h
    · cases h
      exact .place hc hl (by simpa using hp)
  · cases h
  · cases h

/-- **What an operation may leave behind when it fails.** At most the current frame has
changed, constants were added, a label was marked as branched to, or the label that was to
be placed stands there without a frame; no instruction is added. -/
theorem refuses_of_run {o : Operation} {a b : Assembler} {e : Fault}
    (h : o.run a = .error e b) : Refuses o a b := by
  cases o with
  | branch op target => exact refuses_of_branch h
  | place label => exact refuses_of_place h
  | label limit => cases h
  | killLocals first => cases h
  | noteLocals count => cases h
  | push i types =>
    change Assembler.push i types a = _ at h
    unfold Assembler.push at h
    split at h
    · cases h
    dsimp only at h
    split at h
    · cases h
      exact .unchanged _ a
    · split at h
      · cases h
        exact .unchanged _ a
      · cases h
  | constant c =>
    change ((ConstantPool.intern c).toAssembling >>= fun _ => pure ()) a = _ at h
    cases hpool : ConstantPool.intern c a.pool with
    | ok index pool =>
      rw [bind_of_ok (Interning.toAssembling_of_ok hpool)] at h
      cases h
    | error e' pool =>
      rw [bind_of_error (Interning.toAssembling_of_error hpool)] at h
      cases h
      exact .constant c pool a
  | generalize type =>
    change Assembler.generalize type a = _ at h
    unfold Assembler.generalize at h
    split at h
    · cases h
    · rename_i f hc
      split at h
      · cases h
      · cases h
        exact .frame _ hc _

/-- The assembler after an operation, whether it succeeds or fails. -/
def attempt (o : Operation) (a : Assembler) : Assembler :=
  match o.run a with
  | .ok _ b => b
  | .error _ b => b

/-- The assembler after operations, each of which may fail. -/
def attemptAll (os : List Operation) (a : Assembler) : Assembler :=
  os.foldl (fun a o => o.attempt a) a

end Operation

/-! ### How control comes back -/

namespace Assembler

/-- Labels stay where they are, and so do the frames at them.  Where control cannot be,
it comes back only at a label, before anything is added to the code. -/
structure Moves (a b : Assembler) : Prop where
  labels : ∀ l n, a.position l = some n → b.position l = some n
  frames : ∀ n : Nat, (a.placedFrames[n]?).isSome = true → (b.placedFrames[n]?).isSome = true
  revived : a.current = none →
    b.current = none ∧ b.instructions.size = a.instructions.size ∨
    ∃ l, a.position l = none ∧ b.position l = some a.instructions.size ∧
      (b.placedFrames[a.instructions.size]?).isSome = true

namespace Moves

variable {a b c : Assembler}

theorem refl (a : Assembler) : a.Moves a := ⟨fun _ _ h => h, fun _ h => h, fun h => .inl ⟨h, rfl⟩⟩

/-- What stays where it is twice stays where it is; and control that comes back later comes
back at a label as well. -/
theorem trans (hab : a.Moves b) (hbc : b.Moves c) : a.Moves c where
  labels l n h := hbc.labels l n (hab.labels l n h)
  frames n h := hbc.frames n (hab.frames n h)
  revived h := by
    rcases hab.revived h with ⟨hb, hsize⟩ | ⟨l, hl, hplaced, hframe⟩
    · rcases hbc.revived hb with ⟨hc, hsize'⟩ | ⟨l, hl, hplaced, hframe⟩
      · exact .inl ⟨hc, hsize'.trans hsize⟩
      · rw [hsize] at hplaced hframe
        refine .inr ⟨l, ?_, hplaced, hframe⟩
        cases hn : a.position l with
        | none => rfl
        | some n =>
          rw [hab.labels l n hn] at hl
          cases hl
    · exact .inr ⟨l, hl, hbc.labels l _ hplaced, hbc.frames _ hframe⟩

/-- Where control is, only the labels and their frames matter. -/
theorem of_some {f : Frame} (hc : a.current = some f)
    (hlabels : ∀ l n, a.position l = some n → b.position l = some n)
    (hframes : b.placedFrames = a.placedFrames) : a.Moves b where
  labels := hlabels
  frames n h := hframes ▸ h
  revived h := by
    rw [hc] at h
    cases h

/-- A label that was not placed before. -/
theorem settle {label : Label} {state : LabelState} (hl : a.labels[label.index]? = some state)
    (hp : state.placed = none) (frame : Option Frame) : a.Moves (a.settle label state frame) := by
  have hnone : a.position label = none := by
    unfold position
    rw [hl, Option.bind_some, hp]
  refine ⟨fun l n hn => ?_, isSome_placedFrames_settle label state frame, fun _ => ?_⟩
  · rw [position_settle_of_ne]
    · exact hn
    · rintro rfl
      rw [hnone] at hn
      cases hn
  · cases frame with
    | none => exact .inl ⟨rfl, rfl⟩
    | some f => exact .inr ⟨label, hnone, position_settle hl _, by simp [Assembler.settle]⟩

/-- **Every operation that succeeds only lets control come back at a label**: nothing else
sets the current frame where there is none. -/
theorem of_advances {o : Operation} (h : Advances o a b) : a.Moves b := by
  have hlabels (l : Label) (n : Nat) (hn : a.position l = some n) : b.position l = some n :=
    position_grows hn (.of_advances h)
  cases h with
  | label => exact ⟨hlabels, fun _ h => h, fun h => .inl ⟨h, rfl⟩⟩
  | constant => exact ⟨hlabels, fun _ h => h, fun h => .inl ⟨h, rfl⟩⟩
  | noteLocals => exact ⟨hlabels, fun _ h => h, fun h => .inl ⟨h, rfl⟩⟩
  | killLocals first =>
    exact ⟨hlabels, fun _ h => h, fun h => .inl ⟨Option.map_eq_none_iff.2 h, rfl⟩⟩
  | drop => exact .refl a
  | push hc => exact .of_some hc hlabels rfl
  | jumpBack hc => exact .of_some hc hlabels rfl
  | jumpAhead hc => exact .of_some hc hlabels rfl
  | generalize hc => exact .of_some hc hlabels rfl
  | place hl hp => exact .settle hl hp _

/-- An operation that fails does not let control come back at all. -/
theorem of_refuses {o : Operation} (h : Refuses o a b) : a.Moves b := by
  cases h with
  | unchanged => exact .refl a
  | constant => exact ⟨fun _ _ h => h, fun _ h => h, fun h => .inl ⟨h, rfl⟩⟩
  | frame _ hc => exact .of_some hc (fun _ _ h => h) rfl
  | mark hc hl next =>
    refine .of_some hc (fun l n hn => ?_) rfl
    exact (position_setLabel hl rfl (by rfl) l).trans hn
  | place hc hl hp => exact .settle hl hp none

/-- **One operation moves no label and no frame at a label** -/
theorem attempt (o : Operation) (a : Assembler) : a.Moves (o.attempt a) := by
  unfold Operation.attempt
  split
  · rename_i hok
    exact .of_advances (Operation.run_eq_ok.1 hok)
  · rename_i herror
    exact .of_refuses (Operation.refuses_of_run herror)

/-- **A sequence of operations moves no label and no frame at a label** -/
theorem attemptAll (os : List Operation) (a : Assembler) :
    a.Moves (Operation.attemptAll os a) := by
  induction os generalizing a with
  | nil => exact .refl a
  | cons o os ih => exact (attempt o a).trans (ih _)

end Moves

/-- **A branch to a label in dead code goes where another label revived it.**  Let a
label be placed where control cannot be, and let any operations follow, some of which
may fail.  Wherever control then is, there is another label at the same place as the
first, with a frame.  A branch to the first label, if the operands allow it, is added to
the code if that frame accepts the one it arrives with, and otherwise fails because of
the two frames. -/
theorem branch_to_dead_label {a b c : Assembler} {label : Label} {op : Opcode} {f next : Frame}
    {os : List Operation} (hplace : place label a = .ok () b) (hdead : b.isReachable = false)
    (hos : Operation.attemptAll os b = c) (hc : c.current = some f)
    (hs : f.step c.instructions.size (.branch op label .empty) .none = .ok next) :
    c.position label = some a.instructions.size ∧
    (∃ other, other ≠ label ∧ c.position other = some a.instructions.size) ∧
    ∃ state there, c.labels[label.index]? = some state ∧
      c.placedFrames[a.instructions.size]? = some there ∧
      if there.accepts (state.restrict next) then
        ∃ d, branch op label c = .ok () d ∧
          d.instructions = c.instructions.push (.branch op label (state.restrict next))
      else
        ∃ d, branch op label c =
            .error (.incompatibleFrames label there (state.restrict next)) d ∧
          d.instructions = c.instructions := by
  cases Operation.run_place_iff.1 hplace with
  | drop ho => cases ho
  | place hl hp hj =>
    rename_i old frame
    have hmoves := Moves.attemptAll os (a.settle label old frame)
    rw [hos] at hmoves
    have hlabel := hmoves.labels label _ (position_settle hl frame)
    rcases hmoves.revived (Option.not_isSome_iff_eq_none.1 (Bool.eq_false_iff.1 hdead)) with
      ⟨hnone, -⟩ | ⟨other, hother, hplaced, hframe⟩
    · rw [hc] at hnone
      cases hnone
    · refine ⟨hlabel, ⟨other, ?_, hplaced⟩, ?_⟩
      · rintro rfl
        rw [position_settle hl] at hother
        cases hother
      · obtain ⟨state, hstate, hindex⟩ := Option.bind_eq_some_iff.1 hlabel
        obtain ⟨there, hthere⟩ := Option.isSome_iff_exists.1 hframe
        change c.placedFrames[a.instructions.size]? = some there at hthere
        refine ⟨state, there, hstate, hthere, ?_⟩
        split
        · rename_i haccepts
          exact ⟨_, Operation.run_branch_iff.2 (.jumpBack hc hs hstate hindex hthere haccepts), rfl⟩
        · rename_i haccepts
          unfold branch
          simp only [hc, hs, hstate, hindex, hthere, haccepts]
          exact ⟨_, rfl, rfl⟩

/-- Code that goes on at a label ahead, and a label that is not used. -/
def detour : List Operation := [.label none, .label none, .branch .goto ⟨1⟩]

/-- With a value on the stack, a branch to the label in the dead code does not fit the
frame of the label that revived it. -/
theorem detour_revived :
    ∃ a b c f next, Operation.attemptAll detour (start .empty Body.counterFrame) = a ∧
      place ⟨0⟩ a = .ok () b ∧ b.isReachable = false ∧
      Operation.attemptAll [.place ⟨1⟩, .push (.load .int 0) .none] b = c ∧
      c.current = some f ∧
      f.step c.instructions.size (.branch .goto ⟨0⟩ .empty) .none = .ok next ∧
      c.position ⟨0⟩ = some 1 ∧ (∃ other, other ≠ ⟨0⟩ ∧ c.position other = some 1) ∧
      ∃ there arriving d,
        branch .goto ⟨0⟩ c = .error (.incompatibleFrames ⟨0⟩ there arriving) d := by
  have h : (outcome? (place ⟨0⟩ (Operation.attemptAll detour
      (start .empty Body.counterFrame)))).any (fun r =>
        let c := Operation.attemptAll [.place ⟨1⟩, .push (.load .int 0) .none] r.2
        c.current.any fun f =>
          (f.step c.instructions.size (.branch .goto ⟨0⟩ .empty) .none).toOption.any fun _ =>
            !r.2.isReachable && (outcome? (branch .goto ⟨0⟩ c)).isNone) = true := by
    decide +kernel
  have hsize : (Operation.attemptAll detour (start .empty Body.counterFrame)).instructions.size =
      1 := by decide +kernel
  obtain ⟨_, b, hplace, h⟩ := exists_of_outcome h
  obtain ⟨f, hc, h⟩ := (Option.any_eq_true _ _).1 h
  obtain ⟨next, hs, h⟩ := exists_of_toOption h
  rw [Bool.and_eq_true, Bool.not_eq_true'] at h
  obtain ⟨hdead, hbranch⟩ := h
  obtain ⟨hlabel, hother, state, there, -, -, hresult⟩ :=
    branch_to_dead_label hplace hdead rfl hc hs
  rw [hsize] at hlabel hother
  refine ⟨_, b, _, f, next, rfl, hplace, hdead, rfl, hc, hs, hlabel, hother, there,
    state.restrict next, ?_⟩
  split at hresult
  · obtain ⟨d, hd, -⟩ := hresult
    rw [hd] at hbranch
    cases hbranch
  · obtain ⟨d, hd, -⟩ := hresult
    exact ⟨d, hd⟩

/-- A branch to a label that was placed in dead code, before any branch to it, is added
to the code.  It goes to itself, since both labels stand there. -/
theorem detour_accepted :
    ∃ a b c d, Operation.attemptAll detour (start .empty .empty) = a ∧
      a.isReachable = false ∧ ¬ a.isTarget 0 ∧ place ⟨0⟩ a = .ok () b ∧ b.isReachable = false ∧
      Operation.attemptAll [.push (.simple .nop) .none, .place ⟨1⟩] b = c ∧
      c.isReachable = true ∧ branch .goto ⟨0⟩ c = .ok () d ∧
      d.instructions = #[.branch .goto ⟨1⟩ .empty, .branch .goto ⟨0⟩ .empty] ∧
      d.position ⟨0⟩ = some 1 := by
  have h : (outcome? (place ⟨0⟩ (Operation.attemptAll detour (start .empty .empty)))).any (fun r =>
      let c := Operation.attemptAll [.push (.simple .nop) .none, .place ⟨1⟩] r.2
      (outcome? (branch .goto ⟨0⟩ c)).any fun d => decide (r.2.isReachable = false ∧
        c.isReachable = true ∧
        d.2.instructions = #[.branch .goto ⟨1⟩ .empty, .branch .goto ⟨0⟩ .empty] ∧
        d.2.position ⟨0⟩ = some 1)) = true := by decide +kernel
  have hdead : (Operation.attemptAll detour (start .empty .empty)).isReachable = false := by
    decide +kernel
  have hunused : (Operation.attemptAll detour (start .empty .empty)).labels[0]?.map
      LabelState.jumpedTo = some false := by decide +kernel
  obtain ⟨_, b, hplace, h⟩ := exists_of_outcome h
  obtain ⟨_, d, hbranch, h⟩ := exists_of_outcome h
  obtain ⟨hb, hc, hinstructions, hposition⟩ := of_decide_eq_true h
  refine ⟨_, b, _, d, rfl, hdead, ?_, hplace, hb, rfl, hc, hbranch, hinstructions, hposition⟩
  rintro ⟨state, hstate, hjumped⟩
  rw [hstate, Option.map_some, hjumped] at hunused
  cases hunused

end Assembler
end ClassForge
