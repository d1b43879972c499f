/-
# What a bad frame leaves behind

Specification, section 7: violated invariants of the simulator.

Three operations work on the current frame, and each is refused if the frame does not fit:

| operation | is refused if | what is left |
| --- | --- | --- |
| an instruction | it is a branch, or it cannot run in the frame | all as it was |
| a branch | what it compares is not on the stack | all as it was |
| a more general type | the stack is empty | all as it was |
| | the type on top is of another kind | the type on top is gone |

An instruction may fail after it has popped some of its operands, but it runs in a copy of
the frame.  The type on top of the stack is taken off the frame itself before it is
compared.  The report holds the frame as it was, in each case, so after the last one it
differs from the current frame.  `Operation.run_eq_badFrame_iff` says when each operation
is refused for its frame, with what report, and what it leaves.
-/

import ClassForge.Proofs.Operation

namespace ClassForge

namespace Operation

variable {o : Operation} {a b : Assembler} {position : Nat} {action : FrameAction}
  {kind : StepFault} {f : Frame}

/-- Why an operation cannot be done in a frame, with what was to be done; none if the
frame is no obstacle. -/
def objection (position : Nat) (f : Frame) : Operation → Option (FrameAction × StepFault)
  | .push i types =>
    if i.opcode.effect.isBranch then some (.run i, .missingDestination)
    else (fault? (f.step position i types)).map fun kind => (.run i, kind)
  | .branch op target =>
    (fault? (f.step position (.branch op target .empty) .none)).map fun kind =>
      (.run (.branch op target .empty), kind)
  | .generalize type => (fault? (f.generalizeTop type)).map fun kind => (.generalize, kind)
  | _ => none

/-- What an operation leaves that cannot be done in the current frame. -/
def leave (f : Frame) (a : Assembler) : Operation → Assembler
  | .generalize _ => { a with current := some { f with stack := f.stack.tail } }
  | _ => a

/-- An instruction that is refused was refused in the current frame and for the reason that
the step gives, and nothing has changed. -/
theorem push_objection {i : Instruction} {types : OperandTypes}
    (h : Assembler.push i types a = .error (.badFrame position action kind f) b) :
    a.current = some f ∧ position = a.instructions.size ∧
      (Operation.push i types).objection position f = some (action, kind) ∧ b = a := by
  unfold Assembler.push at h
  split at h
  · cases h
  rename_i hc
  dsimp only at h
  split at h
  · rename_i hi
    cases h
    exact ⟨hc, rfl, if_pos hi, rfl⟩
  · rename_i hi
    split at h
    · rename_i hs
      cases h
      refine ⟨hc, rfl, ?_, rfl⟩
      rw [objection, if_neg hi, hs]
      rfl
    · cases h

/-- A branch that is refused was refused in the current frame, and nothing has changed. -/
theorem branch_objection {op : Opcode} {target : Label}
    (h : Assembler.branch op target a = .error (.badFrame position action kind f) b) :
    a.current = some f ∧ position = a.instructions.size ∧
      (Operation.branch op target).objection position f = some (action, kind) ∧ b = a := by
  unfold Assembler.branch at h
  split at h
  · cases h
  rename_i hc
  dsimp only at h
  split at h
  · rename_i hs
    cases h
    refine ⟨hc, rfl, ?_, rfl⟩
    rw [objection, hs]
    rfl
  -- from here on the frame fits, and only the label can be at fault
  · repeat' split at h
    all_goals cases h

theorem generalize_objection {type : FrameType}
    (h : Assembler.generalize type a = .error (.badFrame position action kind f) b) :
    a.current = some f ∧ position = a.instructions.size ∧
      (Operation.generalize type).objection position f = some (action, kind) ∧
      b = { a with current := some { f with stack := f.stack.tail } } := by
  unfold Assembler.generalize at h
  split at h
  · cases h
  rename_i hc
  split at h
  · cases h
  · rename_i hg
    cases h
    refine ⟨hc, rfl, ?_, rfl⟩
    rw [objection, hg]
    rfl

theorem place_ne_badFrame {label : Label} :
    Assembler.place label a ≠ .error (.badFrame position action kind f) b := by
  intro h
  unfold Assembler.place at h
  repeat' split at h
  all_goals cases h

/-- What the frame does not allow is refused. -/
theorem run_of_objection (hc : a.current = some f)
    (h : o.objection a.instructions.size f = some (action, kind)) :
    o.run a = .error (.badFrame a.instructions.size action kind f) (o.leave f a) := by
  cases o with
  | push i types =>
    change Assembler.push i types a = _
    rw [objection] at h
    unfold Assembler.push
    split at h
    · rename_i hi
      cases h
      simp only [hc, hi, if_true]
      rfl
    · rename_i hi
      obtain ⟨e, he, ⟨⟩⟩ := Option.map_eq_some_iff.1 h
      simp only [hc, hi, eq_error_of_fault he, Bool.false_eq_true, if_false]
      rfl
  | branch op target =>
    change Assembler.branch op target a = _
    obtain ⟨e, he, ⟨⟩⟩ := Option.map_eq_some_iff.1 h
    unfold Assembler.branch
    simp only [hc, eq_error_of_fault he]
    rfl
  | generalize type =>
    change Assembler.generalize type a = _
    obtain ⟨e, he, ⟨⟩⟩ := Option.map_eq_some_iff.1 h
    unfold Assembler.generalize
    simp only [hc, eq_error_of_fault he]
    rfl
  | label | constant | place | killLocals | noteLocals => cases h

/-- **When an operation is refused for its frame**, with what report, and what it
leaves. -/
theorem run_eq_badFrame_iff : o.run a = .error (.badFrame position action kind f) b ↔
    a.current = some f ∧ position = a.instructions.size ∧
      o.objection position f = some (action, kind) ∧ b = o.leave f a := by
  constructor
  · intro h
    cases o with
    | push i types => exact push_objection h
    | branch op target => exact branch_objection h
    | generalize type => exact generalize_objection h
    | place label => exact absurd h place_ne_badFrame
    | constant c =>
      change ((ConstantPool.intern c).toAssembling >>= fun _ => pure ()) a = _ at h
      cases hpool : ConstantPool.intern c a.pool with
      | ok index pool =>
        rw [bind_of_ok (Interning.toAssembling_of_ok hpool)] at h
        cases h
      | error e pool =>
        rw [bind_of_error (Interning.toAssembling_of_error hpool)] at h
        cases h
    | label | killLocals | noteLocals => cases h
  · rintro ⟨hc, rfl, hobjection, rfl⟩
    exact run_of_objection hc hobjection

/-- **A refused operation leaves all as it was, unless it takes a type off the stack.**  If
an operation is refused for its frame, the report holds the current frame and the number of
the next instruction.  An instruction and a branch leave the assembler as it was; a type
that cannot be made more general is gone from the stack, so there the assembler is as it was
only if the stack was empty. -/
theorem unchanged_of_badFrame_iff (h : o.run a = .error (.badFrame position action kind f) b) :
    a.current = some f ∧ position = a.instructions.size ∧
      (b = a ↔ ∀ type, o = .generalize type → f.stack = []) ∧
      ∀ type t rest, o = .generalize type → f.stack = t :: rest →
        b = { a with current := some { f with stack := rest } } := by
  obtain ⟨hc, hposition, -, rfl⟩ := run_eq_badFrame_iff.1 h
  refine ⟨hc, hposition, ⟨?_, fun hempty => ?_⟩, ?_⟩
  · rintro hsame type rfl
    have hcurrent : some { f with stack := f.stack.tail } = a.current :=
      congrArg Assembler.current hsame
    rw [hc] at hcurrent
    have htail : f.stack.tail = f.stack := congrArg Frame.stack (Option.some.inj hcurrent)
    cases hstack : f.stack with
    | nil => rfl
    | cons t rest =>
      rw [hstack] at htail
      exact absurd htail.symm (List.cons_ne_self t rest)
  · cases o with
    | generalize type =>
      have htail : f.stack.tail = f.stack := by rw [hempty type rfl]; rfl
      rw [leave, htail, ← hc]
    | _ => rfl
  · rintro type t rest rfl hstack
    rw [leave, hstack]
    rfl

/-- An addition with one operand pops it before it fails, and yet nothing has changed. -/
theorem oneOperand_unchanged :
    ∃ b, (Operation.push (.simple .iadd) .none).run (.start .empty ⟨[], [.integer]⟩) =
        .error (.badFrame 0 (.run (.simple .iadd)) .emptyStack ⟨[], [.integer]⟩) b ∧
      b = .start .empty ⟨[], [.integer]⟩ := by
  refine ⟨_, rfl, (unchanged_of_badFrame_iff (o := .push (.simple .iadd) .none) rfl).2.2.1.2 ?_⟩
  rintro type ⟨⟩

/-- An integer cannot become a floating point number.  The report holds the frame with the
integer, which is then gone from the stack. -/
theorem otherKind_changed :
    ∃ b, (Operation.generalize .float).run (.start .empty ⟨[], [.integer]⟩) =
        .error (.badFrame 0 .generalize .invalidType ⟨[], [.integer]⟩) b ∧
      b.current = some ⟨[], []⟩ ∧ b ≠ .start .empty ⟨[], [.integer]⟩ := by
  refine ⟨_, rfl, rfl, fun hsame => ?_⟩
  have hcurrent := congrArg Assembler.current hsame
  exact absurd hcurrent (by decide)

end Operation
end ClassForge
