/-
# Operations of the assembler

A method body is put together by a sequence of operations, and what an operation
does to an assembler, when it succeeds, is said once (`Advances`):

| operation | at a reachable point | where control cannot be |
| --- | --- | --- |
| a new label, a constant, room for locals | independent of the frame | the same |
| an instruction | runs in the current frame and is kept | dropped |
| a branch back | has to fit the frame of its label | dropped |
| a branch ahead | is joined with the other edges to its label | dropped |
| a label | joins the code above with the branches to it | goes on from the branches |

`Operation.run_eq_ok` says that this is all there is.  The frames of a label come
from `Joins`, which only goes up in the order of frames (`Joins.accepts_left`,
`Joins.accepts_right`).
-/

import ClassForge.Proofs.FrameOrder

namespace ClassForge

/-! ### Computations one after the other -/

section Bind

variable {ε σ α β : Type} {x : EStateM ε σ α} {f : α → EStateM ε σ β} {s : σ} {t : σ}

/-- What goes on after a success. -/
theorem bind_of_ok {v : α} (h : x s = .ok v t) : (x >>= f) s = f v t := by
  change EStateM.bind x f s = _
  unfold EStateM.bind
  rw [h]

/-- Nothing goes on after a failure. -/
theorem bind_of_error {e : ε} (h : x s = .error e t) : (x >>= f) s = .error e t := by
  change EStateM.bind x f s = _
  unfold EStateM.bind
  rw [h]

/-- Both parts of a computation that succeeds do. -/
theorem bind_eq_ok {w : β} {u : σ} (h : (x >>= f) s = .ok w u) :
    ∃ v t, x s = .ok v t ∧ f v t = .ok w u := by
  cases hx : x s with
  | ok v t => exact ⟨v, t, rfl, (bind_of_ok hx).symm.trans h⟩
  | error e t =>
    rw [bind_of_error hx] at h
    cases h

theorem adaptExcept_eq_ok {ε' : Type} {g : ε → ε'} {v : α} :
    x.adaptExcept g s = .ok v t ↔ x s = .ok v t := by
  unfold EStateM.adaptExcept
  cases x s with
  | ok w u => simp only [EStateM.Result.ok.injEq]
  | error e u => simp only [reduceCtorEq]

end Bind

/-! ### Computations that are evaluated -/

/-- What a computation yields and where it leads, if it succeeds. -/
def outcome? {ε σ α : Type} : EStateM.Result ε σ α → Option (α × σ)
  | .ok v s => some (v, s)
  | .error .. => none

theorem exists_of_outcome {ε σ α : Type} {r : EStateM.Result ε σ α} {p : α × σ → Bool}
    (h : (outcome? r).any p = true) : ∃ v s, r = .ok v s ∧ p (v, s) = true := by
  cases r with
  | ok v s => exact ⟨v, s, rfl, h⟩
  | error e s => cases h

/-- Why a computation fails, if it does. -/
def fault? {ε α : Type} : Except ε α → Option ε
  | .ok _ => none
  | .error e => some e

/-- A fault that was computed is a failure with this fault. -/
theorem eq_error_of_fault {ε α : Type} {x : Except ε α} {e : ε} (h : fault? x = some e) :
    x = .error e := by
  cases x with
  | ok v => cases h
  | error e' =>
    cases h
    rfl

theorem exists_of_toOption {ε α : Type} {x : Except ε α} {p : α → Bool}
    (h : x.toOption.any p = true) : ∃ v, x = .ok v ∧ p v = true := by
  cases x with
  | ok v => exact ⟨v, rfl, h⟩
  | error e => cases h

/-- One operation on a method body under construction. -/
inductive Operation where
  /-- A new label; locals from the limit on are out of scope there. -/
  | label (limit : Option Nat)
  | constant (constant : Constant)
  | push (i : Instruction) (types : OperandTypes)
  | branch (op : Opcode) (target : Label)
  | place (label : Label)
  | killLocals (first : Nat)
  | noteLocals (count : Nat)
  | generalize (type : FrameType)

namespace Operation

/-- The computation that an operation stands for. -/
def run : Operation → Assembling Unit
  | .label limit => do let _ ← Assembler.newLabel { limit }
  | .constant c => do let _ ← (ConstantPool.intern c).toAssembling
  | .push i types => Assembler.push i types
  | .branch op target => Assembler.branch op target
  | .place l => Assembler.place l
  | .killLocals first => Assembler.killLocals first
  | .noteLocals count => Assembler.noteLocals count
  | .generalize type => Assembler.generalize type

/-- Operations one after the other. -/
def runAll : List Operation → Assembling Unit
  | [] => pure ()
  | op :: ops => do
    op.run
    runAll ops

/-- Does the operation do nothing where control cannot be? -/
def needsControl : Operation → Bool
  | .push .. | .branch .. | .generalize _ => true
  | _ => false

/-- The operations that are not dropped, when they run one after the other. -/
def kept : Assembler → List Operation → List Operation
  | _, [] => []
  | a, o :: os =>
    let rest :=
      match o.run a with
      | .ok _ b => kept b os
      | .error .. => []
    if o.needsControl && !a.isReachable then rest else o :: rest

end Operation

/-- What two edges, each of which may be missing, agree on. -/
inductive Joins : Option Frame → Option Frame → Option Frame → Prop where
  | right (g : Option Frame) : Joins none g g
  | left (f : Frame) : Joins (some f) none (some f)
  | both {f g m : Frame} (h : f.merge g = some m) : Joins (some f) (some g) (some m)

namespace Joins

variable {x y z : Option Frame} {f : Frame}

/-- What the edges agree on accepts the first. -/
theorem accepts_left (h : Joins x y z) (hx : x = some f) :
    ∃ m, z = some m ∧ m.accepts f = true := by
  subst hx
  cases h with
  | left => exact ⟨f, rfl, f.accepts_refl⟩
  | both hm => exact ⟨_, rfl, (Frame.merge_accepts hm).1⟩

/-- What the edges agree on accepts the second. -/
theorem accepts_right (h : Joins x y z) (hy : y = some f) :
    ∃ m, z = some m ∧ m.accepts f = true := by
  subst hy
  cases h with
  | right => exact ⟨f, rfl, f.accepts_refl⟩
  | both hm => exact ⟨_, rfl, (Frame.merge_accepts hm).2⟩

theorem isSome_iff (h : Joins x y z) : z.isSome ↔ x.isSome ∨ y.isSome := by
  cases h <;> simp

end Joins

open Assembler in
/-- The assemblers that an operation leads to, when it succeeds. -/
inductive Advances : Operation → Assembler → Assembler → Prop where
  | label (limit : Option Nat) (a : Assembler) :
    Advances (.label limit) a { a with labels := a.labels.push { limit } }
  | constant {c : Constant} {index : UInt16} {pool : ConstantPool} {a : Assembler}
    (h : ConstantPool.intern c a.pool = .ok index pool) :
    Advances (.constant c) a { a with pool }
  | drop {o : Operation} {a : Assembler} (ho : o.needsControl = true) (hc : a.current = none) :
    Advances o a a
  | push {i : Instruction} {types : OperandTypes} {a : Assembler} {f next : Frame}
    (hc : a.current = some f) (hi : i.opcode.effect.isBranch = false)
    (hs : f.step a.instructions.size i types = .ok next) :
    Advances (.push i types) a
      { a with
        instructions := a.instructions.push i
        current := if i.opcode.effect.isUnconditional then none else some next
        maxStack := max a.maxStack next.stack.length
        maxLocals := max a.maxLocals next.locals.length }
  | jumpBack {op : Opcode} {target : Label} {a : Assembler} {f next there : Frame}
    {state : LabelState} {index : Nat} (hc : a.current = some f)
    (hs : f.step a.instructions.size (.branch op target .empty) .none = .ok next)
    (hl : a.labels[target.index]? = some state) (hp : state.placed = some index)
    (ht : a.placedFrames[index]? = some there) (ha : there.accepts (state.restrict next) = true) :
    Advances (.branch op target) a
      (pushJump op target next (state.restrict next)
        { a with
          current := some next
          labels := a.labels.setIfInBounds target.index { state with jumpedTo := true } })
  | jumpAhead {op : Opcode} {target : Label} {a : Assembler} {f next there : Frame}
    {state : LabelState} (hc : a.current = some f)
    (hs : f.step a.instructions.size (.branch op target .empty) .none = .ok next)
    (hl : a.labels[target.index]? = some state) (hp : state.placed = none)
    (hj : Joins state.frame (some (state.restrict next)) (some there)) :
    Advances (.branch op target) a
      (pushJump op target next (state.restrict next)
        { a with
          current := some next
          labels := a.labels.setIfInBounds target.index
            { state with jumpedTo := true, frame := some there } })
  | place {label : Label} {a : Assembler} {state : LabelState} {frame : Option Frame}
    (hl : a.labels[label.index]? = some state) (hp : state.placed = none)
    (hj : Joins (a.current.map state.restrict) state.frame frame) :
    Advances (.place label) a (a.settle label state frame)
  | killLocals (first : Nat) (a : Assembler) :
    Advances (.killLocals first) a { a with current := a.current.map (·.killLocals first) }
  | noteLocals (count : Nat) (a : Assembler) :
    Advances (.noteLocals count) a { a with maxLocals := max a.maxLocals count }
  | generalize {type : FrameType} {a : Assembler} {f next : Frame} (hc : a.current = some f)
    (hg : f.generalizeTop type = .ok next) :
    Advances (.generalize type) a { a with current := some next }

/-! ### Each operation does just that -/

theorem Interning.toAssembling_of_ok {α : Type} {x : Interning α} {a : Assembler} {v : α}
    {pool : ConstantPool} (h : x a.pool = .ok v pool) :
    x.toAssembling a = .ok v { a with pool } := by
  unfold Interning.toAssembling
  simp only [h]

theorem Interning.toAssembling_of_error {α : Type} {x : Interning α} {a : Assembler}
    {e : PoolOverflow} {pool : ConstantPool} (h : x a.pool = .error e pool) :
    x.toAssembling a = .error (.poolOverflow e) { a with pool } := by
  unfold Interning.toAssembling
  simp only [h]

/-- Adding constants succeeds in an assembler just if it does in its pool, and changes
nothing else. -/
theorem Interning.toAssembling_eq_ok {α : Type} {x : Interning α} {a b : Assembler} {v : α} :
    x.toAssembling a = .ok v b ↔ ∃ pool, x a.pool = .ok v pool ∧ b = { a with pool } := by
  constructor
  · intro h
    cases hx : x a.pool with
    | ok w pool =>
      rw [toAssembling_of_ok hx] at h
      cases h
      exact ⟨pool, rfl, rfl⟩
    | error e pool =>
      rw [toAssembling_of_error hx] at h
      cases h
  · rintro ⟨pool, hx, rfl⟩
    exact toAssembling_of_ok hx

namespace Operation

variable {a a' b : Assembler} {os : List Operation} {o : Operation}

/-- **An instruction is pushed just as said**: it runs in the current frame and is kept, or
control is not there and it is dropped. -/
theorem run_push_iff {i : Instruction} {types : OperandTypes} :
    Assembler.push i types a = .ok () a' ↔ Advances (.push i types) a a' := by
  constructor
  · intro h
    unfold Assembler.push at h
    split at h
    · rename_i hc
      cases h
      exact .drop rfl hc
    · rename_i f hc
      dsimp only at h
      split at h
      · cases h
      · rename_i hi
        split at h
        · cases h
        · rename_i next hs
          cases h
          exact .push hc (Bool.eq_false_iff.2 hi) hs
  · intro h
    unfold Assembler.push
    cases h with
    | drop _ hc => rw [hc]
    | push hc hi hs => simp only [hc, hi, hs, Bool.false_eq_true, if_false]

/-- **A branch is added just as said**: back to a frame that accepts what it carries, ahead
to be joined with other edges, or dropped. -/
theorem run_branch_iff {op : Opcode} {target : Label} :
    Assembler.branch op target a = .ok () a' ↔ Advances (.branch op target) a a' := by
  constructor
  · intro h
    unfold Assembler.branch at h
    split at h
    · rename_i hc
      cases h
      exact .drop rfl hc
    · rename_i f hc
      dsimp only at h
      split at h
      · cases h
      rename_i next hs
      split at h
      · cases h
      rename_i state hl
      split at h
      · rename_i index hp
        split at h
        · cases h
        rename_i there ht
        split at h
        · rename_i ha
          cases h
          exact .jumpBack hc hs hl hp ht ha
        · cases h
      · rename_i hp
        split at h
        · rename_i hf
          cases h
          exact .jumpAhead hc hs hl hp (hf ▸ .right _)
        · rename_i expected hf
          split at h
          · rename_i merged hm
            cases h
            exact .jumpAhead hc hs hl hp (hf ▸ .both hm)
          · cases h
  · intro h
    unfold Assembler.branch
    cases h with
    | drop _ hc => rw [hc]
    | jumpBack hc hs hl hp ht ha => simp only [hc, hs, hl, hp, ht, ha, if_true]
    | jumpAhead hc hs hl hp hj =>
      simp only [hc, hs, hl, hp]
      generalize hf : LabelState.frame _ = frame at hj
      cases hj with
      | right => rfl
      | both hm => simp only [hm]

/-- **A label is placed just as said**: once, with the frame on which the code above and the
branches to it agree. -/
theorem run_place_iff {label : Label} :
    Assembler.place label a = .ok () a' ↔ Advances (.place label) a a' := by
  constructor
  · intro h
    unfold Assembler.place at h
    split at h
    · cases h
    rename_i state hl
    split at h
    · cases h
    rename_i hp
    have hp : state.placed = none := by simpa using hp
    split at h
    · rename_i above jumped hc hf
      split at h
      · rename_i merged hm
        cases h
        exact .place hl hp (hc ▸ hf ▸ .both hm)
      · cases h
    · rename_i above hc hf
      cases h
      exact .place hl hp (by rw [hc, hf]; exact .left above)
    · rename_i frame hc
      cases h
      exact .place hl hp (hc ▸ .right _)
  · intro h
    unfold Assembler.place
    cases h with
    | drop ho => cases ho
    | place hl hp hj =>
      simp only [hl, hp, Option.isSome_none, Bool.false_eq_true, if_false]
      generalize Option.map _ a.current = above at hj
      generalize hf : LabelState.frame _ = frame at hj
      cases hj with
      | right => rfl
      | left => rfl
      | both hm => simp only [hm]

/-- A type is made more general just as said: at a reachable point, if the stack has such a
type on top. -/
theorem run_generalize_iff {type : FrameType} :
    Assembler.generalize type a = .ok () a' ↔ Advances (.generalize type) a a' := by
  constructor
  · intro h
    unfold Assembler.generalize at h
    split at h
    · rename_i hc
      cases h
      exact .drop rfl hc
    · rename_i f hc
      split at h
      · rename_i next hg
        cases h
        exact .generalize hc hg
      · cases h
  · intro h
    unfold Assembler.generalize
    cases h with
    | drop _ hc => rw [hc]
    | generalize hc hg => simp only [hc, hg]

/-- A constant is added just as said, whether control is there or not. -/
theorem run_constant_iff {c : Constant} :
    (Operation.constant c).run a = .ok () a' ↔ Advances (.constant c) a a' := by
  constructor
  · intro h
    obtain ⟨index, b, hintern, h⟩ := bind_eq_ok h
    cases h
    obtain ⟨pool, hpool, rfl⟩ := Interning.toAssembling_eq_ok.1 hintern
    exact .constant hpool
  · intro h
    cases h with
    | drop ho => cases ho
    | constant hi => exact bind_of_ok (Interning.toAssembling_eq_ok.2 ⟨_, hi, rfl⟩)

/-- **An operation that succeeds advances the assembler, and only so.** The relation lists
all ways in which this may happen, so that invariants are proved case by case and not by
unfolding the operations. -/
theorem run_eq_ok : o.run a = .ok () a' ↔ Advances o a a' := by
  cases o with
  | push i types => exact run_push_iff
  | branch op target => exact run_branch_iff
  | place label => exact run_place_iff
  | generalize type => exact run_generalize_iff
  | constant c => exact run_constant_iff
  | label limit =>
    constructor
    · intro h
      cases h
      exact .label limit a
    · intro h
      cases h with
      | drop ho => cases ho
      | label => rfl
  | killLocals first =>
    constructor
    · intro h
      cases h
      exact .killLocals first a
    · intro h
      cases h with
      | drop ho => cases ho
      | killLocals => rfl
  | noteLocals count =>
    constructor
    · intro h
      cases h
      exact .noteLocals count a
    · intro h
      cases h with
      | drop ho => cases ho
      | noteLocals => rfl

/-- A sequence of operations succeeds if each one does. -/
theorem runAll_cons {c : Assembler} :
    runAll (o :: os) a = .ok () c ↔ ∃ b, Advances o a b ∧ runAll os b = .ok () c := by
  constructor
  · intro h
    obtain ⟨_, b, ho, h⟩ := bind_eq_ok h
    exact ⟨b, run_eq_ok.1 ho, h⟩
  · rintro ⟨b, ho, h⟩
    exact (bind_of_ok (run_eq_ok.2 ho)).trans h

/-- Operations run one after the other, and the second part runs from where the first
ends. -/
theorem runAll_append {ps : List Operation} {c : Assembler} :
    runAll (os ++ ps) a = .ok () c ↔ ∃ b, runAll os a = .ok () b ∧ runAll ps b = .ok () c := by
  induction os generalizing a with
  | nil =>
    constructor
    · exact fun h => ⟨a, rfl, h⟩
    · rintro ⟨b, ⟨⟩, h⟩
      exact h
  | cons o os ih =>
    rw [List.cons_append, runAll_cons]
    constructor
    · rintro ⟨b, ho, h⟩
      obtain ⟨d, hd, h⟩ := ih.1 h
      exact ⟨d, runAll_cons.2 ⟨b, ho, hd⟩, h⟩
    · rintro ⟨d, hd, h⟩
      obtain ⟨b, ho, hd⟩ := runAll_cons.1 hd
      exact ⟨b, ho, ih.2 ⟨d, hd, h⟩⟩

theorem eq_of_dropped (h : Advances o a b) (ho : o.needsControl = true) (hc : a.current = none) :
    b = a := by
  cases h with
  | drop => rfl
  | label | constant | place | killLocals | noteLocals => cases ho
  | push hf | jumpBack hf | jumpAhead hf | generalize hf =>
    rw [hc] at hf
    cases hf

/-- The first operation is dropped, or it is the first of those that are kept. -/
theorem kept_cons (h : Advances o a b) (os : List Operation) :
    (b = a ∧ a.current = none ∧ kept a (o :: os) = kept b os) ∨
      kept a (o :: os) = o :: kept b os := by
  rw [kept, run_eq_ok.2 h]
  dsimp only
  split
  · rename_i hdropped
    rw [Bool.and_eq_true, Bool.not_eq_true', Assembler.isReachable, Option.isSome_eq_false_iff,
      Option.isNone_iff_eq_none] at hdropped
    exact .inl ⟨eq_of_dropped h hdropped.1 hdropped.2, hdropped.2, rfl⟩
  · exact .inr rfl

/-- What is kept was among the operations. -/
theorem mem_of_mem_kept (h : o ∈ kept a os) : o ∈ os := by
  induction os generalizing a with
  | nil => cases h
  | cons p os ih =>
    have hrest : o ∈ (match p.run a with
        | .ok _ b => kept b os
        | .error .. => []) → o ∈ os := by
      intro hmem
      split at hmem
      · exact ih hmem
      · cases hmem
    unfold kept at h
    dsimp only at h
    split at h
    · exact List.mem_cons_of_mem p (hrest h)
    · rcases List.mem_cons.1 h with rfl | h
      · exact List.mem_cons_self
      · exact List.mem_cons_of_mem p (hrest h)

/-- An invariant of the operations that are kept holds wherever they lead. -/
theorem runAll_induct_kept {P : Assembler → Prop} (hrun : runAll os a = .ok () b) (ha : P a)
    (hstep : ∀ o ∈ kept a os, ∀ x y, Advances o x y → P x → P y) : P b := by
  induction os generalizing a with
  | nil =>
    cases hrun
    exact ha
  | cons o os ih =>
    obtain ⟨x, hx, hrest⟩ := runAll_cons.1 hrun
    rcases kept_cons hx os with ⟨rfl, -, hkept⟩ | hkept
    · exact ih hrest ha (hkept ▸ hstep)
    · rw [hkept] at hstep
      exact ih hrest (hstep o List.mem_cons_self a x hx ha) fun p hp =>
        hstep p (List.mem_cons_of_mem o hp)

theorem runAll_induct {P : Assembler → Prop} (hrun : runAll os a = .ok () b) (ha : P a)
    (hstep : ∀ o ∈ os, ∀ x y, Advances o x y → P x → P y) : P b :=
  runAll_induct_kept hrun ha fun o ho => hstep o (mem_of_mem_kept ho)

end Operation

/-! ### The finished body -/

namespace Assembler

/-- A placement holds where the given labels stand, and the frames where branches
to them arrive. -/
structure Placement.Describes (a : Assembler) (states : List LabelState) (p : Placement) :
    Prop where
  positions : ∀ n : Nat, p.positions[n]? = states[n]?.bind (·.placed)
  branched : ∀ state ∈ states, state.jumpedTo = true →
    ∃ index f, state.placed = some index ∧ index < a.instructions.size ∧
      a.placedFrames[index]? = some f ∧ p.frames[index]? = some f
  frames : ∀ (index : Nat) (f : Frame), p.frames[index]? = some f →
    a.placedFrames[index]? = some f ∧
      ∃ state ∈ states, state.jumpedTo = true ∧ state.placed = some index

namespace Placement

variable {a : Assembler} {states : List LabelState} {state : LabelState} {p q : Placement}

theorem describes_nil (a : Assembler) : Describes a [] {} where
  positions n := by simp
  branched state h := nomatch h
  frames index f h := by simp at h

/-- Where one more label stands. -/
theorem placed_concat (states : List LabelState) (state : LabelState) (n : Nat) :
    (states ++ [state])[n]?.bind (·.placed) =
      if n = states.length then state.placed else states[n]?.bind (·.placed) := by
  split
  · rename_i hn
    rw [hn, List.getElem?_concat_length, Option.bind_some]
  · rename_i hn
    rcases Nat.lt_or_gt_of_ne hn with hlt | hgt
    · rw [List.getElem?_append_left hlt]
    · rw [List.getElem?_eq_none (by rw [List.length_append, List.length_singleton]; omega),
        List.getElem?_eq_none (by omega)]

theorem Describes.positions_insert (h : Describes a states p) {index : Nat}
    (hp : state.placed = some index) (n : Nat) :
    (p.positions.insert states.length index)[n]? = (states ++ [state])[n]?.bind (·.placed) := by
  rw [Std.TreeMap.getElem?_insert, placed_concat, h.positions, hp]
  simp only [Nat.compare_eq_eq, eq_comm (a := n)]

/-- One more label that is not branched to adds no frame. -/
theorem Describes.concat (h : Describes a states p) (hj : state.jumpedTo = false)
    {positions : Std.TreeMap Nat Nat}
    (hpos : ∀ n : Nat, positions[n]? = (states ++ [state])[n]?.bind (·.placed)) :
    Describes a (states ++ [state]) ⟨positions, p.frames⟩ where
  positions := hpos
  branched s hs hsj := by
    rw [List.mem_append, List.mem_singleton] at hs
    rcases hs with hs | rfl
    · exact h.branched s hs hsj
    · rw [hj] at hsj
      cases hsj
  frames m g hg := by
    obtain ⟨hm, s, hs, hsj⟩ := h.frames m g hg
    exact ⟨hm, s, List.mem_append_left _ hs, hsj⟩

/-- One more label that is branched to adds the frame where it stands. -/
theorem Describes.concat_branched (h : Describes a states p) {index : Nat} {f : Frame}
    (hj : state.jumpedTo = true) (hp : state.placed = some index)
    (hi : index < a.instructions.size) (hf : a.placedFrames[index]? = some f) :
    Describes a (states ++ [state])
      ⟨p.positions.insert states.length index, p.frames.insert index f⟩ where
  positions := h.positions_insert hp
  branched s hs hsj := by
    rw [List.mem_append, List.mem_singleton] at hs
    rcases hs with hs | rfl
    · obtain ⟨m, g, hm, hlt, hg, hpg⟩ := h.branched s hs hsj
      refine ⟨m, g, hm, hlt, hg, ?_⟩
      rw [Std.TreeMap.getElem?_insert]
      split
      · rename_i heq
        rw [← hf, ← hg, Nat.compare_eq_eq.1 heq]
      · exact hpg
    · exact ⟨index, f, hp, hi, hf, Std.TreeMap.getElem?_insert_self⟩
  frames m g hg := by
    rw [Std.TreeMap.getElem?_insert] at hg
    split at hg
    · rename_i heq
      obtain rfl := Nat.compare_eq_eq.1 heq
      cases hg
      exact ⟨hf, state, by simp, hj, hp⟩
    · obtain ⟨hm, s, hs, hsj⟩ := h.frames m g hg
      exact ⟨hm, s, List.mem_append_left _ hs, hsj⟩

/-- Adding a label describes one label more. -/
theorem Describes.add (h : Describes a states p) (hq : p.add a ⟨states.length⟩ state = .ok q) :
    Describes a (states ++ [state]) q := by
  unfold Placement.add at hq
  split at hq
  · rename_i index hp
    dsimp only at hq
    split at hq
    · rename_i hj
      split at hq
      · cases hq
      rename_i hsize
      split at hq
      · cases hq
      rename_i f hf
      cases hq
      exact h.concat_branched hj hp (Nat.lt_of_not_le hsize) hf
    · rename_i hj
      cases hq
      exact h.concat (Bool.eq_false_iff.2 hj) (h.positions_insert hp)
  · rename_i hp
    split at hq
    · cases hq
    rename_i hj
    cases hq
    refine h.concat (Bool.eq_false_iff.2 hj) fun n => ?_
    rw [placed_concat, hp, h.positions]
    split
    · rename_i hn
      rw [hn, List.getElem?_eq_none Nat.le.refl, Option.bind_none]
    · rfl

/-- Adding labels one after the other describes them all. -/
theorem Describes.addFrom {more : List LabelState} (h : Describes a states p)
    (hq : p.addFrom a states.length more = .ok q) : Describes a (states ++ more) q := by
  induction more generalizing states p with
  | nil =>
    cases hq
    rwa [List.append_nil]
  | cons state more ih =>
    unfold Placement.addFrom at hq
    split at hq
    · rename_i p' hp'
      rw [List.append_cons]
      refine ih (h.add hp') ?_
      rwa [List.length_append, List.length_singleton]
    · cases hq

end Placement

/-- **A body is finished where control cannot be**, with the positions of all
labels and the frames of those that are branched to, each of which stands at an
instruction. -/
theorem finish_eq_ok {a : Assembler} {b : Body} (h : a.finish = .ok b) :
    a.current = none ∧ Placement.Describes a a.labels.toList ⟨b.labels, b.frames⟩ ∧
      b.instructions = a.instructions ∧ b.entry = a.entry ∧ b.maxStack = a.maxStack ∧
      b.maxLocals = a.maxLocals := by
  unfold finish at h
  split at h
  · cases h
  rename_i hc
  split at h
  · cases h
  rename_i p hp
  cases h
  have hall : Placement.Describes a ([] ++ a.labels.toList) p :=
    (Placement.describes_nil a).addFrom hp
  exact ⟨by simpa using hc, hall, rfl, rfl, rfl, rfl⟩

end Assembler
end ClassForge
