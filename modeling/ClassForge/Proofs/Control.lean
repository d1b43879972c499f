/-
# Following control through code under construction

While code is made, a run of the finished code is followed: the run is at the point
where the next instruction will stand, on its way to a label, or over (`Control`).
A triple `Goes W P Q x e e'` says what a computation that makes code does to this:
if the run is at `e` before the code of `x`, it is at `e'` behind it.

| code | control before | control behind |
| --- | --- | --- |
| an instruction | here | here, or the method is left |
| a branch | here | on the way to its label if it is taken, else here |
| a label | on the way to it, or here | here |
| any code | away | where it was |

The last line is why triples chain so easily: code that is jumped over needs no
thought, and code that is dropped since control cannot be there is never reached.
The finished code is fixed (`Whole`); the code made so far is part of it.
-/

import ClassForge.Proofs.Machine
import ClassForge.Proofs.Scope

namespace ClassForge

open Machine

/-! ### The finished code -/

namespace Assembler

/-- The instructions by their numbers. -/
def fetch (a : Assembler) : Fetch := fun n =>
  a.instructions[n]?.map fun i =>
    { opcode := i.opcode, wide := i.wide, operands := i.operands, next := n + 1,
      destination := i.target?.bind a.position }

/-- Control may come to a label: unless it is placed, an edge leads to it. -/
def Reaches (a : Assembler) (l : Label) : Prop :=
  ∃ state, a.labels[l.index]? = some state ∧ (state.placed = none → state.frame.isSome = true)

variable {a b : Assembler} {l : Label}

theorem Reaches.grows (h : a.Reaches l) (hab : a.Grows b) : b.Reaches l := by
  obtain ⟨state, hl, hframe⟩ := h
  obtain ⟨state', hl', hgrows⟩ := hab.labels l.index state hl
  refine ⟨state', hl', fun hplaced => hgrows.frame (hframe ?_)⟩
  cases hp : state.placed with
  | none => rfl
  | some n =>
    rw [hgrows.placed n hp] at hplaced
    cases hplaced

end Assembler

/-- Finished code, with the integers among the constants of its class.  Every label
that is branched to is placed. -/
structure Whole where
  assembler : Assembler
  constants : Constants
  placed : ∀ (n : Nat) (state : LabelState), assembler.labels[n]? = some state →
    state.jumpedTo = true → ∃ index, state.placed = some index
  integers : ∀ (index : UInt16) (v : Int32), assembler.pool.get? index = some (.integer v) →
    constants index = some v

/-- Where the run of the finished code is. -/
inductive Control where
  /-- At the current point, with a memory that has the property. -/
  | here (M : Memory → Prop)
  /-- On its way to a label. -/
  | label (l : Label) (M : Memory → Prop)
  /-- The method is left. -/
  | left (v : Option Int32)

namespace Control

/-- The run is not at the current point. -/
def IsAway : Control → Prop
  | .here M => ∀ m, ¬ M m
  | _ => True

/-- The first says more than the second. -/
inductive Implies : Control → Control → Prop where
  | here {M N : Memory → Prop} (h : ∀ m, M m → N m) : Implies (.here M) (.here N)
  | label {l : Label} {M N : Memory → Prop} (h : ∀ m, M m → N m) :
    Implies (.label l M) (.label l N)
  | left (v : Option Int32) : Implies (.left v) (.left v)

end Control

/-- The run that started at `c` is where `e` says, as seen from code made so far. -/
def Whole.At (W : Whole) (c : Config) (a : Assembler) : Control → Prop
  | .here M => a.isReachable = true ∧
    ∃ m, M m ∧ Steps W.assembler.fetch W.constants c ⟨a.instructions.size, m⟩
  | .label l M => a.Reaches l ∧ ∃ n m, W.assembler.position l = some n ∧ M m ∧
    Steps W.assembler.fetch W.constants c ⟨n, m⟩
  | .left v => Returns W.assembler.fetch W.constants c v

namespace Whole

variable {W : Whole} {c : Config} {a b : Assembler} {e e' : Control}

theorem At.implies (h : W.At c a e) (he : e.Implies e') : W.At c a e' := by
  cases he with
  | here hM =>
    obtain ⟨hreach, m, hm, hsteps⟩ := h
    exact ⟨hreach, m, hM m hm, hsteps⟩
  | label hM =>
    obtain ⟨hreach, n, m, hn, hm, hsteps⟩ := h
    exact ⟨hreach, n, m, hn, hM m hm, hsteps⟩
  | left => exact h

/-- Code that control does not come to changes nothing. -/
theorem At.grows (h : W.At c a e) (he : e.IsAway) (hab : a.Grows b) : W.At c b e := by
  cases e with
  | here M =>
    obtain ⟨_, m, hm, _⟩ := h
    exact absurd hm (he m)
  | label l M => exact ⟨h.1.grows hab, h.2⟩
  | left v => exact h

/-- An operation that leaves the current point alone. -/
theorem At.of_eq (h : W.At c a e) (hab : a.Grows b)
    (hsize : b.instructions.size = a.instructions.size)
    (hreach : a.isReachable = true → b.isReachable = true) : W.At c b e := by
  cases e with
  | here M =>
    obtain ⟨ha, m, hm, hsteps⟩ := h
    exact ⟨hreach ha, m, hm, hsize ▸ hsteps⟩
  | label l M => exact h.grows trivial hab
  | left v => exact h

theorem At.arrive {l : Label} {M : Memory → Prop} (h : W.At c a (.label l M))
    (hposition : W.assembler.position l = some b.instructions.size)
    (hreach : b.isReachable = true) : W.At c b (.here M) := by
  obtain ⟨_, n, m, hn, hm, hsteps⟩ := h
  rw [hposition] at hn
  cases hn
  exact ⟨hreach, m, hm, hsteps⟩

end Whole

namespace Lowering

variable {W : Whole} {α β : Type} {P Q R : LocalSlots → Prop} {e e' e'' : Control}
  {i : Instruction} {M N : Memory → Prop} {op : Opcode}

/-- **What the code of a computation does to control.** -/
structure Goes (W : Whole) (P Q : LocalSlots → Prop) (x : Lowering α) (e e' : Control) :
    Prop where
  tracks : Tracks P Q x
  goes : ∀ (c : Config) (slots : LocalSlots) (a : Assembler) (v : α) (slots' : LocalSlots)
    (b : Assembler), P slots → x slots a = .ok (v, slots') b → b.Grows W.assembler →
      W.At c a e → W.At c b e'

namespace Goes

variable {x : Lowering α} {f : α → Lowering β}

/-- Code behind other code. -/
theorem bind (hx : Goes W P Q x e e') (hf : ∀ v, Goes W Q R (f v) e' e'') :
    Goes W P R (x >>= f) e e'' where
  tracks := hx.tracks.bind fun v => (hf v).tracks
  goes c slots a w slots' d hP h hgrows ha := by
    obtain ⟨v, slots'', b, hv, h⟩ := bind_eq_ok h
    obtain ⟨-, hQ⟩ := hx.tracks slots a v slots'' b hP hv
    have hbd := ((hf v).tracks slots'' b w slots' d hQ h).1.grows
    have hb := hx.goes c slots a v slots'' b hP hv (hbd.trans hgrows) ha
    exact (hf v).goes c slots'' b w slots' d hQ h hgrows hb

/-- Code behind other code, whose result is known. -/
theorem bind_value {v : α} (hx : Goes W P Q x e e')
    (hv : ∀ slots a w slots' b, P slots → x slots a = .ok (w, slots') b → w = v)
    (hf : Goes W Q R (f v) e' e'') : Goes W P R (x >>= f) e e'' := by
  have hbind : Goes W P R (x >>= fun _ => f v) e e'' := hx.bind fun _ => hf
  have heq : ∀ slots a r c, P slots → (x >>= f) slots a = .ok r c →
      (x >>= fun _ => f v) slots a = .ok r c := by
    intro slots a r c hP h
    obtain ⟨w, slots', b, hw, h⟩ := bind_eq_ok h
    rw [bind_of_ok hw, ← hv slots a w slots' b hP hw]
    exact h
  exact ⟨fun slots a w slots' b hP h => hbind.tracks slots a w slots' b hP (heq _ _ _ _ hP h),
    fun c slots a w slots' b hP h => hbind.goes c slots a w slots' b hP (heq _ _ _ _ hP h)⟩

theorem congr {y : Lowering α} (h : ∀ slots a, P slots → x slots a = y slots a)
    (hy : Goes W P Q y e e') : Goes W P Q x e e' where
  tracks slots a v slots' b hP hx := hy.tracks slots a v slots' b hP (h slots a hP ▸ hx)
  goes c slots a v slots' b hP hx := hy.goes c slots a v slots' b hP (h slots a hP ▸ hx)

theorem implies (h : Goes W P Q x e e') (he : e'.Implies e'') : Goes W P Q x e e'' where
  tracks := h.tracks
  goes c slots a v slots' b hP hx hgrows ha :=
    (h.goes c slots a v slots' b hP hx hgrows ha).implies he

theorem away (h : Tracks P Q x) (he : e.IsAway) : Goes W P Q x e e where
  tracks := h
  goes _ slots a v slots' b hP hx _ ha := ha.grows he (h slots a v slots' b hP hx).1.grows

/-- Code that is never made. -/
theorem never (h : ∀ slots a v slots' b, P slots → x slots a ≠ .ok (v, slots') b) :
    Goes W P Q x e e' where
  tracks slots a v slots' b hP hx := absurd hx (h slots a v slots' b hP)
  goes _ slots a v slots' b hP hx := absurd hx (h slots a v slots' b hP)

end Goes

theorem Goes.of_emits {x : Lowering α} (hx : Emits x) (hPQ : ∀ slots, P slots → Q slots)
    (h : Goes W Q Q x e e') : Goes W P P x e e' where
  tracks := hx.tracks P
  goes c slots a v slots' b hP := h.goes c slots a v slots' b (hPQ slots hP)

theorem Tracks.goes_past {x : Lowering α} (h : Tracks P Q x) {l : Label} :
    Goes W P Q x (.label l M) (.label l M) :=
  .away h trivial

theorem Emits.goes_past {x : Lowering α} (h : Emits x) {l : Label} :
    Goes W P P x (.label l M) (.label l M) :=
  (h.tracks P).goes_past

theorem goes_pure (v : α) : Goes W P P (pure v : Lowering α) e e where
  tracks := (emits_pure v).tracks P
  goes c slots a w slots' b _ hx _ ha := by
    cases hx
    exact ha

theorem goes_modify {f : LocalSlots → LocalSlots} (h : ∀ slots, P slots → Q (f slots)) :
    Goes W P Q (modify f : Lowering Unit) e e where
  tracks := tracks_modify h
  goes c slots a w slots' b _ hx _ ha := by
    cases hx
    exact ha

theorem goes_nextSlot : Goes W P P nextSlot e e where
  tracks := tracks_nextSlot P
  goes c slots a w slots' b _ hx _ ha := by
    cases hx
    exact ha

/-- What is found is known. -/
theorem goes_lookup {id : LocalId} {found : UInt16 × FieldType}
    {f : UInt16 × FieldType → Lowering β}
    (hfound : ∀ slots, P slots → slots.lookup? id = some found)
    (hf : Goes W P Q (f found) e e') : Goes W P Q (lookup id >>= f) e e' := by
  refine hf.congr fun slots a hP => bind_of_ok ?_
  unfold lookup
  rw [hfound slots hP]

theorem goes_of_eq {x : Assembling α} (hx : x.Primitive)
    (h : ∀ a v b, x a = .ok v b → b.instructions.size = a.instructions.size ∧
      (a.isReachable = true → b.isReachable = true)) : Goes W P P (emit x) e e where
  tracks := (emits_emit hx).tracks P
  goes c slots a v slots' b _ hrun _ ha := by
    have hv := (emit_eq_ok hrun).1
    exact ha.of_eq (hx.builds a v b hv).grows (h a v b hv).1 (h a v b hv).2

theorem goes_newLabel (limit : Option Nat) :
    Goes W P P (emit (Assembler.newLabel { limit })) e e := by
  refine goes_of_eq (.newLabel limit) fun a v b h => ?_
  cases h
  exact ⟨rfl, id⟩

theorem goes_killLocals (first : Nat) : Goes W P P (emit (Assembler.killLocals first)) e e := by
  refine goes_of_eq (.common (.killLocals first)) fun a v b h => ?_
  cases h
  exact ⟨rfl, fun hreach => by simpa [Assembler.isReachable] using hreach⟩

/-- Opening and leaving a block changes nothing for control. -/
theorem goes_inBlock {reserved first : Nat} {Γ : Context} {outer : List Scope} (Γ' : Context)
    {x : Lowering Unit}
    (h : ∀ outer, Goes W (·.Models reserved Γ Γ.length outer)
      (·.Models reserved (Γ ++ Γ') Γ.length outer) x e e') :
    Goes W (·.Models reserved Γ first outer) (·.Models reserved Γ first outer) (inBlock x)
      e e' where
  tracks := tracks_inBlock Γ' fun outer => (h outer).tracks
  goes c slots a v slots' b hs hx hgrows ha := by
    have hinner : Goes W (· = slots) (·.Models reserved Γ first outer) (inBlock x) e e' := by
      refine (goes_modify (Q := (·.Models reserved Γ Γ.length slots.scopes)) ?_).bind fun _ =>
        (h slots.scopes).bind fun _ => (goes_modify fun s' hs' => hs.exit hs').bind fun _ =>
          goes_nextSlot.bind fun _ => goes_killLocals _
      rintro s rfl
      exact hs.enter
    exact hinner.goes c slots a v slots' b rfl hx hgrows ha

/-- Control goes on behind a label. -/
theorem goes_place (l : Label) : Goes W P P (emit (Assembler.place l)) e e := by
  refine goes_of_eq (.place l) fun a v b h => ?_
  cases Operation.run_place_iff.1 h with
  | drop ho => cases ho
  | place hl hp hj =>
    refine ⟨rfl, fun hreach => hj.isSome_iff.2 (.inl ?_)⟩
    rw [Option.isSome_map]
    exact hreach

/-- **Control that is on its way to a label goes on where the label is placed.** -/
theorem goes_arrive (l : Label) (M : Memory → Prop) :
    Goes W P P (emit (Assembler.place l)) (.label l M) (.here M) where
  tracks := (emits_place l).tracks P
  goes c slots a v slots' b _ hrun hgrows ha := by
    cases Operation.run_place_iff.1 (emit_eq_ok hrun).1 with
    | drop ho => cases ho
    | place hl hp hj =>
      obtain ⟨state, hstate, hframe⟩ := ha.1
      rw [hl] at hstate
      cases hstate
      refine ha.arrive (Assembler.position_grows (Assembler.position_settle hl _) hgrows) ?_
      exact hj.isSome_iff.2 (.inr (hframe hp))

/-- The instruction that is added next, once the code is finished. -/
theorem fetch_of_push {a b : Assembler} (hb : b.instructions = a.instructions.push i)
    (hgrows : b.Grows W.assembler) :
    W.assembler.fetch a.instructions.size =
      some ⟨i.opcode, i.wide, i.operands, a.instructions.size + 1,
        i.target?.bind W.assembler.position⟩ := by
  have hi : b.instructions[a.instructions.size]? = some i := by
    rw [hb]
    exact Array.getElem?_push_size
  unfold Assembler.fetch
  rw [hgrows.instructions _ i hi]
  rfl

/-- **An instruction that goes on with the next one.** -/
theorem goes_push (hi : i.Plain) {types : OperandTypes} (hexec : ∀ slots m, P slots → M m →
      ∃ m', exec W.constants i.opcode i.wide i.operands m = some (.go m') ∧ N m') :
    Goes W P P (emit (Assembler.push i types)) (.here M) (.here N) where
  tracks := tracks_emit (Assembler.builds_push hi types) P
  goes c slots a v slots' b hP hrun hgrows ha := by
    obtain ⟨hreach, m, hm, hsteps⟩ := ha
    cases Operation.run_push_iff.1 (emit_eq_ok hrun).1 with
    | drop ho hc =>
      rw [Assembler.isReachable, hc] at hreach
      cases hreach
    | push hc hb hs =>
      obtain ⟨m', hgo, hN⟩ := hexec slots m hP hm
      refine ⟨?_, m', hN, hsteps.trans (.single ?_)⟩
      · rw [Assembler.isReachable, effect_of_go hgo]
        rfl
      · rw [Array.size_push]
        exact Step.go (fetch_of_push rfl hgrows) hgo

/-- **An instruction that leaves the method.** -/
theorem goes_exit (hi : i.Plain) {types : OperandTypes} {v : Option Int32}
    (hexec : ∀ m, M m → exec W.constants i.opcode i.wide i.operands m = some (.leave v)) :
    Goes W P P (emit (Assembler.push i types)) (.here M) (.left v) where
  tracks := tracks_emit (Assembler.builds_push hi types) P
  goes c slots a _ slots' b hP hrun hgrows ha := by
    obtain ⟨hreach, m, hm, hsteps⟩ := ha
    cases Operation.run_push_iff.1 (emit_eq_ok hrun).1 with
    | drop ho hc =>
      rw [Assembler.isReachable, hc] at hreach
      cases hreach
    | push hc hb hs =>
      exact hsteps.returns (.leave (fetch_of_push rfl hgrows) (hexec m hm))

/-- A branch is there, and its label is known to be branched to. -/
theorem branch_added {target : Label} {a b : Assembler} (h : Advances (.branch op target) a b)
    (hreach : a.isReachable = true) :
    ∃ arriving, b.instructions = a.instructions.push (.branch op target arriving) ∧
      (op.effect ≠ .goto → b.isReachable = true) ∧
      ∃ state, b.labels[target.index]? = some state ∧ state.jumpedTo = true ∧
        (state.placed = none → state.frame.isSome = true) := by
  cases h with
  | drop ho hc =>
    rw [Assembler.isReachable, hc] at hreach
    cases hreach
  | jumpBack hc hs hl hp ht hacc =>
    refine ⟨_, rfl, fun hop => ?_, _, Assembler.getElem?_setLabel hl _, rfl, fun hnone => ?_⟩
    · simp [Assembler.isReachable, Assembler.pushJump, hop]
    · rw [hp] at hnone
      cases hnone
  | jumpAhead hc hs hl hp hj =>
    refine ⟨_, rfl, fun hop => ?_, _, Assembler.getElem?_setLabel hl _, rfl, fun _ => rfl⟩
    simp [Assembler.isReachable, Assembler.pushJump, hop]

/-- **A branch that is taken.** -/
theorem goes_jump (hop : op.effect.isBranch = true) (target : Label)
    (hexec : ∀ m, M m → ∃ m', exec W.constants op false [0, 0] m = some (.jump m') ∧ N m') :
    Goes W P P (emit (Assembler.branch op target)) (.here M) (.label target N) where
  tracks := (emits_branch hop target).tracks P
  goes c slots a v slots' b hP hrun hgrows ha := by
    obtain ⟨hreach, m, hm, hsteps⟩ := ha
    obtain ⟨arriving, hb, -, state, hstate, hjumped, hframe⟩ :=
      branch_added (Operation.run_branch_iff.1 (emit_eq_ok hrun).1) hreach
    obtain ⟨m', hjump, hN⟩ := hexec m hm
    -- the finished code has placed the label
    obtain ⟨state', hstate', hstates⟩ := hgrows.labels target.index state hstate
    obtain ⟨n, hn⟩ := W.placed target.index state' hstate' (hstates.jumpedTo hjumped)
    have hposition : W.assembler.position target = some n :=
      Option.bind_eq_some_iff.2 ⟨state', hstate', hn⟩
    refine ⟨⟨state, hstate, hframe⟩, n, m', hposition, hN, hsteps.trans (.single ?_)⟩
    exact Step.jump (fetch_of_push hb hgrows) hjump hposition

/-- **A branch that is not taken.** -/
theorem goes_fall (hop : op.effect.isBranch = true) (hgoto : op.effect ≠ .goto) (target : Label)
    (hexec : ∀ m, M m → ∃ m', exec W.constants op false [0, 0] m = some (.go m') ∧ N m') :
    Goes W P P (emit (Assembler.branch op target)) (.here M) (.here N) where
  tracks := (emits_branch hop target).tracks P
  goes c slots a v slots' b hP hrun hgrows ha := by
    obtain ⟨hreach, m, hm, hsteps⟩ := ha
    obtain ⟨arriving, hb, hb', -⟩ :=
      branch_added (Operation.run_branch_iff.1 (emit_eq_ok hrun).1) hreach
    obtain ⟨m', hgo, hN⟩ := hexec m hm
    refine ⟨hb' hgoto, m', hN, hsteps.trans (.single ?_)⟩
    rw [hb, Array.size_push]
    exact Step.go (fetch_of_push hb hgrows) hgo

end Lowering
end ClassForge
