/-
# Processors

A processor has a stack and some other state.  What the other state is, and what most
instructions do, is left open: here only the instructions matter that conditions are made
of (`Processor.work?`, `Processor.branch?`).  A test may leave something behind in the
other state, so that a run can be seen to make it.

While code is made, a run of the finished code is followed.  The run is at the point where
the next instruction will stand, or on its way to a label (`Processor.Spot`), and it has
stayed in the code made since it started (`Processor.At`).  A triple
`p.Follows W slots x e e'` says that the code of `x` takes the run from `e` to `e'`.
-/

import ClassForge.Proofs.Comparison
import ClassForge.Proofs.Control

namespace ClassForge

/-! ### Processors -/

/-- The stack, and all that there is beside it. -/
structure Processor.State (R : Type) where
  stack : List Datum
  rest : R

/-- What an instruction does. -/
inductive Processor.Action (R : Type) where
  /-- Control goes on with the next instruction. -/
  | go (s : Processor.State R)
  /-- Control goes to the destination of the instruction. -/
  | jump (s : Processor.State R)

/-- A processor with more state than its stack. -/
structure Processor (R : Type) where
  /-- The floating point number that an integer is rounded to. -/
  round : Int32 → Binary32
  /-- What a test leaves behind. -/
  test : R → R
  /-- What the instructions do that no condition is made of. -/
  other : Opcode → Bool → Bytes → Processor.State R → Option (Processor.Action R)

namespace Processor

variable {R : Type}

/-- What an instruction does; none if it is stuck. -/
def exec (p : Processor R) (op : Opcode) (wide : Bool) (operands : Bytes) (s : State R) :
    Option (Action R) :=
  match op with
  | .goto => some (.jump s)
  | .ifeq | .ifne | .iflt | .ifge | .ifgt | .ifle | .ifIcmpeq | .ifIcmpne | .ifIcmplt | .ifIcmpge
  | .ifIcmpgt | .ifIcmple | .ifAcmpeq | .ifAcmpne | .ifnull | .ifnonnull => do
    let (taken, stack) ← branch? op s.stack
    some (if taken then .jump ⟨stack, p.test s.rest⟩ else .go ⟨stack, p.test s.rest⟩)
  | .aconstNull | .iconst0 | .iconst1 | .i2f | .fcmpl | .fcmpg => do
    let stack ← work? p.round op s.stack
    some (.go ⟨stack, s.rest⟩)
  | _ => p.other op wide operands s

/-- The address of the current instruction, and the state. -/
structure Config (R : Type) where
  pc : Nat
  state : State R

/-- Where an action leads from an instruction. -/
def Action.next? (i : Machine.Fetched) : Action R → Option (Config R)
  | .go s => some ⟨i.next, s⟩
  | .jump s => i.destination.map fun n => ⟨n, s⟩

/-- One instruction. -/
def step? (p : Processor R) (fetch : Machine.Fetch) (c : Config R) : Option (Config R) := do
  let i ← fetch c.pc
  let action ← p.exec i.opcode i.wide i.operands c.state
  action.next? i

/-- Instructions one after the other, with addresses from `first` up to `last`. -/
inductive Steps (p : Processor R) (fetch : Machine.Fetch) (first last : Nat) :
    Config R → Config R → Prop where
  | refl (c : Config R) : Steps p fetch first last c c
  | head {c d e : Config R} (hfirst : first ≤ c.pc) (hlast : c.pc < last)
    (h : p.step? fetch c = some d) (hs : Steps p fetch first last d e) :
    Steps p fetch first last c e

section Steps

variable {p : Processor R} {fetch : Machine.Fetch} {first last n : Nat} {c d e : Config R}
  {i : Machine.Fetched} {s s' : State R}

theorem step?_go (hi : fetch n = some i)
    (h : p.exec i.opcode i.wide i.operands s = some (.go s')) :
    p.step? fetch ⟨n, s⟩ = some ⟨i.next, s'⟩ := by
  simp only [step?, hi, h, Option.bind_eq_bind, Option.bind_some, Action.next?]

theorem step?_jump {m : Nat} (hi : fetch n = some i)
    (h : p.exec i.opcode i.wide i.operands s = some (.jump s'))
    (hm : i.destination = some m) : p.step? fetch ⟨n, s⟩ = some ⟨m, s'⟩ := by
  simp only [step?, hi, h, Option.bind_eq_bind, Option.bind_some, Action.next?, hm,
    Option.map_some]

theorem Steps.trans (hcd : Steps p fetch first last c d) (hde : Steps p fetch first last d e) :
    Steps p fetch first last c e := by
  induction hcd with
  | refl => exact hde
  | head hfirst hlast h _ ih => exact .head hfirst hlast h (ih hde)

theorem Steps.mono {first' last' : Nat} (h : Steps p fetch first last c d)
    (hfirst : first' ≤ first) (hlast : last ≤ last') : Steps p fetch first' last' c d := by
  induction h with
  | refl => exact .refl _
  | head hf hl h _ ih =>
    exact .head (Nat.le_trans hfirst hf) (Nat.lt_of_lt_of_le hl hlast) h ih

theorem Steps.concat (h : Steps p fetch first n c ⟨n, s⟩) (hfirst : first ≤ n)
    (hstep : p.step? fetch ⟨n, s⟩ = some d) : Steps p fetch first (n + 1) c d :=
  (h.mono Nat.le.refl (Nat.le_succ n)).trans (.head hfirst (Nat.lt_succ_self n) hstep (.refl d))

end Steps

/-! ### What the instructions of conditions do -/

section Instructions

variable {p : Processor R} {op : Opcode} {S S' : List Datum}

theorem exec_branch {taken : Bool} (h : branch? op S = some (taken, S')) (wide : Bool)
    (operands : Bytes) (r : R) :
    p.exec op wide operands ⟨S, r⟩ =
      some (if taken then .jump ⟨S', p.test r⟩ else .go ⟨S', p.test r⟩) := by
  have hexec : p.exec op wide operands ⟨S, r⟩ = (branch? op S).bind fun next =>
      some (if next.1 then .jump ⟨next.2, p.test r⟩ else .go ⟨next.2, p.test r⟩) := by
    unfold branch? at h
    split at h <;> first | rfl | cases h
  rw [hexec, h]
  rfl

theorem exec_work (h : work? p.round op S = some S') (wide : Bool) (operands : Bytes) (r : R) :
    p.exec op wide operands ⟨S, r⟩ = some (.go ⟨S', r⟩) := by
  have hexec : p.exec op wide operands ⟨S, r⟩ = (work? p.round op S).bind fun next =>
      some (.go ⟨next, r⟩) := by
    unfold work? at h
    split at h <;> first | rfl | cases h
  rw [hexec, h]
  rfl

theorem effect_of_work? {round : Int32 → Binary32} (h : work? round op S = some S') :
    op.operandBytes = 0 ∧ op.effect.isUnconditional = false := by
  unfold work? at h
  split at h <;> first | exact ⟨rfl, rfl⟩ | cases h

end Instructions

/-! ### Following the processor through code under construction

`Follows` goes along with the parts of the code; there is one rule for each operation. -/

/-- Where the processor is. -/
inductive Spot (R : Type) where
  /-- At the current point. -/
  | here (s : State R)
  /-- On its way to a label. -/
  | label (l : Label) (s : State R)

/-- On the way to a label, or at the current point. -/
def Spot.jumping (taken : Bool) (l : Label) (s : State R) : Spot R :=
  if taken then .label l s else .here s

/-- On the way to a label if the result of a condition is the given outcome. -/
def Spot.decided (outcome : Bool) (l : Label) (S : List Datum) (result : Bool × R) : Spot R :=
  .jumping (result.1 == outcome) l ⟨S, result.2⟩

/-- The run that started at `c` has stayed in the code made since, and is where `e` says. -/
def At (p : Processor R) (W : Whole) (c : Config R) (a : Assembler) (e : Spot R) : Prop :=
  c.pc ≤ a.instructions.size ∧
    match e with
    | .here s => a.isReachable = true ∧
      p.Steps W.assembler.fetch c.pc a.instructions.size c ⟨a.instructions.size, s⟩
    | .label l s => a.Reaches l ∧ ∃ n, W.assembler.position l = some n ∧
      p.Steps W.assembler.fetch c.pc a.instructions.size c ⟨n, s⟩

/-- From the start of the code made between `a` and `b` the processor comes to an address,
by instructions of this code alone. -/
def Crosses (p : Processor R) (W : Whole) (a b : Assembler) (s : State R) (n : Nat)
    (s' : State R) : Prop :=
  p.Steps W.assembler.fetch a.instructions.size b.instructions.size ⟨a.instructions.size, s⟩
    ⟨n, s'⟩

/-- **What the code of a computation does to the run.**  The slots stay as they are. -/
structure Follows {α : Type} (p : Processor R) (W : Whole) (slots : LocalSlots) (x : Lowering α)
    (e e' : Spot R) : Prop where
  emits : x.Emits
  follows : ∀ (c : Config R) (a : Assembler) (v : α) (b : Assembler),
    x slots a = .ok (v, slots) b → b.Grows W.assembler → p.At W c a e → p.At W c b e'

section Follows

open Lowering

variable {α β : Type} {p : Processor R} {W : Whole} {slots : LocalSlots} {x : Lowering α}
  {f : α → Lowering β} {e e' e'' : Spot R} {a b : Assembler} {l : Label} {s : State R}
  {S S' : List Datum} {r : R} {op : Opcode}

/-- Code behind other code. -/
theorem Follows.bind (hx : p.Follows W slots x e e')
    (hf : ∀ v, p.Follows W slots (f v) e' e'') : p.Follows W slots (x >>= f) e e'' where
  emits := hx.emits.bind fun v => (hf v).emits
  follows c a w d h hgrows ha := by
    obtain ⟨v, slots', b, hv, h⟩ := Lowering.bind_eq_ok h
    obtain ⟨-, rfl⟩ := hx.emits _ _ _ _ _ hv
    have hbd := ((hf v).emits _ _ _ _ _ h).1.built.grows
    exact (hf v).follows c b w d h hgrows (hx.follows c a v b hv (hbd.trans hgrows) ha)

theorem follows_pure (v : α) : p.Follows W slots (pure v : Lowering α) e e where
  emits := emits_pure v
  follows c a w b h _ ha := by
    cases h
    exact ha

/-- Code that is never made. -/
theorem follows_never (h : ∀ slots a v slots' b, x slots a ≠ .ok (v, slots') b) :
    p.Follows W slots x e e' where
  emits slots a v slots' b hx := absurd hx (h slots a v slots' b)
  follows _ a v b hx := absurd hx (h slots a v slots b)

/-- Code that is jumped over. -/
theorem follows_past (hx : x.Emits) : p.Follows W slots x (.label l s) (.label l s) where
  emits := hx
  follows c a v b h _ ha := by
    obtain ⟨hle, hreach, n, hn, hsteps⟩ := ha
    have hgrows := (hx _ _ _ _ _ h).1.built.grows
    exact ⟨Nat.le_trans hle hgrows.size_le, hreach.grows hgrows, n, hn,
      hsteps.mono Nat.le.refl hgrows.size_le⟩

/-- An operation that leaves the current point alone. -/
theorem follows_of_eq {x : Assembling α} (hx : x.Primitive)
    (h : ∀ a v b, x a = .ok v b → b.instructions.size = a.instructions.size ∧
      (a.isReachable = true → b.isReachable = true)) : p.Follows W slots (emit x) e e where
  emits := emits_emit hx
  follows c a v b hrun hgrows ha := by
    cases e with
    | label l s => exact (follows_past (emits_emit hx)).follows c a v b hrun hgrows ha
    | here s =>
      obtain ⟨hle, hreach, hsteps⟩ := ha
      obtain ⟨hsize, hb⟩ := h a v b (emit_eq_ok hrun).1
      unfold At
      rw [hsize]
      exact ⟨hle, hb hreach, hsteps⟩

theorem follows_freshLabel : p.Follows W slots (emit Assembler.freshLabel) e e := by
  refine follows_of_eq (.newLabel none) fun a v b h => ?_
  cases h
  exact ⟨rfl, id⟩

/-- The processor goes on behind a label. -/
theorem follows_place (l : Label) : p.Follows W slots (emit (Assembler.place l)) e e := by
  refine follows_of_eq (.place l) fun a v b h => ?_
  cases Operation.run_place_iff.1 h with
  | drop ho => cases ho
  | place hl hp hj =>
    refine ⟨rfl, fun hreach => hj.isSome_iff.2 (.inl ?_)⟩
    rw [Option.isSome_map]
    exact hreach

/-- **A processor on its way to a label goes on where the label is placed.** -/
theorem follows_arrive (l : Label) (s : State R) :
    p.Follows W slots (emit (Assembler.place l)) (.label l s) (.here s) where
  emits := emits_place l
  follows c a v b hrun hgrows ha := by
    obtain ⟨hle, ⟨state, hstate, hframe⟩, n, hn, hsteps⟩ := ha
    cases Operation.run_place_iff.1 (emit_eq_ok hrun).1 with
    | drop ho => cases ho
    | place hl hp hj =>
      cases hl.symm.trans hstate
      cases (Assembler.position_grows (Assembler.position_settle hl _) hgrows).symm.trans hn
      exact ⟨hle, hj.isSome_iff.2 (.inr (hframe hp)), hsteps⟩

/-- A run at the current point goes on with the instruction that is added there. -/
theorem At.push {i : Instruction} {types : OperandTypes} {s s' : State R} {c : Config R} {v : Unit}
    (hconditional : i.opcode.effect.isUnconditional = false)
    (hexec : p.exec i.opcode i.wide i.operands s = some (.go s'))
    (hrun : Assembler.push i types a = .ok v b) (hgrows : b.Grows W.assembler)
    (ha : p.At W c a (.here s)) : p.At W c b (.here s') := by
  obtain ⟨hle, hreach, hsteps⟩ := ha
  cases Operation.run_push_iff.1 hrun with
  | drop ho hc =>
    rw [Assembler.isReachable, hc] at hreach
    cases hreach
  | push hc hb hs =>
    have hstep := step?_go (fetch_of_push rfl hgrows) hexec
    unfold At
    rw [Array.size_push]
    refine ⟨Nat.le_succ_of_le hle, ?_, hsteps.concat hle hstep⟩
    rw [Assembler.isReachable, hconditional]
    rfl

/-- **An instruction that goes on with the next one.** -/
theorem follows_push {i : Instruction} {types : OperandTypes} {s s' : State R}
    (hi : (Assembler.push i types).Primitive)
    (hconditional : i.opcode.effect.isUnconditional = false)
    (hexec : p.exec i.opcode i.wide i.operands s = some (.go s')) :
    p.Follows W slots (emit (Assembler.push i types)) (.here s) (.here s') where
  emits := emits_emit hi
  follows _ _ _ _ hrun hgrows ha := ha.push hconditional hexec (emit_eq_ok hrun).1 hgrows

theorem follows_simple (h : work? p.round op S = some S') (r : R) :
    p.Follows W slots (emit (Assembler.simple op)) (.here ⟨S, r⟩) (.here ⟨S', r⟩) :=
  follows_push (.common (.simple (effect_of_work? h).1)) (effect_of_work? h).2
    (exec_work h false [] r)

/-- An instruction that branches. -/
theorem follows_of_branch {taken : Bool} {s s' : State R} (hbranch : op.effect.isBranch = true)
    (hgoto : taken = false → op.effect ≠ .goto)
    (hexec : p.exec op false [0, 0] s = some (if taken then .jump s' else .go s'))
    (target : Label) :
    p.Follows W slots (emit (Assembler.branch op target)) (.here s)
      (.jumping taken target s') where
  emits := emits_branch hbranch target
  follows c a v b hrun hgrows ha := by
    obtain ⟨hle, hreach, hsteps⟩ := ha
    obtain ⟨arriving, hb, hfalls, state, hstate, hjumped, hframe⟩ :=
      branch_added (Operation.run_branch_iff.1 (emit_eq_ok hrun).1) hreach
    have hfetch := fetch_of_push hb hgrows
    have hsize : b.instructions.size = a.instructions.size + 1 := by
      rw [hb, Array.size_push]
    unfold At
    rw [hsize]
    refine ⟨Nat.le_succ_of_le hle, ?_⟩
    cases taken with
    | false =>
      have hstep := step?_go hfetch hexec
      exact ⟨hfalls (hgoto rfl), hsteps.concat hle hstep⟩
    | true =>
      -- the finished code has placed the label
      obtain ⟨state', hstate', hstates⟩ := hgrows.labels target.index state hstate
      obtain ⟨n, hn⟩ := W.placed target.index state' hstate' (hstates.jumpedTo hjumped)
      have hposition : W.assembler.position target = some n :=
        Option.bind_eq_some_iff.2 ⟨state', hstate', hn⟩
      exact ⟨⟨state, hstate, hframe⟩, n, hposition,
        hsteps.concat hle (step?_jump hfetch hexec hposition)⟩

/-- **A branch that depends on the stack.** -/
theorem follows_branch {taken : Bool} (h : branch? op S = some (taken, S')) (target : Label)
    (r : R) :
    p.Follows W slots (emit (Assembler.branch op target)) (.here ⟨S, r⟩)
      (.jumping taken target ⟨S', p.test r⟩) :=
  follows_of_branch (effect_of_branch? h).1 (fun _ => (effect_of_branch? h).2)
    (exec_branch h false [0, 0] r) target

theorem follows_goto (target : Label) (s : State R) :
    p.Follows W slots (emit (Assembler.branch .goto target)) (.here s) (.label target s) := by
  have hexec : p.exec .goto false [0, 0] s = some (if true then .jump s else .go s) := rfl
  exact follows_of_branch rfl (fun h => absurd h.symm Bool.false_ne_true) hexec target

end Follows

end Processor

end ClassForge
