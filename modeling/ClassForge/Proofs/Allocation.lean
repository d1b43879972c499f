/-
# Slots are handed out like a stack

Specification, section 8, *slot-reuse idempotence*, and section 4.2.

Declarations, entered blocks and left blocks follow each other in any order in which no
local is declared while it is in scope and no block is left that was not entered
(`SlotStep.Disciplined`).  The history alone says which locals are in scope: those declared
in the open blocks (`Blocks.after`).  The allocator keeps the same in a map, a list of open
blocks and two numbers, and each of its answers is settled by the history
(`LocalSlots.Tracks`):

| answer | from the history |
| --- | --- |
| the slot of a local in scope | its place among them, behind the slots reserved |
| the next free slot | their number, behind the slots reserved |
| any other local | not found |

A run of steps that leaves as many blocks as it enters does not reach the blocks around it
(`Blocks.around_run`), so leaving a block brings back what was there when it was entered.
The code of a statement takes slots by such a run, whatever the statement is
(`Stmt.allots`).
-/

import ClassForge.Proofs.Scope
import Mathlib.Data.List.Induction

namespace ClassForge

/-- What is done with the slots of locals. -/
inductive SlotStep where
  | declare (id : LocalId) (type : FieldType)
  | enter
  | exit
deriving DecidableEq

/-! ### The history -/

/-- The open blocks: the locals of the innermost one, and those of the blocks around it,
nearest first. -/
structure Blocks where
  innermost : Context
  around : List Context
deriving DecidableEq

namespace Blocks

/-- The locals in scope, in the order of their declarations. -/
def locals (b : Blocks) : Context := b.around.reverse.flatten ++ b.innermost

/-- The open blocks after a step.  A declaration for which there is no slot left declares
nothing. -/
def step (reserved : Nat) (b : Blocks) : SlotStep → Blocks
  | .declare id type =>
    if reserved + b.locals.length < 65536 then ⟨b.innermost ++ [(id, type)], b.around⟩ else b
  | .enter => ⟨[], b.innermost :: b.around⟩
  | .exit =>
    match b.around with
    | [] => b
    | nearest :: around => ⟨nearest, around⟩

/-- The open blocks after some more steps. -/
def run (reserved : Nat) (b : Blocks) (steps : List SlotStep) : Blocks :=
  steps.foldl (step reserved) b

/-- The open blocks after some steps from the beginning, where one block is open. -/
def after (reserved : Nat) (steps : List SlotStep) : Blocks := run reserved ⟨[], []⟩ steps

variable {reserved : Nat}

theorem locals_declared (innermost : Context) (around : List Context)
    (entry : LocalId × FieldType) :
    locals ⟨innermost ++ [entry], around⟩ = locals ⟨innermost, around⟩ ++ [entry] := by
  simp [locals]

theorem locals_cons (innermost nearest : Context) (around : List Context) :
    locals ⟨innermost, nearest :: around⟩ = locals ⟨nearest, around⟩ ++ innermost := by
  simp [locals]

theorem run_append (b : Blocks) (steps more : List SlotStep) :
    run reserved b (steps ++ more) = run reserved (run reserved b steps) more :=
  List.foldl_append

theorem after_append (steps more : List SlotStep) :
    after reserved (steps ++ more) = run reserved (after reserved steps) more :=
  run_append _ steps more

end Blocks

namespace SlotStep

/-- The locals that are in scope after some steps, in the order of their declarations. -/
def inScope (reserved : Nat) (steps : List SlotStep) : Context :=
  (Blocks.after reserved steps).locals

/-- May the step be taken after these?  A local is not declared while it is in scope, and a
block is left only if more were entered than left before. -/
def Allowed (reserved : Nat) (before : List SlotStep) : SlotStep → Prop
  | .declare id _ => id ∉ (inScope reserved before).map Prod.fst
  | .enter => True
  | .exit => before.count .exit < before.count .enter

instance (reserved : Nat) (before : List SlotStep) (step : SlotStep) :
    Decidable (step.Allowed reserved before) :=
  match step with
  | .declare id _ => inferInstanceAs (Decidable (id ∉ (inScope reserved before).map Prod.fst))
  | .enter => inferInstanceAs (Decidable True)
  | .exit => inferInstanceAs (Decidable (before.count .exit < before.count .enter))

/-- Each step may be taken after those before it. -/
def Disciplined (reserved : Nat) (steps : List SlotStep) : Prop :=
  ∀ n (h : n < steps.length), (steps.get ⟨n, h⟩).Allowed reserved (steps.take n)

instance (reserved : Nat) (steps : List SlotStep) : Decidable (Disciplined reserved steps) :=
  inferInstanceAs (Decidable (∀ n (h : n < steps.length),
    (steps.get ⟨n, h⟩).Allowed reserved (steps.take n)))

/-- As many blocks are left as are entered, each of them after it was entered. -/
inductive Balanced : List SlotStep → Prop where
  | nil : Balanced []
  | declare {steps : List SlotStep} (id : LocalId) (type : FieldType) (h : Balanced steps) :
    Balanced (steps ++ [.declare id type])
  | block {steps inner : List SlotStep} (h : Balanced steps) (hinner : Balanced inner) :
    Balanced (steps ++ .enter :: (inner ++ [.exit]))

variable {reserved : Nat} {steps : List SlotStep}

theorem disciplined_append_singleton {step : SlotStep} :
    Disciplined reserved (steps ++ [step]) ↔
      Disciplined reserved steps ∧ step.Allowed reserved steps := by
  constructor
  · intro h
    refine ⟨fun n hn => ?_, ?_⟩
    · have hstep := h n (by rw [List.length_append]; omega)
      rw [List.take_append_of_le_length (Nat.le_of_lt hn)] at hstep
      simpa [List.getElem_append_left hn] using hstep
    · have hstep := h steps.length (by simp)
      simpa using hstep
  · rintro ⟨h, hstep⟩ n hn
    rw [List.length_append, List.length_singleton] at hn
    rcases Nat.lt_or_eq_of_le (Nat.le_of_lt_succ hn) with hlt | rfl
    · rw [List.take_append_of_le_length (Nat.le_of_lt hlt)]
      simpa [List.getElem_append_left hlt] using h n hlt
    · simpa using hstep

theorem Disciplined.of_append {more : List SlotStep} (h : Disciplined reserved (steps ++ more)) :
    Disciplined reserved steps := by
  induction more using List.reverseRecOn with
  | nil => rwa [List.append_nil] at h
  | append_singleton more step ih =>
    rw [← List.append_assoc] at h
    exact ih (disciplined_append_singleton.1 h).1

/-- A balanced run leaves as many blocks as it enters. -/
theorem Balanced.count_eq {steps : List SlotStep} (h : Balanced steps) :
    steps.count .exit = steps.count .enter := by
  induction h with
  | nil => rfl
  | declare id type h ih => simp [ih]
  | block h hinner ih ihinner => simp [ih, ihinner]

/-- **Where a block may be left, it was entered,** and everything entered after that is left
again. -/
theorem exists_enter (before : List SlotStep) (h : before.count .exit < before.count .enter) :
    ∃ outer inner, before = outer ++ .enter :: inner ∧ Balanced inner := by
  induction hlength : before.length using Nat.strongRecOn generalizing before with
  | ind n ih =>
    rcases List.eq_nil_or_concat before with rfl | ⟨steps, step, rfl⟩
    · cases h
    rw [List.concat_eq_append] at h hlength ⊢
    rw [List.length_append, List.length_singleton] at hlength
    cases step with
    | declare id type =>
      have hsteps : steps.count .exit < steps.count .enter := by simpa using h
      obtain ⟨outer, inner, rfl, hinner⟩ := ih steps.length (by omega) steps hsteps rfl
      exact ⟨outer, inner ++ [.declare id type], by simp, hinner.declare id type⟩
    | enter => exact ⟨steps, [], rfl, .nil⟩
    | exit =>
      -- The last block is left here, so the block in question was entered before it.
      have hsteps : steps.count .exit + 1 < steps.count .enter := by simpa using h
      obtain ⟨outer, last, rfl, hlast⟩ := ih steps.length (by omega) steps (by omega) rfl
      have hcount := hlast.count_eq
      have houter : outer.count .exit < outer.count .enter := by
        simp at hsteps
        omega
      rw [List.length_append] at hlength
      obtain ⟨around, inner, rfl, hinner⟩ := ih outer.length (by omega) outer houter rfl
      exact ⟨around, inner ++ .enter :: (last ++ [.exit]), by simp, hinner.block hlast⟩

end SlotStep

namespace Blocks

open SlotStep

variable {reserved : Nat} {b : Blocks} {steps inner : List SlotStep}

theorem run_block_of_around
    (h : (run reserved ⟨[], b.innermost :: b.around⟩ inner).around = b.innermost :: b.around) :
    run reserved b (.enter :: (inner ++ [.exit])) = b := by
  change run reserved ⟨[], b.innermost :: b.around⟩ (inner ++ [.exit]) = b
  rw [run_append]
  change step reserved _ .exit = b
  rw [step, h]

/-- **A balanced run does not reach the blocks around it.** -/
theorem around_run (h : Balanced steps) (b : Blocks) :
    (run reserved b steps).around = b.around := by
  induction h generalizing b with
  | nil => rfl
  | declare id type h ih =>
    rw [run_append, ← ih b]
    change (step reserved _ (.declare id type)).around = _
    rw [step]
    split <;> rfl
  | block h hinner ih ihinner =>
    rw [run_append, run_block_of_around (ihinner _), ih]

theorem after_block (outer : List SlotStep) (h : Balanced inner) :
    after reserved (outer ++ .enter :: (inner ++ [.exit])) = after reserved outer := by
  rw [after_append, run_block_of_around (around_run h _)]

/-- As many blocks are open around the innermost one as were entered and not left. -/
theorem length_around (h : Disciplined reserved steps) :
    (after reserved steps).around.length + steps.count .exit = steps.count .enter := by
  induction steps using List.reverseRecOn with
  | nil => rfl
  | append_singleton steps last ih =>
    obtain ⟨hsteps, hlast⟩ := disciplined_append_singleton.1 h
    have hlength := ih hsteps
    rw [after_append]
    change (step reserved (after reserved steps) last).around.length + _ = _
    cases last with
    | declare id type =>
      rw [step]
      split <;> simpa using hlength
    | enter =>
      rw [step]
      simp
      omega
    | exit =>
      have hpos : steps.count .exit < steps.count .enter := hlast
      rw [step]
      split
      · rename_i hnone
        rw [hnone, List.length_nil] at hlength
        omega
      · rename_i nearest around hsome
        rw [hsome, List.length_cons] at hlength
        simp
        omega

end Blocks

/-! ### Slots by place -/

namespace Context

/-- The slot and the type of a local: its slot is its place, counted from `first`. -/
def slot? (first : Nat) : Context → LocalId → Option (UInt16 × FieldType)
  | [], _ => none
  | (other, type) :: Γ, id =>
    if other = id then some (UInt16.ofNat first, type) else slot? (first + 1) Γ id

variable {first : Nat} {Γ Γ' : Context} {id : LocalId}

/-- A local without a slot is one that was not declared, whatever the first slot is. -/
theorem slot?_eq_none_iff : slot? first Γ id = none ↔ id ∉ Γ.map Prod.fst := by
  induction Γ generalizing first with
  | nil => simp [slot?]
  | cons entry Γ ih =>
    rw [slot?, List.map_cons, List.mem_cons, not_or]
    split
    · rename_i heq
      simp [heq]
    · rename_i hne
      rw [ih]
      exact ⟨fun h => ⟨fun heq => hne heq.symm, h⟩, fun h => h.2⟩

theorem slot?_append :
    slot? first (Γ ++ Γ') id = (slot? first Γ id).or (slot? (first + Γ.length) Γ' id) := by
  induction Γ generalizing first with
  | nil => rfl
  | cons entry Γ ih =>
    rw [List.cons_append, slot?, slot?]
    split
    · rfl
    · rw [ih, List.length_cons, Nat.add_assoc, Nat.add_comm 1]

/-- **The slots of the locals are numbered in order, without gaps.** The first local takes
the first slot behind the reserved ones, and each later one the slot behind the one before
it. -/
theorem map_slot? (hdistinct : (Γ.map Prod.fst).Nodup) (hbounded : first + Γ.length ≤ 65536) :
    Γ.map (fun entry => (slot? first Γ entry.1).map fun found => found.1.toNat) =
      (List.range' first Γ.length).map some := by
  induction Γ generalizing first with
  | nil => rfl
  | cons entry Γ ih =>
    rw [List.map_cons, List.nodup_cons] at hdistinct
    rw [List.length_cons] at hbounded
    have hslot : (UInt16.ofNat first).toNat = first := by
      rw [UInt16.toNat_ofNat', Nat.mod_eq_of_lt (by omega)]
    -- The first local is not found again among the others.
    have hothers : ∀ other ∈ Γ, slot? first (entry :: Γ) other.1 = slot? (first + 1) Γ other.1 := by
      intro other hother
      rw [slot?, if_neg]
      intro heq
      exact hdistinct.1 (heq ▸ List.mem_map_of_mem hother)
    rw [List.map_cons, List.length_cons, List.range'_succ, List.map_cons,
      ← ih hdistinct.2 (by omega)]
    refine congrArg₂ List.cons ?_ (List.map_congr_left fun other hother => ?_)
    · rw [slot?, if_pos rfl, Option.map_some, hslot]
    · rw [hothers other hother]

end Context

/-! ### The allocator follows the history -/

namespace LocalSlots

open SlotStep

/-- The slots after a step, also after a declaration that is refused. -/
def step (s : LocalSlots) : SlotStep → LocalSlots
  | .declare id type =>
    match declare id type s with
    | .ok _ s' => s'
    | .error _ s' => s'
  | .enter => s.enter
  | .exit => s.exit

/-- The slots after some steps from the beginning. -/
def after (reserved : Nat) (steps : List SlotStep) : LocalSlots :=
  steps.foldl step (start reserved)

/-- The blocks as the allocator keeps them, given the locals of each, innermost first. -/
def scopesOf (reserved : Nat) : List Context → List Scope
  | [] => []
  | block :: around =>
    ⟨reserved + around.reverse.flatten.length, (block.map Prod.fst).reverse⟩ ::
      scopesOf reserved around

/-- The allocator answers as the open blocks say. -/
structure Tracks (s : LocalSlots) (reserved : Nat) (b : Blocks) : Prop where
  scopes : s.scopes = scopesOf reserved (b.innermost :: b.around)
  next : s.next = reserved + b.locals.length
  lookup : ∀ id, s.lookup? id = b.locals.slot? reserved id
  distinct : (b.locals.map Prod.fst).Nodup
  bounded : b.locals ≠ [] → reserved + b.locals.length ≤ 65536

variable {reserved : Nat} {s : LocalSlots} {b : Blocks} {steps : List SlotStep}

theorem after_append_singleton (steps : List SlotStep) (last : SlotStep) :
    after reserved (steps ++ [last]) = (after reserved steps).step last := by
  rw [after, List.foldl_append]
  rfl

theorem tracks_start (reserved : Nat) : (start reserved).Tracks reserved ⟨[], []⟩ where
  scopes := rfl
  next := rfl
  lookup id := by simp [start, lookup?, Blocks.locals, Context.slot?]
  distinct := List.nodup_nil
  bounded h := absurd rfl h

theorem declare_of_full (h : 65536 ≤ s.next) (id : LocalId) (type : FieldType) :
    declare id type s = .error (.tooManyLocals (s.next + 1)) s := by
  rw [declare, if_pos h]

/-- **There is a slot for every local as long as one is left**, and the greatest number of
slots so far is counted with it. -/
theorem exists_declare_ok (h : s.next < 65536) (id : LocalId) (type : FieldType) :
    ∃ slot s', declare id type s = .ok slot s' ∧ s'.max = Nat.max s.max s'.next := by
  rw [declare, if_neg (Nat.not_le_of_lt h)]
  exact ⟨_, _, rfl, rfl⟩

theorem step_of_ok {id : LocalId} {type : FieldType} {slot : UInt16} {s' : LocalSlots}
    (h : declare id type s = .ok slot s') : s.step (.declare id type) = s' := by
  rw [step, h]

theorem step_of_full (h : 65536 ≤ s.next) (id : LocalId) (type : FieldType) :
    s.step (.declare id type) = s := by
  rw [step, declare_of_full h]

/-- **A declaration takes the next slot.** The allocator then answers for the new local with
this slot and for all others as before, which is what the history of blocks says. -/
theorem Tracks.declare (hs : s.Tracks reserved b) {id : LocalId} (type : FieldType)
    (hid : id ∉ b.locals.map Prod.fst) :
    (s.step (.declare id type)).Tracks reserved (b.step reserved (.declare id type)) := by
  rw [Blocks.step, ← hs.next]
  rcases Nat.lt_or_ge s.next 65536 with hlt | hfull
  · obtain ⟨slot, s', hdeclare, -⟩ := exists_declare_ok hlt id type
    obtain ⟨hslot, -, hscopes, hnext, hlookup⟩ := lookup?_declare hdeclare
    have hlocals := Blocks.locals_declared b.innermost b.around (id, type)
    rw [if_pos hlt, step_of_ok hdeclare]
    constructor
    · rw [hscopes, hs.scopes]
      simp [record, scopesOf]
    · rw [hnext, hs.next, hlocals, List.length_append, List.length_singleton, Nat.add_assoc]
    · intro other
      rw [hlookup, hlocals, Context.slot?_append, hs.lookup]
      by_cases hother : id = other
      · rw [if_pos hother, ← hother, Context.slot?_eq_none_iff.2 hid, Option.none_or, Context.slot?,
          if_pos rfl, hslot, hs.next]
      · rw [if_neg hother, Context.slot?, if_neg hother, Context.slot?, Option.or_none]
    · rw [hlocals, List.map_append, List.nodup_append]
      refine ⟨hs.distinct, by simp, fun a ha c hc hac => ?_⟩
      rw [List.map_singleton, List.mem_singleton] at hc
      rw [hac, hc] at ha
      exact hid ha
    · intro
      rw [hlocals, List.length_append, List.length_singleton, ← Nat.add_assoc, ← hs.next]
      exact hlt
  · rw [if_neg (Nat.not_lt_of_le hfull), step_of_full hfull]
    exact hs

/-- **Entering a block changes no answer.** -/
theorem Tracks.enter (hs : s.Tracks reserved b) :
    (s.step .enter).Tracks reserved (b.step reserved .enter) := by
  have hlocals : Blocks.locals ⟨[], b.innermost :: b.around⟩ = b.locals :=
    (Blocks.locals_cons [] b.innermost b.around).trans (List.append_nil _)
  constructor
  · change ⟨s.next, []⟩ :: s.scopes = _
    rw [hs.scopes, hs.next]
    simp [Blocks.step, scopesOf, Blocks.locals]
  · exact hs.next.trans (by rw [Blocks.step, hlocals])
  · intro id
    rw [Blocks.step, hlocals]
    exact hs.lookup id
  · rw [Blocks.step, hlocals]
    exact hs.distinct
  · rw [Blocks.step, hlocals]
    exact hs.bounded

/-- **Leaving a block takes its locals out of scope.** Their slots are free again, and every
local of the blocks around is found where it was before. -/
theorem Tracks.exit {nearest : Context} {around : List Context}
    (hs : s.Tracks reserved b) (hb : b.around = nearest :: around) :
    (s.step .exit).Tracks reserved (b.step reserved .exit) := by
  obtain ⟨innermost, _⟩ := b
  subst hb
  have hlocals := Blocks.locals_cons innermost nearest around
  obtain ⟨hscopes, hnext, hlookup⟩ := lookup?_exit hs.scopes
  have hdistinct := hs.distinct
  rw [hlocals, List.map_append, List.nodup_append] at hdistinct
  change s.exit.Tracks reserved ⟨nearest, around⟩
  constructor
  · exact hscopes
  · rw [hnext, Blocks.locals]
    simp
  · intro id
    rw [hlookup, hs.lookup, hlocals, Context.slot?_append]
    simp only [List.mem_reverse]
    split
    · rename_i hinner
      -- No other local in scope has the same number.
      refine (Context.slot?_eq_none_iff.2 fun houter => ?_).symm
      exact hdistinct.2.2 id houter id hinner rfl
    · rename_i hinner
      rw [Context.slot?_eq_none_iff.2 hinner, Option.or_none]
  · exact hdistinct.1
  · intro hne
    have hbounded := hs.bounded
    rw [hlocals, List.length_append] at hbounded
    have := hbounded fun hnil => hne (List.append_eq_nil_iff.1 hnil).1
    omega

/-- **After any disciplined steps the allocator answers as the history says.** -/
theorem tracks_after (h : Disciplined reserved steps) :
    (after reserved steps).Tracks reserved (Blocks.after reserved steps) := by
  induction steps using List.reverseRecOn with
  | nil => exact tracks_start reserved
  | append_singleton steps last ih =>
    obtain ⟨hsteps, hlast⟩ := disciplined_append_singleton.1 h
    rw [after_append_singleton, Blocks.after_append]
    cases last with
    | declare id type => exact (ih hsteps).declare type hlast
    | enter => exact (ih hsteps).enter
    | exit =>
      have hlength := Blocks.length_around hsteps
      have hcount : steps.count .exit < steps.count .enter := hlast
      obtain ⟨nearest, around, haround⟩ :=
        List.exists_cons_of_length_pos (l := (Blocks.after reserved steps).around) (by omega)
      exact (ih hsteps).exit haround

/-! ### The most slots taken at once -/

/-- The end of a block frees slots and never takes any, so the next free slot does not go
up. -/
theorem Tracks.next_exit_le (hs : s.Tracks reserved b)
    (hs' : (s.step .exit).Tracks reserved (b.step reserved .exit)) :
    (s.step .exit).next ≤ s.next := by
  rw [hs.next, hs'.next]
  obtain ⟨innermost, around⟩ := b
  cases around with
  | nil => exact Nat.le_refl _
  | cons nearest around =>
    rw [Blocks.locals_cons, List.length_append]
    exact Nat.add_le_add_left (Nat.le_add_right _ _) reserved

theorem max_exit (s : LocalSlots) : (s.step .exit).max = s.max := by
  obtain ⟨slots, scopes, next, max⟩ := s
  cases scopes <;> rfl

/-- A step raises the most slots taken at once to those taken now, if these are more. -/
theorem Tracks.max_step {last : SlotStep} (hs : s.Tracks reserved b)
    (hs' : (s.step last).Tracks reserved (b.step reserved last)) (hmax : s.next ≤ s.max) :
    (s.step last).max = Max.max s.max (s.step last).next := by
  cases last with
  | declare id type =>
    rcases Nat.lt_or_ge s.next 65536 with hlt | hfull
    · obtain ⟨slot, s', hdeclare, hmax'⟩ := exists_declare_ok hlt id type
      rw [step_of_ok hdeclare]
      exact hmax'
    · rw [step_of_full hfull, Nat.max_eq_left hmax]
  | enter => exact (Nat.max_eq_left hmax).symm
  | exit => rw [max_exit, Nat.max_eq_left (Nat.le_trans (hs.next_exit_le hs') hmax)]

/-- **The largest number of slots that were taken at any time** is the one that is kept. It
is the maximum over all parts of the history, not the number at its end. -/
theorem max_after (h : Disciplined reserved steps) :
    (∃ before, before <+: steps ∧ (after reserved steps).max = (after reserved before).next) ∧
      ∀ before, before <+: steps → (after reserved before).next ≤ (after reserved steps).max := by
  induction steps using List.reverseRecOn with
  | nil =>
    refine ⟨⟨[], List.prefix_rfl, rfl⟩, fun before hbefore => ?_⟩
    rw [List.prefix_nil.1 hbefore]
    exact Nat.le_refl _
  | append_singleton steps last ih =>
    have hsteps := (disciplined_append_singleton.1 h).1
    obtain ⟨⟨peak, hpeak, hreached⟩, hgreatest⟩ := ih hsteps
    have htracks := tracks_after h
    rw [after_append_singleton, Blocks.after_append] at htracks
    have hmax := (tracks_after hsteps).max_step htracks (hgreatest steps List.prefix_rfl)
    rw [after_append_singleton, hmax]
    refine ⟨?_, fun before hbefore => ?_⟩
    · rcases Nat.le_total (after reserved steps).max ((after reserved steps).step last).next with
        hle | hle
      · refine ⟨steps ++ [last], List.prefix_rfl, ?_⟩
        rw [Nat.max_eq_right hle, after_append_singleton]
      · refine ⟨peak, hpeak.trans (List.prefix_append steps [last]), ?_⟩
        rw [Nat.max_eq_left hle, hreached]
    · rcases List.prefix_concat_iff.1 hbefore with rfl | hbefore
      · rw [after_append_singleton]
        exact Nat.le_max_right _ _
      · exact Nat.le_trans (hgreatest before hbefore) (Nat.le_max_left _ _)

/-! ### The discipline -/

theorem Tracks.map_lookup? (hs : s.Tracks reserved b) :
    b.locals.map (fun entry => (s.lookup? entry.1).map fun found => found.1.toNat) =
      (List.range' reserved b.locals.length).map some := by
  simp only [hs.lookup]
  by_cases hnone : b.locals = []
  · rw [hnone]
    rfl
  · exact Context.map_slot? hs.distinct (hs.bounded hnone)

/-- **A declaration fails just if all 65536 slots are taken**, since a slot is named by a
word. The identifier and the type do not matter. -/
theorem declare_error_iff {id : LocalId} {type : FieldType} :
    (∃ e s', declare id type s = .error e s') ↔ 65535 < s.next := by
  constructor
  · rintro ⟨e, s', h⟩
    refine Nat.lt_of_not_le fun hle => ?_
    obtain ⟨slot, s'', hok, -⟩ := exists_declare_ok (Nat.lt_succ_of_le hle) id type
    rw [hok] at h
    cases h
  · intro h
    exact ⟨_, s, declare_of_full h id type⟩

/-- **Slots are handed out like a stack.**  After any disciplined steps, the locals in scope
have the slots behind those reserved, in the order of their declarations and without gaps, and
no other local is found; each block that is left was entered, and what is found after it is
left and the next free slot are as they were when it was entered; the largest next slot ever
reached is kept; and a declaration is refused just if there is no slot below 65536 left, and
then it changes nothing. -/
theorem slots_stacked {reserved : Nat} {steps : List SlotStep} (h : Disciplined reserved steps) :
    ((after reserved steps).next = reserved + (inScope reserved steps).length ∧
      (inScope reserved steps).map (fun entry =>
        ((after reserved steps).lookup? entry.1).map fun found => found.1.toNat) =
        (List.range' reserved (inScope reserved steps).length).map some ∧
      ∀ id, (after reserved steps).lookup? id ≠ none ↔
        id ∈ (inScope reserved steps).map Prod.fst) ∧
    (∀ before rest, steps = before ++ .exit :: rest →
      ∃ outer inner, before = outer ++ .enter :: inner ∧ Balanced inner) ∧
    (∀ outer inner rest, steps = outer ++ .enter :: (inner ++ .exit :: rest) → Balanced inner →
      (after reserved (outer ++ .enter :: (inner ++ [.exit]))).next = (after reserved outer).next ∧
      ∀ id, (after reserved (outer ++ .enter :: (inner ++ [.exit]))).lookup? id =
        (after reserved outer).lookup? id) ∧
    ((∃ before, before <+: steps ∧ (after reserved steps).max = (after reserved before).next) ∧
      ∀ before, before <+: steps → (after reserved before).next ≤ (after reserved steps).max) ∧
    ∀ id type,
      ((∃ e s', declare id type (after reserved steps) = .error e s') ↔
        65535 < (after reserved steps).next) ∧
      ∀ e s', declare id type (after reserved steps) = .error e s' → s' = after reserved steps := by
  have hs := tracks_after h
  refine ⟨⟨hs.next, hs.map_lookup?, fun id => ?_⟩, ?_, ?_, max_after h,
    fun id type => ⟨declare_error_iff, fun e s' herror => ?_⟩⟩
  · rw [hs.lookup, ne_eq, Context.slot?_eq_none_iff, not_not]
    rfl
  · rintro before rest rfl
    rw [List.append_cons] at h
    exact exists_enter before (disciplined_append_singleton.1 h.of_append).2
  · rintro outer inner rest rfl hinner
    have hsplit : outer ++ .enter :: (inner ++ .exit :: rest) =
        outer ++ .enter :: (inner ++ [.exit]) ++ rest := by simp
    rw [hsplit] at h
    have hblock := h.of_append
    have hleft := tracks_after hblock
    have hentered := tracks_after hblock.of_append
    rw [Blocks.after_block outer hinner] at hleft
    exact ⟨hleft.next.trans hentered.next.symm,
      fun id => (hleft.lookup id).trans (hentered.lookup id).symm⟩
  · rw [declare_of_full (declare_error_iff.1 ⟨e, s', herror⟩)] at herror
    cases herror
    rfl

/-- Two blocks side by side at the end of the slots: the first has room for one local only, and
the second uses its slot again. -/
def tight : List SlotStep :=
  [.declare ⟨0⟩ .int, .enter, .declare ⟨1⟩ .float, .declare ⟨2⟩ .int, .exit, .enter,
    .declare ⟨1⟩ .boolean]

/-- The last two slots can be taken and are freed with their block; there is no third. The
steps are disciplined, so the general theorem applies to them. -/
theorem tight_stacked :
    Disciplined 65534 tight ∧ (after 65534 tight).next = 65536 ∧
    [LocalId.mk 0, ⟨1⟩].map (fun id => ((after 65534 tight).lookup? id).map fun found =>
      found.1.toNat) = [some 65534, some 65535] ∧
    (after 65534 (tight.take 5)).next = (after 65534 (tight.take 1)).next ∧
    ∃ e s', declare ⟨2⟩ .int (after 65534 tight) = .error e s' := by
  have h : Disciplined 65534 tight := by decide
  obtain ⟨⟨hnext, hslots, -⟩, -, hrestored, -, hrefused⟩ := slots_stacked h
  have hscope : inScope 65534 tight = [(⟨0⟩, .int), (⟨1⟩, .boolean)] := by decide
  rw [hscope] at hnext hslots
  have hbalanced : Balanced [.declare ⟨1⟩ .float, .declare ⟨2⟩ .int] :=
    (Balanced.nil.declare ⟨1⟩ .float).declare ⟨2⟩ .int
  refine ⟨h, hnext, hslots, ?_, (hrefused ⟨2⟩ .int).1.2 (hnext ▸ by decide)⟩
  exact (hrestored [.declare ⟨0⟩ .int] _ [.enter, .declare ⟨1⟩ .boolean] rfl hbalanced).1

end LocalSlots

/-! ### The slots that a statement takes -/

/-- The one slots are the other after declarations and whole blocks. -/
def LocalSlots.Allotted (s t : LocalSlots) : Prop :=
  ∃ steps, SlotStep.Balanced steps ∧ t = steps.foldl LocalSlots.step s

namespace LocalSlots.Allotted

variable {s t u : LocalSlots}

theorem refl (s : LocalSlots) : s.Allotted s := ⟨[], .nil, rfl⟩

theorem declare (h : s.Allotted t) {id : LocalId} {type : FieldType} {slot : UInt16}
    (hdeclare : LocalSlots.declare id type t = .ok slot u) : s.Allotted u := by
  obtain ⟨steps, hsteps, rfl⟩ := h
  refine ⟨_, hsteps.declare id type, ?_⟩
  rw [List.foldl_append, List.foldl_cons, List.foldl_nil, step_of_ok hdeclare]

theorem block (h : s.Allotted t) (hinner : t.enter.Allotted u) : s.Allotted u.exit := by
  obtain ⟨steps, hsteps, rfl⟩ := h
  obtain ⟨inner, hbalanced, rfl⟩ := hinner
  refine ⟨_, hsteps.block hbalanced, ?_⟩
  rw [List.foldl_append, List.foldl_cons, List.foldl_append, List.foldl_cons, List.foldl_nil]
  rfl

end LocalSlots.Allotted

namespace Lowering

/-- The computation takes slots by declarations and whole blocks. -/
def Allots (x : Lowering Unit) : Prop := ∀ s : LocalSlots, Tracks s.Allotted s.Allotted x

theorem Emits.allots {x : Lowering Unit} (h : Emits x) : Allots x := fun s => h.tracks s.Allotted

theorem allots_declare {s : LocalSlots} (id : LocalId) (type : FieldType) :
    Tracks s.Allotted s.Allotted (declare id type) := by
  intro slots a slot slots' b hslots h
  unfold declare at h
  split at h
  · rename_i hdeclare
    cases h
    exact ⟨.refl a, hslots.declare hdeclare⟩
  · cases h

/-- Code in a block of its own takes slots as a well-nested sequence, with the block around
it. -/
theorem allots_inBlock {x : Lowering Unit} (h : Allots x) : Allots (inBlock x) := by
  intro s slots a v slots' b hslots hx
  -- the slots at the start are fixed first, since the block is added to the steps before it
  have hblock : Tracks (· = slots) s.Allotted (inBlock x) := by
    refine (tracks_modify (Q := slots.enter.Allotted) ?_).bind fun _ => (h slots.enter).bind
      fun _ => (tracks_modify fun t ht => hslots.block ht).bind fun _ =>
        (tracks_nextSlot _).bind fun _ => (emits_emit (.common (.killLocals _))).tracks _
    rintro t rfl
    exact .refl _
  exact hblock slots a v slots' b rfl hx

end Lowering

mutual

/-- **A statement takes slots by declarations and whole blocks.** So what is known of
disciplined steps holds for the slots along every statement, loops and conditions
included. -/
theorem Stmt.allots (site : Site) (loops : List Loop) (s : Stmt) :
    (s.lower site loops).Allots := by
  open Lowering in
  match s with
  | .expr e =>
    rw [Stmt.lower]
    exact (e.emits site).effect.allots
  | .declare id type initial =>
    rw [Stmt.lower]
    exact fun s => tracks_declared site (allots_declare id type) initial
  | .block body =>
    rw [Stmt.lower]
    exact allots_inBlock (Stmt.allots_lowerAll site loops body)
  | .branch condition thenBranch elseBranch =>
    rw [Stmt.lower]
    exact fun s => tracks_branched (condition.emits site).jump
      (allots_inBlock (thenBranch.allots site loops) s) fun x hx =>
        allots_inBlock (Stmt.allots_lower? site loops elseBranch x hx) s
  | .whileLoop label condition body =>
    rw [Stmt.lower]
    exact fun s => tracks_whileLoop (condition.emits site).jump fun exit next =>
      allots_inBlock (body.allots site (⟨label, exit, next⟩ :: loops)) s
  | .doWhileLoop label body condition =>
    rw [Stmt.lower]
    exact fun s => tracks_doWhileLoop (condition.emits site).jump fun exit next =>
      allots_inBlock (body.allots site (⟨label, exit, next⟩ :: loops)) s
  | .forLoop label init condition update body =>
    rw [Stmt.lower]
    refine allots_inBlock fun s => (Stmt.allots_lowerAll site loops init s).bind fun _ =>
      tracks_rounds (fun jump hjump => ?_) (emits_forM fun e _ => (e.emits site).effect)
        fun exit next => allots_inBlock (body.allots site (⟨label, exit, next⟩ :: loops)) s
    obtain ⟨e, -, rfl⟩ := Option.map_eq_some_iff.1 hjump
    exact (e.emits site).jump
  | .breakLoop label =>
    rw [Stmt.lower]
    exact (within_jumpTo label fun _ => List.mem_map_of_mem).emits.allots
  | .continueLoop label =>
    rw [Stmt.lower]
    exact (within_jumpTo label fun _ => List.mem_map_of_mem).emits.allots
  | .returnValue value =>
    rw [Stmt.lower]
    exact (within_returned site value).emits.allots
  | .construct constructor operands =>
    rw [Stmt.lower]
    exact (within_constructed site constructor operands).emits.allots

/-- Statements one after the other take slots one after the other. -/
theorem Stmt.allots_lowerAll (site : Site) (loops : List Loop) (ss : List Stmt) :
    (Stmt.lowerAll site loops ss).Allots := by
  match ss with
  | [] =>
    rw [Stmt.lowerAll]
    exact (Lowering.emits_pure ()).allots
  | s :: ss =>
    rw [Stmt.lowerAll]
    exact fun t => (s.allots site loops t).bind fun _ => Stmt.allots_lowerAll site loops ss t

theorem Stmt.allots_lower? (site : Site) (loops : List Loop) (s : Option Stmt) :
    ∀ x, Stmt.lower? site loops s = some x → x.Allots := by
  match s with
  | none =>
    intro x hx
    rw [Stmt.lower?] at hx
    cases hx
  | some s =>
    intro x hx
    rw [Stmt.lower?] at hx
    cases hx
    exact s.allots site loops

end

end ClassForge
