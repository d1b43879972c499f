/-
# The way through the statements of a method

Code is made from top to bottom.  The code of a statement is put together from stretches
that contain no other statement, with the statements inside it in between: its
`Outline`.  A method is gone through stretch by stretch, at whatever depth they are
(`Stmt.Visits`); so each point between two statements is the end of a stretch, and each
label is made in one.  The code may turn out to be impossible further on: what was
visited before that is visited all the same.

| statement | stretches (`|` is where other statements stand) |
| --- | --- |
| block | open `|` leave |
| branch | condition, open `|` leave, place |
| branch with another one | condition, open `|` leave, go on, open `|` leave, place |
| loop | labels, condition, open `|` leave, back to the top |
| loop with locals | open `|` labels, condition, open `|` leave, update, back to the top `|` leave |

`Journey` says what a way through code keeps: at the end of each stretch things are as a
standing says, with a world that grows from stretch to stretch and is never revised.
Every statement is such a journey for every discipline (`Stmt.journey`).
-/

import ClassForge.Proofs.Balance

namespace ClassForge

/-! ### Points and stretches -/

/-- A point on the way through a method: the slots and the code so far. -/
structure Point where
  slots : LocalSlots
  code : Assembler

/-- The computation succeeds at a point and gets to another. -/
def Lowering.Moves {α : Type} (x : Lowering α) (p : Point) (v : α) (q : Point) : Prop :=
  x p.slots p.code = .ok (v, q.slots) q.code

/-- A computation has one outcome. -/
theorem Lowering.Moves.unique {α : Type} {x : Lowering α} {p q q' : Point} {v v' : α}
    (h : x.Moves p v q) (h' : x.Moves p v' q') : v' = v ∧ q' = q := by
  obtain ⟨slots, code⟩ := q'
  have heq := h'.symm.trans h
  cases heq
  exact ⟨rfl, rfl⟩

/-- The code of a statement: stretches without other statements, with the statements
inside it in between. -/
inductive Outline : Type 1 where
  | last (code : Lowering Unit)
  | step {α : Type} (code : Lowering α) (loops : α → List Loop) (inside : List Stmt)
    (rest : α → Outline)

/-- What the code at the end of a loop knows of its start. -/
structure LoopStart where
  /-- The first slot that is free there. -/
  limit : Nat
  head : Label
  loop : Loop

namespace Lowering

/-- The start of a branch: the condition goes to the label unless it holds. -/
def openBranch (condition : Jump) : Lowering Label := do
  let elseLabel ← emit Assembler.freshLabel
  condition false elseLabel
  modify LocalSlots.enter
  return elseLabel

/-- From one branch to the other. -/
def openElse (elseLabel : Label) : Lowering Label := do
  leaveBlock
  let endLabel ← emit Assembler.freshLabel
  emit (Assembler.branch .goto endLabel)
  emit (Assembler.place elseLabel)
  modify LocalSlots.enter
  return endLabel

/-- The end of a branch. -/
def closeBranch (label : Label) : Lowering Unit := do
  leaveBlock
  emit (Assembler.place label)

/-- The start of a loop that goes on at its top. -/
def openWhile (name : Option String) (condition : Jump) : Lowering LoopStart := do
  let limit ← nextSlot
  let head ← emit (Assembler.freshScopedLabel limit)
  let exit ← emit (Assembler.freshScopedLabel limit)
  emit (Assembler.place head)
  condition false exit
  modify LocalSlots.enter
  return ⟨limit, head, name, exit, head⟩

/-- The end of a loop that goes on at its top. -/
def closeWhile (round : LoopStart) : Lowering Unit := do
  leaveBlock
  emit (Assembler.branch .goto round.head)
  emit (Assembler.place round.loop.exit)

/-- The start of a loop that goes on at a label of its own. -/
def openRounds (name : Option String) (condition : Option Jump) : Lowering LoopStart := do
  let limit ← nextSlot
  let head ← emit (Assembler.freshScopedLabel limit)
  let next ← emit (Assembler.freshScopedLabel limit)
  let exit ← emit (Assembler.freshScopedLabel limit)
  emit (Assembler.place head)
  match condition with
  | some jump => jump false exit
  | none => pure ()
  modify LocalSlots.enter
  return ⟨limit, head, name, exit, next⟩

/-- The end of a loop that tests its condition there. -/
def closeDoWhile (condition : Jump) (round : LoopStart) : Lowering Unit := do
  leaveBlock
  emit (Assembler.place round.loop.next)
  condition true round.head
  emit (Assembler.place round.loop.exit)

/-- The end of a loop with something to do after each round. -/
def closeRounds (update : Lowering Unit) (round : LoopStart) : Lowering Unit := do
  leaveBlock
  emit (Assembler.place round.loop.next)
  update
  emit (Assembler.branch .goto round.head)
  emit (Assembler.place round.loop.exit)

end Lowering

open Lowering

/-- The outline of a statement inside the given loops. -/
def Stmt.outline (site : Site) (loops : List Loop) (s : Stmt) : Outline :=
  match s with
  | .block body => .step (modify LocalSlots.enter) (fun _ => loops) body fun _ => .last leaveBlock
  | .branch condition thenBranch none =>
    .step (openBranch (condition.fragment site).jump) (fun _ => loops) [thenBranch] fun label =>
      .last (closeBranch label)
  | .branch condition thenBranch (some elseBranch) =>
    .step (openBranch (condition.fragment site).jump) (fun _ => loops) [thenBranch] fun label =>
      .step (openElse label) (fun _ => loops) [elseBranch] fun label => .last (closeBranch label)
  | .whileLoop name condition body =>
    .step (openWhile name (condition.fragment site).jump) (fun round => round.loop :: loops) [body]
      fun round => .last (closeWhile round)
  | .doWhileLoop name body condition =>
    .step (openRounds name none) (fun round => round.loop :: loops) [body] fun round =>
      .last (closeDoWhile (condition.fragment site).jump round)
  | .forLoop name init condition update body =>
    .step (modify LocalSlots.enter) (fun _ => loops) init fun _ =>
      .step (openRounds name (condition.map fun e => (e.fragment site).jump))
        (fun round => round.loop :: loops) [body] fun round =>
        .step (closeRounds (update.forM fun e => (e.fragment site).effect) round)
          (fun _ => loops) [] fun _ => .last leaveBlock
  | .expr _ | .declare .. | .breakLoop _ | .continueLoop _ | .returnValue _ | .construct .. =>
    .last (s.lower site loops)

/-- Makes the code that is outlined. -/
def Outline.lower (site : Site) : Outline → Lowering Unit
  | .last code => code
  | .step code loops inside rest => do
    let v ← code
    Stmt.lowerAll site (loops v) inside
    (rest v).lower site

/-- **An outline is of its statement**: what it is lowered to is the code of the statement.
So what is shown for outlines holds for statements. -/
theorem Stmt.lower_outline (site : Site) (loops : List Loop) (s : Stmt) :
    (s.outline site loops).lower site = s.lower site loops := by
  cases s with
  | block body =>
    rw [Stmt.lower]
    rfl
  | branch condition thenBranch elseBranch =>
    cases elseBranch with
    | none =>
      simp only [Stmt.outline, Outline.lower, openBranch, closeBranch, Stmt.lowerAll, Stmt.lower,
        Stmt.lower?, branched, inBlock, leaveBlock, bind_assoc, pure_bind]
    | some elseBranch =>
      simp only [Stmt.outline, Outline.lower, openBranch, openElse, closeBranch, Stmt.lowerAll,
        Stmt.lower, Stmt.lower?, branched, inBlock, leaveBlock, bind_assoc, pure_bind]
  | whileLoop name condition body =>
    simp only [Stmt.outline, Outline.lower, openWhile, closeWhile, Stmt.lowerAll, Stmt.lower,
      Lowering.whileLoop, inBlock, leaveBlock, bind_assoc, pure_bind]
  | doWhileLoop name body condition =>
    simp only [Stmt.outline, Outline.lower, openRounds, closeDoWhile, Stmt.lowerAll, Stmt.lower,
      Lowering.doWhileLoop, inBlock, leaveBlock, bind_assoc, pure_bind]
  | forLoop name init condition update body =>
    cases condition with
    | none =>
      simp only [Stmt.outline, Outline.lower, openRounds, closeRounds, Stmt.lower, Stmt.lowerAll,
        Lowering.forLoop, rounds, inBlock, leaveBlock, bind_assoc, pure_bind, Option.map_none]
    | some condition =>
      simp only [Stmt.outline, Outline.lower, openRounds, closeRounds, Stmt.lower, Stmt.lowerAll,
        Lowering.forLoop, rounds, inBlock, leaveBlock, bind_assoc, pure_bind, Option.map_some]
  | expr | declare | breakLoop | continueLoop | returnValue | construct => rfl

/-- One of the stretches of an outline, with the statements behind it and the loops around
those. -/
inductive Outline.Stage (site : Site) :
    Outline → Point → Point × Point → List Loop × List Stmt → Prop where
  | last {code : Lowering Unit} {p q : Point} (h : code.Moves p () q) :
    Stage site (.last code) p (p, q) ([], [])
  | here {α : Type} {code : Lowering α} {loops : α → List Loop} {inside : List Stmt}
    {rest : α → Outline} {p q : Point} {v : α} (h : code.Moves p v q) :
    Stage site (.step code loops inside rest) p (p, q) (loops v, inside)
  | later {α : Type} {code : Lowering α} {loops : α → List Loop} {inside : List Stmt}
    {rest : α → Outline} {p q q' : Point} {v : α} {r : Point × Point}
    {n : List Loop × List Stmt} (h : code.Moves p v q)
    (hinside : (Stmt.lowerAll site (loops v) inside).Moves q () q')
    (hr : Stage site (rest v) q' r n) : Stage site (.step code loops inside rest) p r n

/-- The stretches of statements that are gone through from a point on, one after the
other, with those of the statements inside them. -/
inductive Stmt.Visits (site : Site) :
    List Loop → List Stmt → Point → Point × Point → Prop where
  | stage {loops : List Loop} {s : Stmt} {ss : List Stmt} {p : Point} {r : Point × Point}
    {n : List Loop × List Stmt} (h : (s.outline site loops).Stage site p r n) :
    Visits site loops (s :: ss) p r
  | inside {loops : List Loop} {s : Stmt} {ss : List Stmt} {p : Point} {r r' : Point × Point}
    {n : List Loop × List Stmt} (h : (s.outline site loops).Stage site p r n)
    (hr : Visits site n.1 n.2 r.2 r') : Visits site loops (s :: ss) p r'
  | next {loops : List Loop} {s : Stmt} {ss : List Stmt} {p q : Point} {r : Point × Point}
    (h : (s.lower site loops).Moves p () q) (hr : Visits site loops ss q r) :
    Visits site loops (s :: ss) p r

/-- The stretches of an outline, with those of the statements inside it. -/
def Outline.Visits (site : Site) (o : Outline) (p : Point) (r : Point × Point) : Prop :=
  ∃ r' n, o.Stage site p r' n ∧ (r = r' ∨ Stmt.Visits site n.1 n.2 r'.2 r)

section Visits

variable {site : Site} {p : Point} {r : Point × Point}

theorem Stmt.not_visits_nil (loops : List Loop) : ¬ Stmt.Visits site loops [] p r := nofun

theorem Stmt.visits_cons {loops : List Loop} {s : Stmt} {ss : List Stmt} :
    Stmt.Visits site loops (s :: ss) p r ↔ (s.outline site loops).Visits site p r ∨
      ∃ q, (s.lower site loops).Moves p () q ∧ Stmt.Visits site loops ss q r := by
  constructor
  · intro h
    cases h with
    | stage h => exact .inl ⟨r, _, h, .inl rfl⟩
    | inside h hr => exact .inl ⟨_, _, h, .inr hr⟩
    | next h hr => exact .inr ⟨_, h, hr⟩
  · rintro (⟨r', n, h, rfl | hr⟩ | ⟨q, h, hr⟩)
    · exact .stage h
    · exact .inside h hr
    · exact .next h hr

/-- The last stretch of a statement is visited as a whole. -/
theorem Outline.visits_last {code : Lowering Unit} :
    (Outline.last code).Visits site p r ↔ r.1 = p ∧ code.Moves p () r.2 := by
  constructor
  · rintro ⟨r', n, h, hr⟩
    cases h with
    | last h =>
      rcases hr with rfl | hr
      · exact ⟨rfl, h⟩
      · exact absurd hr (Stmt.not_visits_nil _)
  · rintro ⟨rfl, h⟩
    exact ⟨r, _, .last h, .inl rfl⟩

/-- A step visits its own code, then the statements inside it, and then goes on with what is
left. Each part starts where the one before it ends. -/
theorem Outline.visits_step {α : Type} {code : Lowering α} {loops : α → List Loop}
    {inside : List Stmt} {rest : α → Outline} :
    (Outline.step code loops inside rest).Visits site p r ↔
      (∃ v, r.1 = p ∧ code.Moves p v r.2) ∨ ∃ v q, code.Moves p v q ∧
        (Stmt.Visits site (loops v) inside q r ∨
          ∃ q', (Stmt.lowerAll site (loops v) inside).Moves q () q' ∧
            (rest v).Visits site q' r) := by
  constructor
  · rintro ⟨r', n, h, hr⟩
    cases h with
    | here h =>
      rcases hr with rfl | hr
      · exact .inl ⟨_, rfl, h⟩
      · exact .inr ⟨_, _, h, .inl hr⟩
    | later h hinside hstage => exact .inr ⟨_, _, h, .inr ⟨_, hinside, _, _, hstage, hr⟩⟩
  · rintro (⟨v, rfl, h⟩ | ⟨v, q, h, hr | ⟨q', hinside, r', n, hstage, hr⟩⟩)
    · exact ⟨r, _, .here h, .inl rfl⟩
    · exact ⟨_, _, .here h, .inr hr⟩
    · exact ⟨r', n, .later h hinside hstage, hr⟩

/-- Code ends with the end of a stretch. -/
theorem Outline.exists_visits_of_moves {o : Outline} {q : Point}
    (h : (o.lower site).Moves p () q) : ∃ p', o.Visits site p (p', q) := by
  induction o generalizing p with
  | last code => exact ⟨p, visits_last.2 ⟨rfl, h⟩⟩
  | step code loops inside rest ih =>
    obtain ⟨v, slots₁, a₁, hcode, h⟩ := Lowering.bind_eq_ok h
    obtain ⟨⟨⟩, slots₂, a₂, hinside, hrest⟩ := Lowering.bind_eq_ok h
    obtain ⟨p', hp'⟩ := ih v (p := ⟨slots₂, a₂⟩) hrest
    exact ⟨p', visits_step.2 (.inr ⟨v, ⟨slots₁, a₁⟩, hcode, .inr ⟨⟨slots₂, a₂⟩, hinside, hp'⟩⟩)⟩

/-- **Behind each statement a stretch ends.** -/
theorem Stmt.exists_visits_of_moves {loops : List Loop} {s : Stmt} {ss : List Stmt} {q : Point}
    (h : (Stmt.lowerAll site loops (s :: ss)).Moves p () q) :
    ∃ p', Stmt.Visits site loops (s :: ss) p (p', q) := by
  induction ss generalizing p s with
  | nil =>
    obtain ⟨⟨⟩, slots, a, hs, hnil⟩ := Lowering.bind_eq_ok h
    cases hnil
    rw [← Stmt.lower_outline] at hs
    obtain ⟨p', hp'⟩ := Outline.exists_visits_of_moves hs
    exact ⟨p', Stmt.visits_cons.2 (.inl hp')⟩
  | cons t ss ih =>
    obtain ⟨⟨⟩, slots, a, hs, hss⟩ := Lowering.bind_eq_ok h
    obtain ⟨p', hp'⟩ := ih (p := ⟨slots, a⟩) hss
    exact ⟨p', Stmt.visits_cons.2 (.inr ⟨⟨slots, a⟩, hs, hp'⟩)⟩

end Visits

/-! ### Journeys -/

/-- At the end of the stretch things are as a standing says, and the labels that are made
in it are for its context. -/
def Discipline.Covers (D : Discipline) (w : World) (r : Point × Point) : Prop :=
  ∃ Q : Standing, Q.Met D w r.2.slots r.2.code ∧ ∀ l, r.1.code.labels.size ≤ l →
    l < r.2.code.labels.size → (w.landing l).context = Q.context

theorem Standing.Met.learn {D : Discipline} {P : Standing} {w w' : World} {s : LocalSlots}
    {a : Assembler} (h : P.Met D w s a) (hw : w.Extends w' a.labels.size) : P.Met D w' s a where
  fits := h.fits
  meets := h.meets.extend hw
  current := h.current
  marks := h.marks_of_le hw Nat.le.refl

theorem Discipline.Covers.learn {D : Discipline} {w w' : World} {r : Point × Point}
    (h : D.Covers w r) {n : Nat} (hw : w.Extends w' n) (hn : r.2.code.labels.size ≤ n) :
    D.Covers w' r := by
  obtain ⟨Q, hQ, hmade⟩ := h
  have hw' : w.Extends w' r.2.code.labels.size :=
    ⟨hw.base, hw.start, fun l hl => hw.landing l (Nat.lt_of_lt_of_le hl hn)⟩
  refine ⟨Q, hQ.learn hw', fun l hl hlt => ?_⟩
  rw [hw'.landing l hlt]
  exact hmade l hl hlt

variable {α β : Type} {D : Discipline} {P : Standing} {Q : α → Standing} {R : β → Standing}

/-- Every label that is made on the way from one point to another is made in one of the
stretches. -/
def Traces (visits : Point → Point × Point → Prop) (p q : Point) : Prop :=
  ∀ l, p.code.labels.size ≤ l → l < q.code.labels.size →
    ∃ r, visits p r ∧ r.1.code.labels.size ≤ l ∧ l < r.2.code.labels.size

theorem Traces.mono {V V' : Point → Point × Point → Prop} {p q : Point} (h : Traces V p q)
    (hV : ∀ r, V p r → V' p r) : Traces V' p q := by
  intro l hl hlt
  obtain ⟨r, hr, hmade⟩ := h l hl hlt
  exact ⟨r, hV r hr, hmade⟩

/-- Where things are as `P` says at the start, the stretches that are visited are covered,
and if the computation succeeds, things are then as `Q` says. -/
def Journey (D : Discipline) (P : Standing) (Q : α → Standing) (x : Lowering α)
    (visits : Point → Point × Point → Prop) : Prop :=
  ∀ (w : World) (p : Point), P.Met D w p.slots p.code →
    ∃ w', w.Extends w' p.code.labels.size ∧
      (∀ r, visits p r → D.Covers w' r ∧ Traces visits p r.2 ∧ p.code.Course D.Guards r.2.code) ∧
      ∀ v q, x.Moves p v q → (Q v).Met D w' q.slots q.code ∧
        p.code.labels.size ≤ q.code.labels.size ∧ p.code.Course D.Guards q.code ∧
          (∀ r, visits p r → r.2.code.labels.size ≤ q.code.labels.size) ∧ Traces visits p q

namespace Journey

variable {x : Lowering α} {f : α → Lowering β} {V V' : Point → Point × Point → Prop}

theorem of_fits (h : ∀ s, D.fits P.context P.first P.outer s → Journey D P Q x V) :
    Journey D P Q x V :=
  fun w p hP => h p.slots hP.fits w p hP

/-- Code without statements inside is one stretch. -/
theorem of_leads {Γ : Context} (h : Leads D false Γ P Q x) (hΓ : ∀ v, (Q v).context = Γ) :
    Journey D P Q x fun p r => ∃ v, r.1 = p ∧ x.Moves p v r.2 := by
  intro w p hP
  by_cases hx : ∃ v q, x.Moves p v q
  · obtain ⟨v, q, hq⟩ := hx
    obtain ⟨w', hpq⟩ := h w _ _ v _ _ hP hq
    have htraces : Traces (fun p r => ∃ v, r.1 = p ∧ x.Moves p v r.2) p q :=
      fun l hl hlt => ⟨(p, q), ⟨v, rfl, hq⟩, hl, hlt⟩
    refine ⟨w', hpq.learns, fun r hr => ?_, fun u r hr => ?_⟩
    · obtain ⟨u, rfl, hr⟩ := hr
      obtain ⟨rfl, hrq⟩ := hq.unique hr
      refine ⟨⟨Q u, hrq ▸ hpq.met, fun l hl hlt => ?_⟩, hrq ▸ htraces, hrq ▸ hpq.course⟩
      rw [hΓ]
      exact hpq.made l hl (hrq ▸ hlt)
    · obtain ⟨rfl, rfl⟩ := hq.unique hr
      refine ⟨hpq.met, hpq.size_le, hpq.course, fun r' hr' => ?_, htraces⟩
      obtain ⟨u, -, hr'⟩ := hr'
      exact Nat.le_of_eq (congrArg (·.code.labels.size) (hq.unique hr').2)
  · refine ⟨w, .refl w _, fun r hr => ?_, fun v q hq => absurd ⟨v, q, hq⟩ hx⟩
    obtain ⟨v, -, hr⟩ := hr
    exact absurd ⟨v, r.2, hr⟩ hx

/-- One part of the way after the other.  What the result of the first part is like may be
used for the second. -/
theorem bind {U : α → Point → Point × Point → Prop} {C : α → Prop} (hx : Journey D P Q x V)
    (hprop : ∀ w p v q, P.Met D w p.slots p.code → x.Moves p v q → C v)
    (hf : ∀ v, C v → Journey D (Q v) R (f v) (U v)) :
    Journey D P R (x >>= f) fun p r => V p r ∨ ∃ v q, x.Moves p v q ∧ U v q r := by
  intro w p hP
  obtain ⟨w₁, hw₁, hV, hend⟩ := hx w p hP
  by_cases hok : ∃ v q, x.Moves p v q
  · obtain ⟨v, q, hq⟩ := hok
    obtain ⟨hQ, hsize, hcourse, hbefore, htraces⟩ := hend v q hq
    obtain ⟨w₂, hw₂, hU, hend'⟩ := hf v (hprop w p v q hP hq) w₁ q hQ
    -- a label is made before the second part or in it
    have htrace : ∀ {t : Point}, Traces (U v) q t →
        Traces (fun p r => V p r ∨ ∃ v q, x.Moves p v q ∧ U v q r) p t := by
      intro t ht l hl hlt
      rcases Nat.lt_or_ge l q.code.labels.size with hq' | hq'
      · obtain ⟨r, hr, hmade⟩ := htraces l hl hq'
        exact ⟨r, .inl hr, hmade⟩
      · obtain ⟨r, hr, hmade⟩ := ht l hq' hlt
        exact ⟨r, .inr ⟨v, q, hq, hr⟩, hmade⟩
    refine ⟨w₂, hw₁.trans hw₂ hsize, fun r hr => ?_, fun u r hr => ?_⟩
    · rcases hr with hr | ⟨u, q', hq', hr⟩
      · obtain ⟨hcovers, htraces', hcourse'⟩ := hV r hr
        exact ⟨hcovers.learn hw₂ (hbefore r hr), htraces'.mono fun _ => .inl, hcourse'⟩
      · obtain ⟨rfl, rfl⟩ := hq.unique hq'
        obtain ⟨hcovers, htraces', hcourse'⟩ := hU r hr
        exact ⟨hcovers, htrace htraces', hcourse.trans hcourse'⟩
    · obtain ⟨hR, hsize', hcourse', hbefore', htraces'⟩ :=
        hend' u r ((Lowering.bind_of_ok hq).symm.trans hr)
      refine ⟨hR, Nat.le_trans hsize hsize', hcourse.trans hcourse', fun r' hr' => ?_,
        htrace htraces'⟩
      rcases hr' with hr' | ⟨u', q', hq', hr'⟩
      · exact Nat.le_trans (hbefore r' hr') hsize'
      · obtain ⟨rfl, rfl⟩ := hq.unique hq'
        exact hbefore' r' hr'
  · refine ⟨w₁, hw₁, fun r hr => ?_, fun u r hr => ?_⟩
    · rcases hr with hr | ⟨v, q, hq, -⟩
      · obtain ⟨hcovers, htraces, hcourse⟩ := hV r hr
        exact ⟨hcovers, htraces.mono fun _ => .inl, hcourse⟩
      · exact absurd ⟨v, q, hq⟩ hok
    · obtain ⟨v, slots, a, hv, -⟩ := Lowering.bind_eq_ok hr
      exact absurd ⟨v, ⟨slots, a⟩, hv⟩ hok

theorem visiting (h : Journey D P Q x V) (hV : ∀ p r, V' p r ↔ V p r) : Journey D P Q x V' := by
  have heq : V' = V := funext fun p => funext fun r => propext (hV p r)
  rw [heq]
  exact h

end Journey

namespace Outline

variable {site : Site}

theorem journey_last {Q : Standing} {code : Lowering Unit}
    (h : Leads D false Q.context P (fun _ => Q) code) :
    Journey D P (fun _ => Q) ((Outline.last code).lower site) ((Outline.last code).Visits site) :=
  (Journey.of_leads h fun _ => rfl).visiting fun _ _ =>
    visits_last.trans ⟨fun hr => ⟨(), hr⟩, fun hr => hr.elim fun _ => id⟩

/-- **A step is a journey if its parts are**: the code before the statements inside, these
statements, and the rest. What is known of the value that the code yields is handed on to
both. -/
theorem journey_step {Q : Standing} {R S : α → Standing} {Γ : Context} {code : Lowering α}
    {loops : α → List Loop} {inside : List Stmt} {rest : α → Outline} {C : α → Prop}
    (hcode : Leads D false Γ P R code) (hΓ : ∀ v, (R v).context = Γ)
    (hprop : ∀ w p v q, P.Met D w p.slots p.code → code.Moves p v q → C v)
    (hinside : ∀ v, C v → Journey D (R v) (fun _ => S v)
      (Stmt.lowerAll site (loops v) inside) (Stmt.Visits site (loops v) inside))
    (hrest : ∀ v, C v →
      Journey D (S v) (fun _ => Q) ((rest v).lower site) ((rest v).Visits site)) :
    Journey D P (fun _ => Q) ((Outline.step code loops inside rest).lower site)
      ((Outline.step code loops inside rest).Visits site) := by
  refine ((Journey.of_leads hcode hΓ).bind hprop fun v hv =>
    (hinside v hv).bind (C := fun _ => True) (fun _ _ _ _ _ _ => trivial) fun _ _ =>
      hrest v hv).visiting fun p r => ?_
  rw [visits_step]
  refine or_congr_right (exists_congr fun v => exists_congr fun q => and_congr_right fun _ =>
    or_congr_right ⟨fun hr => ⟨(), hr⟩, fun hr => hr.elim fun _ => id⟩)

end Outline

/-! ### Stretches

Each stretch of code between two points of a statement leads from the one standing to the other. -/

namespace Standing

variable {l : Label}

/-- Control may go to the label, also from blocks inside. -/
def Reaches (D : Discipline) (P : Standing) (l : Label) : Prop :=
  ∃ m ∈ P.marks, m.label = l ∧ ∀ Γ, D.Admits m.landing (P.context ++ Γ) P.level

theorem Reaches.widen (h : P.Reaches D l) (Γ : Context) : (P.widen Γ).Reaches D l := by
  obtain ⟨m, hm, hl, hadmits⟩ := h
  refine ⟨m, hm, hl, fun Γ' => ?_⟩
  change D.Admits m.landing (P.context ++ Γ ++ Γ') P.level
  rw [List.append_assoc]
  exact hadmits (Γ ++ Γ')

theorem Reaches.inner (h : P.Reaches D l) : (P.inner D).Reaches D l := h

theorem Reaches.marking (h : P.Reaches D l) {marks : List Mark} (hm : ∀ m ∈ P.marks, m ∈ marks) :
    (P.marking marks).Reaches D l := by
  obtain ⟨m, hmem, hl, hadmits⟩ := h
  exact ⟨m, hm m hmem, hl, hadmits⟩

/-- A label for the point itself. -/
def mark (P : Standing) (l : Label) (limit : Option Nat) : Mark :=
  ⟨l, ⟨P.context, P.level, limit⟩, true⟩

/-- The same with a label for the point itself. -/
def ahead (P : Standing) (l : Label) : Standing := P.marking (P.mark l none :: P.marks)

/-- The same with the labels of a loop. -/
def inLoop (P : Standing) (round : LoopStart) : Standing :=
  P.marking (P.mark round.loop.exit (some round.limit) ::
    P.mark round.loop.next (some round.limit) :: P.mark round.head (some round.limit) :: P.marks)

/-- The labels of the loop drop the locals that are declared in it. -/
def Bars (D : Discipline) (P : Standing) (round : LoopStart) : Prop :=
  D.Bars ⟨P.context, P.level, some round.limit⟩

variable {round : LoopStart}

theorem Bars.admits (h : P.Bars D round) :
    D.Admits ⟨P.context, P.level, some round.limit⟩ P.context P.level :=
  Discipline.Bars.admits_self h (Discipline.same_refl _)

/-- The labels of the loop are known in it, beside those of the loops around it. -/
theorem Bars.reaches (h : P.Bars D round) {loops : List Loop}
    (hloops : ∀ l ∈ Loop.labels loops, P.Reaches D l) :
    ∀ l ∈ Loop.labels (round.loop :: loops), ((P.inLoop round).inner D).Reaches D l := by
  have hadmits : ∀ Γ, D.Admits ⟨P.context, P.level, some round.limit⟩ (P.context ++ Γ) P.level :=
    Discipline.Bars.admits h (Discipline.same_refl _)
  intro l hl
  rw [Loop.labels, List.flatMap_cons, List.mem_append] at hl
  rcases hl with hl | hl
  · rcases List.mem_cons.1 hl with rfl | hl
    · exact ⟨_, List.mem_cons_self, rfl, hadmits⟩
    · rw [List.mem_singleton.1 hl]
      exact ⟨_, List.mem_cons_of_mem _ List.mem_cons_self, rfl, hadmits⟩
  · refine ((hloops l hl).marking fun m hm => ?_).inner
    exact List.mem_cons_of_mem _ (List.mem_cons_of_mem _ (List.mem_cons_of_mem _ hm))

end Standing

namespace Lowering

variable {s : LocalSlots} {label : Label} {round : LoopStart} {condition : Jump}

theorem leads_openBranch (hc : JumpBalances D condition) :
    Leads D false P.context P (fun l => (P.ahead l).inner D) (openBranch condition) := by
  refine leads_newLabel none P.level fun elseLabel => ?_
  have hcondition : Leads D false P.context (P.ahead elseLabel) (fun _ => P.ahead elseLabel)
      (condition false elseLabel) :=
    (hc (P.ahead elseLabel) false (P.mark elseLabel none) List.mem_cons_self
      (admits_here P P.level)).forget
  exact hcondition.bind fun _ => leads_enter.bind fun _ =>
    leads_pure (Q := fun l => (P.ahead l).inner D) elseLabel

theorem leads_closeBranch (hs : D.fits P.context P.first P.outer s) (Γ : Context) :
    Leads D false P.context (((P.ahead label).inner D).widen Γ) (fun _ => P)
      (closeBranch label) :=
  (leads_leaveBlock (P := P.ahead label) hs Γ).bind fun _ =>
    leads_place (P := P.ahead label) (m := P.mark label none) [] rfl rfl
      (admits_here P P.level) rfl

/-- Between two branches, the first jumps to the end, and the label of the second is
placed. -/
theorem leads_openElse (hs : D.fits P.context P.first P.outer s) (Γ : Context) :
    Leads D false P.context (((P.ahead label).inner D).widen Γ) (fun l => (P.ahead l).inner D)
      (openElse label) := by
  refine (leads_leaveBlock (P := P.ahead label) hs Γ).bind fun _ =>
    leads_newLabel none P.level fun endLabel => ?_
  let both : Standing := P.marking (P.mark endLabel none :: P.mark label none :: P.marks)
  have hgoto : Leads D false P.context both (fun _ => both)
      (emit (Assembler.branch .goto endLabel)) :=
    leads_branch (m := P.mark endLabel none) (k := P.level) (n := P.level) rfl List.mem_cons_self
      (Discipline.same_refl _) (admits_here P P.level) fun h => absurd rfl h
  have hplace : Leads D false P.context both (fun _ => P.ahead endLabel)
      (emit (Assembler.place label)) :=
    leads_place (m := P.mark label none) [P.mark endLabel none] rfl rfl
      (admits_here P P.level) rfl
  exact hgoto.bind fun _ => hplace.bind fun _ => leads_enter.bind fun _ =>
    leads_pure (Q := fun l => (P.ahead l).inner D) endLabel

theorem bars_of_fits (round : LoopStart) (hs : D.fits P.context P.first P.outer s)
    (hlimit : round.limit = s.next) : P.Bars D round :=
  ⟨P.first, P.outer, s, congrArg some hlimit, hs⟩

/-- The start of a loop with its test first makes the labels, places the one at the top and
tests the condition. -/
theorem leads_openWhile (name : Option String) (hc : JumpBalances D condition) :
    Leads D false P.context P (fun round => (P.inLoop round).inner D)
      (openWhile name condition) := by
  refine leads_nextSlot fun s hs => leads_newLabel (some s.next) P.level fun head =>
    leads_newLabel (some s.next) P.level fun exit => ?_
  let round : LoopStart := ⟨s.next, head, name, exit, head⟩
  have hadmits := (bars_of_fits round hs rfl).admits
  let both : Standing :=
    P.marking (P.mark exit (some s.next) :: P.mark head (some s.next) :: P.marks)
  have hplace : Leads D false P.context both (fun _ => P.inLoop round)
      (emit (Assembler.place head)) := by
    refine (leads_place (P := both) (m := P.mark head (some s.next))
      [P.mark exit (some s.next)] rfl rfl hadmits rfl).remark
      (fun _ => (P.inLoop round).marks) fun _ m hm => .inl ?_
    -- the next round starts at the top
    rcases List.mem_cons.1 hm with rfl | hm
    · exact List.mem_cons_self
    · rcases List.mem_cons.1 hm with rfl | hm
      · exact List.mem_cons_of_mem _ List.mem_cons_self
      · exact List.mem_cons_of_mem _ hm
  have hcondition : Leads D false P.context (P.inLoop round) (fun _ => P.inLoop round)
      (condition false exit) :=
    (hc (P.inLoop round) false (P.mark exit (some s.next)) List.mem_cons_self hadmits).forget
  exact hplace.bind fun _ => hcondition.bind fun _ => leads_enter.bind fun _ =>
    leads_pure (Q := fun round => (P.inLoop round).inner D) round

/-- The start of a counting loop does the same, with or without a condition. -/
theorem leads_openRounds (name : Option String) {condition : Option Jump}
    (hc : ∀ jump, condition = some jump → JumpBalances D jump) :
    Leads D false P.context P (fun round => (P.inLoop round).inner D)
      (openRounds name condition) := by
  refine leads_nextSlot fun s hs => leads_newLabel (some s.next) P.level fun head =>
    leads_newLabel (some s.next) P.level fun next =>
      leads_newLabel (some s.next) P.level fun exit => ?_
  let round : LoopStart := ⟨s.next, head, name, exit, next⟩
  have hadmits := (bars_of_fits round hs rfl).admits
  have hplace : Leads D false P.context (P.inLoop round) (fun _ => P.inLoop round)
      (emit (Assembler.place head)) :=
    (leads_place (P := P.inLoop round) (m := P.mark head (some s.next))
      [P.mark exit (some s.next), P.mark next (some s.next)] rfl rfl hadmits rfl).remark
      (fun _ => (P.inLoop round).marks) fun _ _ hm => .inl hm
  have hlast : Leads D false P.context (P.inLoop round)
      (fun round => (P.inLoop round).inner D) (do
        modify LocalSlots.enter
        return round) :=
    leads_enter.bind fun _ => leads_pure (Q := fun round => (P.inLoop round).inner D) round
  refine hplace.bind fun _ => ?_
  split
  · rename_i jump
    have hcondition : Leads D false P.context (P.inLoop round) (fun _ => P.inLoop round)
        (jump false exit) :=
      (hc jump rfl (P.inLoop round) false (P.mark exit (some s.next)) List.mem_cons_self
        hadmits).forget
    exact hcondition.bind fun _ => hlast
  · exact (leads_pure (Q := fun _ => P.inLoop round) ()).bind fun _ => hlast

/-- Back to the top of a loop. -/
theorem leads_gotoHead (hbars : P.Bars D round) {marks : List Mark}
    (hm : P.mark round.head (some round.limit) ∈ marks) :
    Leads D false P.context (P.marking marks) (fun _ => P.marking marks)
      (emit (Assembler.branch .goto round.head)) :=
  leads_branch (P := P.marking marks) (m := P.mark round.head (some round.limit)) (k := P.level)
    (n := P.level) rfl hm (Discipline.same_refl _) hbars.admits fun h => absurd rfl h

theorem leads_placeExit (hbars : P.Bars D round) {marks : List Mark}
    (hm : ∀ m ∈ P.marks, m ∈ marks) :
    Leads D false P.context
      (P.marking (P.mark round.loop.exit (some round.limit) :: marks)) (fun _ => P)
      (emit (Assembler.place round.loop.exit)) :=
  (leads_place (P := P.marking (P.mark round.loop.exit (some round.limit) :: marks))
    (m := P.mark round.loop.exit (some round.limit)) [] rfl rfl hbars.admits rfl).remark
    (fun _ => P.marks) fun _ m hmark => .inr (hm m hmark)

theorem leads_closeWhile (hs : D.fits P.context P.first P.outer s) (hbars : P.Bars D round)
    (Γ : Context) :
    Leads D false P.context (((P.inLoop round).inner D).widen Γ) (fun _ => P)
      (closeWhile round) :=
  (leads_leaveBlock (P := P.inLoop round) hs Γ).bind fun _ =>
    (leads_gotoHead hbars (List.mem_cons_of_mem _ (List.mem_cons_of_mem _ List.mem_cons_self))).bind
      fun _ => leads_placeExit hbars fun _ hm =>
        List.mem_cons_of_mem _ (List.mem_cons_of_mem _ hm)

theorem leads_placeNext (hbars : P.Bars D round) :
    Leads D false P.context (P.inLoop round)
      (fun _ => P.marking (P.mark round.loop.exit (some round.limit) ::
        P.mark round.head (some round.limit) :: P.marks))
      (emit (Assembler.place round.loop.next)) :=
  leads_place (P := P.inLoop round) (m := P.mark round.loop.next (some round.limit))
    [P.mark round.loop.exit (some round.limit)] rfl rfl hbars.admits rfl

theorem leads_closeDoWhile (hs : D.fits P.context P.first P.outer s) (hbars : P.Bars D round)
    (hc : JumpBalances D condition) (Γ : Context) :
    Leads D false P.context (((P.inLoop round).inner D).widen Γ) (fun _ => P)
      (closeDoWhile condition round) :=
  (leads_leaveBlock (P := P.inLoop round) hs Γ).bind fun _ =>
    (leads_placeNext hbars).bind fun _ =>
      ((hc (P.marking _) true (P.mark round.head (some round.limit))
        (List.mem_cons_of_mem _ List.mem_cons_self) hbars.admits).forget).bind fun _ =>
          leads_placeExit hbars fun _ => List.mem_cons_of_mem _

theorem leads_closeRounds (hs : D.fits P.context P.first P.outer s) (hbars : P.Bars D round)
    {update : Lowering Unit} (hu : Balances D 0 0 update) (Γ : Context) :
    Leads D false P.context (((P.inLoop round).inner D).widen Γ) (fun _ => P)
      (closeRounds update round) :=
  (leads_leaveBlock (P := P.inLoop round) hs Γ).bind fun _ =>
    (leads_placeNext hbars).bind fun _ =>
      ((hu (P.marking _) P.level (Discipline.same_refl _)).forget).bind fun _ =>
        (leads_gotoHead hbars (List.mem_cons_of_mem _ List.mem_cons_self)).bind fun _ =>
          leads_placeExit hbars fun _ => List.mem_cons_of_mem _

theorem leads_jumpTo {loops : List Loop} (label : Option String) {side : Loop → Label}
    (h : ∀ l ∈ loops, P.Reaches D (side l)) :
    Leads D false P.context P (fun _ => P) (jumpTo loops label side) := by
  unfold jumpTo
  split
  · rename_i l hl
    obtain ⟨m, hm, hlabel, hadmits⟩ := h l (mem_of_findLoop hl)
    have hadmits := hadmits []
    rw [List.append_nil] at hadmits
    rw [← hlabel]
    exact leads_branch (k := P.level) (n := P.level) rfl hm (Discipline.same_refl _) hadmits
      fun h => absurd rfl h
  · exact leads_throw _

/-- The operand of a return is on the stack, unless there is nothing below. -/
theorem leads_exit {n : Nat} (type : Option FieldType)
    (hk : D.Grounded ∨ D.Same P.level (n + type.toList.length)) (m : Nat) :
    Leads D false P.context P (fun _ => P.having m) (emit (Assembler.exit type)) := by
  have heffect : (Assembler.returnOpcode type).effect.isUnconditional = true ∧
      (Assembler.returnOpcode type).effect.takes [] .none = type.toList.length := by
    cases type with
    | none => exact ⟨rfl, rfl⟩
    | some type =>
      rw [Frame.effect_exit]
      exact ⟨rfl, rfl⟩
  rw [← heffect.2] at hk
  exact leads_return (i := .simple (Assembler.returnOpcode type)) m rfl heffect.1 hk

/-- A return with a value takes the value. One without leads on just if nothing has to be
spared or the method returns nothing. -/
theorem leads_returned (site : Site) (value : Option Expr) {bare : Bool}
    (hbare : bare = true → D.Grounded ∨ site.method.returns = none)
    (h : D.Flat ∨ value.elim bare Expr.isOperand = true) :
    Leads D false P.context P (fun _ => P) (returned site value) := by
  unfold returned
  split
  · rename_i e type hreturns
    have hvalue := balances_converted (e.balances_value site h) type
    rw [hreturns]
    exact (hvalue P P.level (Discipline.same_refl _)).forget.bind fun _ =>
      leads_exit (P := P.having (P.level + 1)) (n := P.level) (some type)
        (.inr (Discipline.same_refl _)) P.level
  · rename_i hreturns
    rw [hreturns]
    exact (leads_unsupported (Q := fun _ => P) _).bind fun _ =>
      leads_exit (n := P.level) none (.inr (Discipline.same_refl _)) P.level
  · refine (leads_pure (Q := fun _ => P) ()).bind fun _ => leads_exit (n := P.level) _ ?_ P.level
    rcases h with hflat | hvalue
    · exact .inr (.inl hflat)
    · refine (hbare hvalue).imp_right fun hnone => ?_
      rw [hnone]
      exact Discipline.same_refl _

theorem leads_constructed (site : Site) (constructor : MethodRef) {operands : List Expr}
    (h : D.Flat ∨ Expr.areOperands operands = true) :
    Leads D false P.context P (fun _ => P) (constructed site constructor operands) := by
  have hcall : Balances D 0 0 (constructed site constructor operands) :=
    .ite (fun _ => (balances_loadThis site).bind fun _ =>
      ((balances_arguments (Expr.balanced_operands D site operands h) _).above 1).bind fun _ =>
        balances_construct constructor _) fun _ => balances_throw _
  exact (hcall P P.level (Discipline.same_refl _)).forget

/-- A declaration adds its local to the context, behind those that are there. -/
theorem leads_declared (site : Site) {id : LocalId} (type : FieldType) {initial : Option Expr}
    (hid : D.Loose ∨ P.context.declares id = false)
    (h : D.Flat ∨ Expr.isOperand? initial = true) :
    Leads D false (P.context ++ [(id, type)]) P (fun _ => P.widen [(id, type)])
      (declared site id type initial) := by
  intro w s a v s' b hP hx
  obtain ⟨slot, s₁, a₁, hdeclare, hx⟩ := Lowering.bind_eq_ok hx
  obtain ⟨hdeclared, hlookup⟩ := progress_declare hP hid hdeclare
  cases initial with
  | none =>
    cases hx
    exact ⟨w, hdeclared⟩
  | some e =>
    obtain ⟨u, s₂, a₂, hvalue, hstore⟩ := Lowering.bind_eq_ok hx
    -- the initial value does not change the slots
    obtain ⟨-, rfl⟩ := (within_converted (e.within false site).value type).emits _ _ _ _ _ hvalue
    have hoperand : D.Flat ∨ e.isOperand = true := h
    obtain ⟨w₂, hconverted⟩ := balances_converted (e.balances_value site hoperand) type
      (P.widen [(id, type)]) P.level (Discipline.same_refl _) w _ _ u _ _ hdeclared.met hvalue
    exact ⟨w₂, (hdeclared.trans { hconverted with alive := nofun }).trans
      (progress_storeLocal hconverted.met hlookup hstore (Discipline.same_refl _))⟩

end Lowering

/-! ### Statements

A journey through a statement is put together from those through its parts. -/

section Statements

variable {site : Site} {loops : List Loop} {Γ : Context} {s : Stmt}

theorem Standing.widen_nil (P : Standing) : P.widen [] = P := by
  rw [Standing.widen, List.append_nil]

theorem Standing.widen_widen (P : Standing) (Γ Γ' : Context) :
    (P.widen Γ).widen Γ' = P.widen (Γ ++ Γ') := by
  rw [Standing.widen, Standing.widen, Standing.widen, List.append_assoc]

/-- No statement is a journey that goes nowhere. -/
theorem Stmt.journey_nil (P : Standing) :
    Journey D P (fun _ => P) (Stmt.lowerAll site loops []) (Stmt.Visits site loops []) := by
  intro w p hP
  refine ⟨w, .refl w _, fun r hr => absurd hr (Stmt.not_visits_nil loops), fun v q hq => ?_⟩
  rw [Stmt.lowerAll] at hq
  obtain ⟨slots, code⟩ := q
  cases hq
  exact ⟨hP, Nat.le.refl, .refl, fun r hr => absurd hr (Stmt.not_visits_nil loops),
    fun l hl hlt => absurd hlt (Nat.not_lt.2 hl)⟩

theorem Stmt.journey_cons {Q R : Standing} {ss : List Stmt}
    (hs : Journey D P (fun _ => Q) (s.lower site loops) ((s.outline site loops).Visits site))
    (hss : Journey D Q (fun _ => R) (Stmt.lowerAll site loops ss) (Stmt.Visits site loops ss)) :
    Journey D P (fun _ => R) (Stmt.lowerAll site loops (s :: ss))
      (Stmt.Visits site loops (s :: ss)) := by
  rw [Stmt.lowerAll]
  refine (hs.bind (C := fun _ => True) (fun _ _ _ _ _ _ => trivial) fun _ _ => hss).visiting
    fun p r => ?_
  rw [Stmt.visits_cons]
  exact or_congr_right ⟨fun hr => ⟨(), hr⟩, fun hr => hr.elim fun _ => id⟩

/-- One statement on its own. -/
theorem Stmt.journey_single {Q : Standing}
    (h : Journey D P (fun _ => Q) (s.lower site loops) ((s.outline site loops).Visits site)) :
    Journey D P (fun _ => Q) (Stmt.lowerAll site loops [s]) (Stmt.Visits site loops [s]) :=
  Stmt.journey_cons h (Stmt.journey_nil Q)

/-- A statement without others inside. -/
theorem Stmt.journey_of_leads {Q : Standing}
    (ho : s.outline site loops = .last (s.lower site loops))
    (h : Leads D false Q.context P (fun _ => Q) (s.lower site loops)) :
    Journey D P (fun _ => Q) (s.lower site loops) ((s.outline site loops).Visits site) := by
  rw [ho]
  exact Outline.journey_last h

theorem Stmt.journey_closed (hs : s.declared = []) {x : Lowering Unit}
    {visits : Point → Point × Point → Prop} (h : Journey D P (fun _ => P) x visits) :
    Journey D P (fun _ => P.widen s.declared) x visits := by
  rw [hs, Standing.widen_nil]
  exact h

namespace Outline

variable {condition : Expr} {body : Stmt}

theorem journey_block {body : List Stmt}
    (h : Journey D (P.inner D) (fun _ => (P.inner D).widen Γ) (Stmt.lowerAll site loops body)
      (Stmt.Visits site loops body)) :
    Journey D P (fun _ => P) (((Stmt.block body).outline site loops).lower site)
      (((Stmt.block body).outline site loops).Visits site) :=
  .of_fits fun _ hs => journey_step (C := fun _ => True) (leads_enter (P := P)) (fun _ => rfl)
    (fun _ _ _ _ _ _ => trivial) (fun _ _ => h) fun _ _ => journey_last (leads_leaveBlock hs Γ)

/-- A condition is a journey if its branches are, each in a scope of its own and with the
label of the other side ahead. -/
theorem journey_branch {thenBranch : Stmt} (hc : JumpBalances D (condition.fragment site).jump)
    (ht : ∀ label, Journey D ((P.ahead label).inner D)
      (fun _ => ((P.ahead label).inner D).widen Γ) (thenBranch.lower site loops)
      ((thenBranch.outline site loops).Visits site)) {elseBranch : Option Stmt}
    (he : ∀ s, elseBranch = some s → ∀ label, Journey D ((P.ahead label).inner D)
      (fun _ => ((P.ahead label).inner D).widen s.declared) (s.lower site loops)
      ((s.outline site loops).Visits site)) :
    Journey D P (fun _ => P)
      (((Stmt.branch condition thenBranch elseBranch).outline site loops).lower site)
      (((Stmt.branch condition thenBranch elseBranch).outline site loops).Visits site) := by
  refine .of_fits fun s hs => ?_
  cases elseBranch with
  | none =>
    exact journey_step (C := fun _ => True) (leads_openBranch hc) (fun _ => rfl)
      (fun _ _ _ _ _ _ => trivial) (fun label _ => Stmt.journey_single (ht label))
      fun label _ => journey_last (leads_closeBranch hs Γ)
  | some other =>
    exact journey_step (C := fun _ => True) (leads_openBranch hc) (fun _ => rfl)
      (fun _ _ _ _ _ _ => trivial) (fun label _ => Stmt.journey_single (ht label)) fun label _ =>
        journey_step (C := fun _ => True) (leads_openElse hs Γ) (fun _ => rfl)
          (fun _ _ _ _ _ _ => trivial)
          (fun label _ => Stmt.journey_single (he other rfl label)) fun label _ =>
            journey_last (leads_closeBranch hs _)

theorem bars_of_moves {x : Nat → Lowering LoopStart}
    (hx : ∀ limit, Yields (fun round => round.limit = limit) (x limit)) (w : World) (p : Point)
    (round : LoopStart) (q : Point) (hP : P.Met D w p.slots p.code)
    (h : (Lowering.nextSlot >>= x).Moves p round q) : P.Bars D round :=
  bars_of_fits round hP.fits (hx p.slots.next p.slots p.code round q.slots q.code h)

theorem bars_openWhile (w : World) (p : Point) (name : Option String) (condition : Jump)
    (round : LoopStart) (q : Point) (hP : P.Met D w p.slots p.code)
    (h : (openWhile name condition).Moves p round q) : P.Bars D round :=
  bars_of_moves (fun _ => .bind fun _ => .bind fun _ => .bind fun _ => .bind fun _ =>
    .bind fun _ => yields_pure rfl) w p round q hP h

theorem bars_openRounds (w : World) (p : Point) (name : Option String)
    (condition : Option Jump) (round : LoopStart) (q : Point) (hP : P.Met D w p.slots p.code)
    (h : (openRounds name condition).Moves p round q) : P.Bars D round := by
  refine bars_of_moves (fun _ => .bind fun _ => .bind fun _ => .bind fun _ => .bind fun _ => ?_)
    w p round q hP h
  cases condition with
  | none => exact .bind fun _ => yields_pure rfl
  | some jump => exact .bind fun _ => .bind fun _ => yields_pure rfl

theorem journey_whileLoop (name : Option String)
    (hc : JumpBalances D (condition.fragment site).jump)
    (hb : ∀ round, P.Bars D round → Journey D ((P.inLoop round).inner D)
      (fun _ => ((P.inLoop round).inner D).widen Γ) (body.lower site (round.loop :: loops))
      ((body.outline site (round.loop :: loops)).Visits site)) :
    Journey D P (fun _ => P)
      (((Stmt.whileLoop name condition body).outline site loops).lower site)
      (((Stmt.whileLoop name condition body).outline site loops).Visits site) :=
  .of_fits fun _ hs => journey_step (leads_openWhile name hc) (fun _ => rfl)
    (fun w p => bars_openWhile w p name _) (fun round h => Stmt.journey_single (hb round h))
    fun _ h => journey_last (leads_closeWhile hs h Γ)

/-- A loop with its test last is a journey if its body is. -/
theorem journey_doWhileLoop (name : Option String)
    (hc : JumpBalances D (condition.fragment site).jump)
    (hb : ∀ round, P.Bars D round → Journey D ((P.inLoop round).inner D)
      (fun _ => ((P.inLoop round).inner D).widen Γ) (body.lower site (round.loop :: loops))
      ((body.outline site (round.loop :: loops)).Visits site)) :
    Journey D P (fun _ => P)
      (((Stmt.doWhileLoop name body condition).outline site loops).lower site)
      (((Stmt.doWhileLoop name body condition).outline site loops).Visits site) :=
  .of_fits fun _ hs => journey_step (leads_openRounds name nofun) (fun _ => rfl)
    (fun w p => bars_openRounds w p name _)
    (fun round h => Stmt.journey_single (hb round h))
    fun _ h => journey_last (leads_closeDoWhile hs h hc Γ)

/-- A counting loop is a journey if its head and its body are; the body sees what the head
declares. -/
theorem journey_forLoop (name : Option String) {init : List Stmt} {condition : Option Expr}
    {update : List Expr} {Γ' : Context}
    (hi : Journey D (P.inner D) (fun _ => (P.inner D).widen Γ') (Stmt.lowerAll site loops init)
      (Stmt.Visits site loops init))
    (hc : ∀ e, condition = some e → JumpBalances D (e.fragment site).jump)
    (hu : Balances D 0 0 (update.forM fun e => (e.fragment site).effect))
    (hb : ∀ round, ((P.inner D).widen Γ').Bars D round →
      Journey D ((((P.inner D).widen Γ').inLoop round).inner D)
        (fun _ => ((((P.inner D).widen Γ').inLoop round).inner D).widen Γ)
        (body.lower site (round.loop :: loops))
        ((body.outline site (round.loop :: loops)).Visits site)) :
    Journey D P (fun _ => P)
      (((Stmt.forLoop name init condition update body).outline site loops).lower site)
      (((Stmt.forLoop name init condition update body).outline site loops).Visits site) := by
  refine .of_fits fun _ hs => journey_step (C := fun _ => True) (leads_enter (P := P))
    (fun _ => rfl) (fun _ _ _ _ _ _ => trivial) (fun _ _ => hi) fun _ _ => .of_fits fun _ hs' => ?_
  refine journey_step (leads_openRounds name fun jump hjump => ?_) (fun _ => rfl)
    (fun w p => bars_openRounds w p name _)
    (fun round h => Stmt.journey_single (hb round h)) fun _ h => ?_
  · obtain ⟨e, he, rfl⟩ := Option.map_eq_some_iff.1 hjump
    exact hc e he
  · exact journey_step (C := fun _ => True) (leads_closeRounds hs' h hu Γ) (fun _ => rfl)
      (fun _ _ _ _ _ _ => trivial) (fun _ _ => Stmt.journey_nil _) fun _ _ =>
        journey_last (leads_leaveBlock hs Γ')

end Outline

mutual

/-- **Every statement is a journey.**  At the end the locals that it declares are in scope
beside those at the start. -/
theorem Stmt.journey (s : Stmt) (P : Standing) {loops : List Loop} {bare : Bool}
    (hbare : bare = true → D.Grounded ∨ site.method.returns = none)
    (hbalanced : D.Flat ∨ s.isBalanced bare = true)
    (hscoped : D.Loose ∨ s.isScoped P.context = true)
    (hloops : ∀ l ∈ Loop.labels loops, P.Reaches D l) :
    Journey D P (fun _ => P.widen s.declared) (s.lower site loops)
      ((s.outline site loops).Visits site) := by
  have hside : ∀ l ∈ loops, P.Reaches D l.exit ∧ P.Reaches D l.next := by
    intro l hl
    exact ⟨hloops _ (List.mem_flatMap.2 ⟨l, hl, by simp⟩),
      hloops _ (List.mem_flatMap.2 ⟨l, hl, by simp⟩)⟩
  match s with
  | .expr e =>
    rw [Stmt.isBalanced] at hbalanced
    refine Stmt.journey_closed rfl (Stmt.journey_of_leads rfl ?_)
    rw [Stmt.lower]
    exact ((e.balanced D site hbalanced).effect P P.level (Discipline.same_refl _)).forget
  | .declare id type initial =>
    rw [Stmt.isBalanced] at hbalanced
    rw [Stmt.isScoped, Bool.not_eq_true'] at hscoped
    refine Stmt.journey_of_leads rfl ?_
    rw [Stmt.lower]
    exact leads_declared site type hscoped hbalanced
  | .block body =>
    rw [Stmt.isBalanced] at hbalanced
    rw [Stmt.isScoped] at hscoped
    refine Stmt.journey_closed rfl ?_
    rw [← Stmt.lower_outline]
    exact Outline.journey_block
      (Stmt.journey_lowerAll body (P.inner D) hbare hbalanced hscoped hloops)
  | .branch condition thenBranch elseBranch =>
    rw [Stmt.isBalanced, Bool.and_eq_true, Bool.and_eq_true] at hbalanced
    rw [Stmt.isScoped, Bool.and_eq_true] at hscoped
    refine Stmt.journey_closed rfl ?_
    rw [← Stmt.lower_outline]
    have hahead : ∀ label l, l ∈ Loop.labels loops → ((P.ahead label).inner D).Reaches D l :=
      fun label l hl => ((hloops l hl).marking fun _ => List.mem_cons_of_mem _).inner
    refine Outline.journey_branch (condition.balances_jump site (hbalanced.imp_right And.left))
      (fun label => thenBranch.journey ((P.ahead label).inner D) hbare
        (hbalanced.imp_right fun h => h.2.1) (hscoped.imp_right And.left) (hahead label))
      fun other hother label => ?_
    subst hother
    exact Stmt.journey? (some other) ((P.ahead label).inner D) hbare
      (hbalanced.imp_right fun h => h.2.2) (hscoped.imp_right And.right) (hahead label) other rfl
  | .whileLoop name condition body =>
    rw [Stmt.isBalanced, Bool.and_eq_true] at hbalanced
    rw [Stmt.isScoped] at hscoped
    refine Stmt.journey_closed rfl ?_
    rw [← Stmt.lower_outline]
    exact Outline.journey_whileLoop name
      (condition.balances_jump site (hbalanced.imp_right And.left)) fun round hbars =>
        body.journey _ hbare (hbalanced.imp_right And.right) hscoped (hbars.reaches hloops)
  | .doWhileLoop name body condition =>
    rw [Stmt.isBalanced, Bool.and_eq_true] at hbalanced
    rw [Stmt.isScoped] at hscoped
    refine Stmt.journey_closed rfl ?_
    rw [← Stmt.lower_outline]
    exact Outline.journey_doWhileLoop name
      (condition.balances_jump site (hbalanced.imp_right And.left)) fun round hbars =>
        body.journey _ hbare (hbalanced.imp_right And.right) hscoped (hbars.reaches hloops)
  | .forLoop name init condition update body =>
    rw [Stmt.isBalanced, Bool.and_eq_true, Bool.and_eq_true, Bool.and_eq_true] at hbalanced
    rw [Stmt.isScoped, Bool.and_eq_true] at hscoped
    refine Stmt.journey_closed rfl ?_
    rw [← Stmt.lower_outline]
    have hwiden := fun l hl => ((hloops l hl).inner).widen (init.flatMap Stmt.declared)
    refine Outline.journey_forLoop name
      (Stmt.journey_lowerAll init (P.inner D) hbare (hbalanced.imp_right And.left)
        (hscoped.imp_right And.left) hloops) ?_ ?_ fun round hbars =>
      body.journey _ hbare (hbalanced.imp_right fun h => h.2.2.2) (hscoped.imp_right And.right)
        (hbars.reaches hwiden)
    · intro e he
      subst he
      exact e.balances_jump site (hbalanced.imp_right fun h => h.2.1)
    · refine balances_forM_self fun e he =>
        (e.balanced D site (hbalanced.imp_right fun h => ?_)).effect
      exact List.all_eq_true.1 h.2.2.1 e he
  | .breakLoop label =>
    refine Stmt.journey_closed rfl (Stmt.journey_of_leads rfl ?_)
    rw [Stmt.lower]
    exact leads_jumpTo label fun l hl => (hside l hl).1
  | .continueLoop label =>
    refine Stmt.journey_closed rfl (Stmt.journey_of_leads rfl ?_)
    rw [Stmt.lower]
    exact leads_jumpTo label fun l hl => (hside l hl).2
  | .returnValue value =>
    rw [Stmt.isBalanced] at hbalanced
    refine Stmt.journey_closed rfl (Stmt.journey_of_leads rfl ?_)
    rw [Stmt.lower]
    exact leads_returned site value hbare hbalanced
  | .construct constructor operands =>
    rw [Stmt.isBalanced] at hbalanced
    refine Stmt.journey_closed rfl (Stmt.journey_of_leads rfl ?_)
    rw [Stmt.lower]
    exact leads_constructed site constructor hbalanced

/-- Statements one after the other are a journey. -/
theorem Stmt.journey_lowerAll (ss : List Stmt) (P : Standing) {loops : List Loop}
    {bare : Bool} (hbare : bare = true → D.Grounded ∨ site.method.returns = none)
    (hbalanced : D.Flat ∨ Stmt.areBalanced bare ss = true)
    (hscoped : D.Loose ∨ Stmt.areScoped P.context ss = true)
    (hloops : ∀ l ∈ Loop.labels loops, P.Reaches D l) :
    Journey D P (fun _ => P.widen (ss.flatMap Stmt.declared)) (Stmt.lowerAll site loops ss)
      (Stmt.Visits site loops ss) := by
  match ss with
  | [] =>
    rw [List.flatMap_nil, Standing.widen_nil]
    exact Stmt.journey_nil P
  | s :: ss =>
    rw [Stmt.areBalanced, Bool.and_eq_true] at hbalanced
    rw [Stmt.areScoped, Bool.and_eq_true] at hscoped
    rw [List.flatMap_cons, ← Standing.widen_widen]
    exact Stmt.journey_cons
      (s.journey P hbare (hbalanced.imp_right And.left) (hscoped.imp_right And.left) hloops)
      (Stmt.journey_lowerAll ss (P.widen s.declared) hbare (hbalanced.imp_right And.right)
        (hscoped.imp_right And.right) fun l hl => (hloops l hl).widen s.declared)

/-- A statement is a journey, unless it is missing. -/
theorem Stmt.journey? (s : Option Stmt) (P : Standing) {loops : List Loop} {bare : Bool}
    (hbare : bare = true → D.Grounded ∨ site.method.returns = none)
    (hbalanced : D.Flat ∨ Stmt.isBalanced? bare s = true)
    (hscoped : D.Loose ∨ Stmt.isScoped? P.context s = true)
    (hloops : ∀ l ∈ Loop.labels loops, P.Reaches D l) (other : Stmt) (hother : s = some other) :
    Journey D P (fun _ => P.widen other.declared) (other.lower site loops)
      ((other.outline site loops).Visits site) := by
  match s with
  | none => cases hother
  | some s =>
    obtain rfl := Option.some.inj hother
    rw [Stmt.isBalanced?] at hbalanced
    rw [Stmt.isScoped?] at hscoped
    exact Stmt.journey s P hbare hbalanced hscoped hloops

end

end Statements

/-! ### Methods -/

/-- The outline of a method. -/
def Site.outline (site : Site) : Outline :=
  .step site.lowerSuper (fun _ => []) site.method.body fun _ => .last do
    site.lowerEnd
    lowerSlots

theorem Site.lower_outline (site : Site) : site.outline.lower site = site.lower := rfl

namespace Site

variable {site : Site}

theorem leads_lowerSuper : Leads D false P.context P (fun _ => P) site.lowerSuper := by
  have hcall : Balances D 0 0 site.lowerSuper :=
    .ite (fun _ => (balances_loadThis site).bind fun _ =>
      balances_construct (.constructor site.owner.superClass []) site.owner.type) fun _ =>
        balances_pure ()
  exact (hcall P P.level (Discipline.same_refl _)).forget

/-- The end of a method leads on from where it is: it returns, or nothing is left to do. -/
theorem leads_lowerEnd : Leads D false P.context P (fun _ => P) site.lowerEnd := by
  intro w s a v s' b hP hx
  unfold lowerEnd at hx
  rw [Lowering.bind_of_ok (show isReachable s a = .ok (a.isReachable, s) a from rfl)] at hx
  cases hreachable : a.isReachable with
  | false =>
    rw [hreachable] at hx
    exact leads_pure (Q := fun _ => P) () w s a v s' b hP hx
  | true =>
    rw [hreachable] at hx
    cases hreturns : site.method.returns with
    | none =>
      rw [hreturns] at hx
      exact leads_exit (n := P.level) none (.inr (Discipline.same_refl _)) P.level
        w s a v s' b hP hx
    | some type =>
      rw [hreturns] at hx
      cases hx

theorem leads_lowerSlots : Leads D false P.context P (fun _ => P) lowerSlots := by
  intro w s a v s' b hP hx
  exact leads_noteLocals s.max w s a v s' b hP hx

/-- **A method is a journey** -/
theorem journey (site : Site) (P : Standing) (bare : Bool)
    (hbare : bare = true → D.Grounded ∨ site.method.returns = none)
    (hbalanced : D.Flat ∨ Stmt.areBalanced bare site.method.body = true)
    (hscoped : D.Loose ∨ Stmt.areScoped P.context site.method.body = true) :
    Journey D P (fun _ => P.widen (site.method.body.flatMap Stmt.declared)) site.lower
      (site.outline.Visits site) := by
  rw [← site.lower_outline]
  exact Outline.journey_step (C := fun _ => True) leads_lowerSuper (fun _ => rfl)
    (fun _ _ _ _ _ _ => trivial)
    (fun _ _ => Stmt.journey_lowerAll site.method.body P hbare hbalanced hscoped nofun) fun _ _ =>
      Outline.journey_last (leads_lowerEnd.bind fun _ => leads_lowerSlots)

end Site

end ClassForge
