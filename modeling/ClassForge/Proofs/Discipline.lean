/-
# Disciplines of code

What the frames of a method have in common is kept by every step in which code is
made.  A `Discipline` is such a property of frames, relative to the locals in scope
(the context) and to the number of values that the code at hand has pushed (the level);
its fields say that each kind of step keeps it.

A `Standing` says how things are at one point of the code: the context, the level, and
the labels to which the code may branch, each with what is expected there.  A
computation `Leads` from one standing to another if, whenever it succeeds,

| | |
| --- | --- |
| frames | the current frame and every frame that reaches a label are as expected |
| labels | those that it makes are for the same context |
| stack | no instruction takes more values than the level allows |
| control | it is still there, or on its way to one of the labels (if that is asked for) |

There is one rule for each computation that code is made of, and what all code keeps
follows by walking through the combinators once, for every discipline.
-/

import ClassForge.Proofs.InstructionSafety
import ClassForge.Proofs.Scope
import ClassForge.Proofs.StackEffect

namespace ClassForge

/-! ### Frames -/

/-- A property of frames that is kept by every step in which code is made.  It may
depend on the context and on the number of values above those that were there at
first. -/
structure Discipline where
  /-- The slots that are taken are those of the context. -/
  fits : Context → Nat → List Scope → LocalSlots → Prop
  /-- The open blocks. -/
  scopes : Context → Nat → List Scope → List Scope
  holds : Context → Nat → Frame → Prop
  merges : ∀ {Γ : Context} {k : Nat} {f g m : Frame},
    holds Γ k f → holds Γ k g → f.merge g = some m → holds Γ k m
  works : ∀ {Γ : Context} {k n : Nat} {i : Instruction} {types : OperandTypes} {f g : Frame},
    i.opcode.effect.isStore = false → f.step n i types = .ok g →
      holds Γ (k + i.takes types) f → holds Γ (k + i.gives types) g
  stores : ∀ {Γ : Context} {first k n : Nat} {outer : List Scope} {s : LocalSlots} {id : LocalId}
    {slot : UInt16} {type : FieldType} {f g : Frame},
    fits Γ first outer s → s.lookup? id = some (slot, type) →
      f.step n (.store type.kind slot) (.value type.verification) = .ok g →
        holds Γ (k + 1) f → holds Γ k g
  generalizes : ∀ {Γ : Context} {k : Nat} {type : FrameType} {f g : Frame},
    f.generalizeTop type = .ok g → holds Γ k f → holds Γ k g
  declares : ∀ {Γ : Context} {first : Nat} {outer : List Scope} {s s' : LocalSlots} {id : LocalId}
    {type : FieldType} {slot : UInt16}, fits Γ first outer s → Γ.declares id = false →
      LocalSlots.declare id type s = .ok slot s' → fits (Γ ++ [(id, type)]) first outer s'
  widens : ∀ {Γ Γ' : Context} {k : Nat} {f : Frame}, holds Γ k f → holds (Γ ++ Γ') k f
  enters : ∀ {Γ : Context} {first : Nat} {outer : List Scope} {s : LocalSlots},
    fits Γ first outer s → fits Γ Γ.length (scopes Γ first outer) s.enter
  exits : ∀ {Γ Γ' : Context} {first : Nat} {outer : List Scope} {s s' : LocalSlots},
    fits Γ first outer s → fits (Γ ++ Γ') Γ.length (scopes Γ first outer) s' →
      fits Γ first outer s'.exit
  drops : ∀ {Γ Γ' : Context} {first k : Nat} {outer : List Scope} {s : LocalSlots} {f : Frame},
    fits Γ first outer s → holds (Γ ++ Γ') k f → holds Γ k (f.killLocals s.next)

namespace Discipline

/-- The number of values does not matter. -/
def Flat (D : Discipline) : Prop :=
  ∀ (Γ : Context) (k n : Nat) (f : Frame), D.holds Γ k f → D.holds Γ n f

/-- It does not matter whether a local is declared twice. -/
def Loose (D : Discipline) : Prop :=
  ∀ (Γ : Context) (first : Nat) (outer : List Scope) (s s' : LocalSlots) (id : LocalId)
    (type : FieldType) (slot : UInt16), D.fits Γ first outer s →
      LocalSlots.declare id type s = .ok slot s' → D.fits (Γ ++ [(id, type)]) first outer s'

/-- The numbers of values are the same, if they matter. -/
def Same (D : Discipline) (k n : Nat) : Prop := D.Flat ∨ k = n

/-- No instruction takes more values than there are above those that were there at
first. -/
def Grounded (D : Discipline) : Prop :=
  ∀ (Γ : Context) (k n : Nat) (i : Instruction) (types : OperandTypes) (f g : Frame),
    D.holds Γ k f → f.step n i types = .ok g → i.takes types ≤ k

/-- There are that many values above those that were there at first. -/
def Guards (D : Discipline) (n : Nat) (f : Frame) : Prop := ∃ Γ k, D.holds Γ (k + n) f

variable {D : Discipline} {k m n : Nat} {Γ : Context} {f : Frame}

theorem same_refl (k : Nat) : D.Same k k := .inr rfl

theorem Same.holds (h : D.Same k n) (hf : D.holds Γ k f) : D.holds Γ n f := by
  rcases h with hflat | rfl
  · exact hflat Γ k n f hf
  · exact hf

theorem guards_of_same (h : D.Same k (n + m)) (hf : D.holds Γ k f) : D.Guards m f :=
  ⟨Γ, n, h.holds hf⟩

theorem Grounded.guards {i : Instruction} {types : OperandTypes} {g : Frame} (h : D.Grounded)
    (hs : f.step n i types = .ok g) (hf : D.holds Γ k f) : D.Guards (i.takes types) f := by
  refine ⟨Γ, k - i.takes types, ?_⟩
  rw [Nat.sub_add_cancel (h Γ k n i types f g hf hs)]
  exact hf

theorem guards_zero (hf : D.holds Γ k f) : D.Guards 0 f := ⟨Γ, k, hf⟩

end Discipline

/-! ### Operations -/

/-- How many values an operation takes off the stack. -/
def Operation.takes : Operation → Nat
  | .push i types => i.takes types
  | .branch op target => (Instruction.branch op target .empty).takes .none
  | .generalize _ => 1
  | .label _ | .constant _ | .place _ | .killLocals _ | .noteLocals _ => 0

/-- One assembler is another after some operations, where the frame before each of them
allows for the values that it takes. -/
inductive Assembler.Course (G : Nat → Frame → Prop) (a : Assembler) : Assembler → Prop where
  | refl : Course G a a
  | constants {b : Assembler} (h : Course G a b) (pool : ConstantPool) :
    Course G a { b with pool }
  | step {b c : Assembler} {o : Operation} (h : Course G a b) (ho : Advances o b c)
    (hG : ∀ f, b.current = some f → G o.takes f) : Course G a c

namespace Assembler.Course

variable {G : Nat → Frame → Prop} {a b c : Assembler}

theorem trans (hab : Course G a b) (hbc : Course G b c) : Course G a c := by
  induction hbc with
  | refl => exact hab
  | constants _ pool ih => exact ih.constants pool
  | step _ ho hG ih => exact ih.step ho hG

/-- A course may be asked for less at each instruction. -/
theorem mono {G' : Nat → Frame → Prop} (hG : ∀ n f, G n f → G' n f) (h : Course G a b) :
    Course G' a b := by
  induction h with
  | refl => exact .refl
  | constants _ pool ih => exact ih.constants pool
  | step _ ho hf ih => exact ih.step ho fun f hc => hG _ f (hf f hc)

end Assembler.Course

/-! ### Labels -/

/-- What is expected at a label. -/
structure Landing where
  /-- The locals in scope there. -/
  context : Context
  level : Nat
  /-- Locals from this slot on are dropped on the way there. -/
  limit : Option Nat

/-- A label to which code may branch. -/
structure Mark where
  label : Label
  landing : Landing
  /-- Was the label made by the code at hand, so that nothing else branches to it? -/
  isOwn : Bool

/-- What is expected at the labels.  Something is known about the labels from `base` on,
and about the branches from the instruction `start` on. -/
structure World where
  base : Nat
  start : Nat
  landing : Nat → Landing

/-- The same is expected at the first `n` labels. -/
structure World.Extends (w w' : World) (n : Nat) : Prop where
  base : w'.base = w.base
  start : w'.start = w.start
  landing : ∀ l < n, w'.landing l = w.landing l

/-- The world in which it is settled what is expected at the label `n`. -/
def World.learn (w : World) (n : Nat) (t : Landing) : World :=
  { w with landing := fun l => if l = n then t else w.landing l }

theorem World.extends_learn (w : World) (n : Nat) (t : Landing) : w.Extends (w.learn n t) n :=
  ⟨rfl, rfl, fun _ hl => if_neg (Nat.ne_of_lt hl)⟩

namespace World.Extends

variable {w w' w'' : World} {m n : Nat}

theorem refl (w : World) (n : Nat) : w.Extends w n := ⟨rfl, rfl, fun _ _ => rfl⟩

theorem trans (h : w.Extends w' m) (h' : w'.Extends w'' n) (hmn : m ≤ n) : w.Extends w'' m where
  base := h'.base.trans h.base
  start := h'.start.trans h.start
  landing l hl := (h'.landing l (Nat.lt_of_lt_of_le hl hmn)).trans (h.landing l hl)

end World.Extends

namespace Discipline

/-- The frame is as expected at the label. -/
def Lands (D : Discipline) (t : Landing) (f : Frame) : Prop := D.holds t.context t.level f

/-- Control that comes to the label from a point with the context and level is as
expected there. -/
def Admits (D : Discipline) (t : Landing) (Γ : Context) (k : Nat) : Prop :=
  ∀ f, D.holds Γ k f → D.Lands t (LabelState.restrict { limit := t.limit } f)

/-- The limit of the label drops all locals that are not in scope there. -/
def Bars (D : Discipline) (t : Landing) : Prop :=
  ∃ first outer s, t.limit = some s.next ∧ D.fits t.context first outer s

variable {D : Discipline} {t : Landing} {Γ : Context} {k : Nat}

theorem admits_of_none (hlimit : t.limit = none) (hk : D.Same k t.level)
    (hcontext : Γ = t.context) : D.Admits t Γ k := by
  intro f hf
  subst hcontext
  rw [LabelState.restrict, hlimit]
  exact hk.holds hf

theorem Bars.admits (h : D.Bars t) (hk : D.Same k t.level) (Γ' : Context) :
    D.Admits t (t.context ++ Γ') k := by
  intro f hf
  obtain ⟨first, outer, s, hlimit, hs⟩ := h
  rw [LabelState.restrict, hlimit]
  exact D.drops hs (hk.holds hf)

theorem Bars.admits_self (h : D.Bars t) (hk : D.Same k t.level) : D.Admits t t.context k := by
  have := h.admits hk []
  rwa [List.append_nil] at this

end Discipline

theorem restrict_of_limit {state : LabelState} {limit : Option Nat} (h : state.limit = limit)
    (f : Frame) : state.restrict f = LabelState.restrict { limit } f := by
  rw [LabelState.restrict, LabelState.restrict, h]

/-- What edges that meet agree on is as expected if they are. -/
theorem Joins.lands {D : Discipline} {t : Landing} {x y z : Option Frame} (h : Joins x y z)
    (hx : ∀ f, x = some f → D.Lands t f) (hy : ∀ f, y = some f → D.Lands t f) (f : Frame)
    (hf : z = some f) : D.Lands t f := by
  cases h with
  | right => exact hy f hf
  | left => exact hx f hf
  | both hm =>
    cases hf
    exact D.merges (hx _ rfl) (hy _ rfl) hm

/-! ### Assemblers

That an assembler `Meets` its world is kept by each change to it: an instruction, a frame at a
label, a new label. -/

namespace Assembler

/-- Frames at labels and on the way to them are as expected. -/
structure Meets (D : Discipline) (w : World) (a : Assembler) : Prop where
  base_le : w.base ≤ a.labels.size
  limits : ∀ (l : Nat) (state : LabelState), a.labels[l]? = some state →
    state.limit = (w.landing l).limit
  framed : ∀ (l : Nat) (state : LabelState) (f : Frame), w.base ≤ l → a.labels[l]? = some state →
    state.frame = some f → D.Lands (w.landing l) f
  carried : ∀ (n : Nat) (i : Instruction) (l : Label) (f : Frame), w.start ≤ n →
    a.instructions[n]? = some i → i.referent = .jump l f →
      l.index < a.labels.size ∧ D.Lands (w.landing l.index) f

/-- Control is at the current point or on its way to one of the labels. -/
def Alive (a : Assembler) (marks : List Mark) : Prop :=
  a.current.isSome = true ∨ ∃ m ∈ marks, ∃ state, a.labels[m.label.index]? = some state ∧
    (state.placed.isSome = true ∨ state.frame.isSome = true)

variable {D : Discipline} {w w' : World} {a b : Assembler} {l : Label} {state : LabelState}

/-- What is expected at labels that are not yet there does not matter. -/
theorem Meets.extend (h : a.Meets D w) (hw : w.Extends w' a.labels.size) : a.Meets D w' where
  base_le := by
    rw [hw.base]
    exact h.base_le
  limits l state hl := by
    rw [hw.landing l (Array.getElem?_eq_some_iff.1 hl).1]
    exact h.limits l state hl
  framed l state f hbase hl hf := by
    rw [hw.base] at hbase
    rw [hw.landing l (Array.getElem?_eq_some_iff.1 hl).1]
    exact h.framed l state f hbase hl hf
  carried n i l f hstart hn hi := by
    rw [hw.start] at hstart
    obtain ⟨hlt, hland⟩ := h.carried n i l f hstart hn hi
    rw [hw.landing l.index hlt]
    exact ⟨hlt, hland⟩

/-- Neither the labels nor the code change. -/
theorem Meets.congr (h : a.Meets D w) (hlabels : b.labels = a.labels)
    (hinstructions : b.instructions = a.instructions) : b.Meets D w where
  base_le := hlabels ▸ h.base_le
  limits := hlabels ▸ h.limits
  framed := hlabels ▸ h.framed
  carried := by
    rw [hlabels, hinstructions]
    exact h.carried

/-- An instruction is added that is not a branch. -/
theorem Meets.push (h : a.Meets D w) {i : Instruction} (hi : i.target? = none)
    (hlabels : b.labels = a.labels) (hinstructions : b.instructions = a.instructions.push i) :
    b.Meets D w where
  base_le := hlabels ▸ h.base_le
  limits := hlabels ▸ h.limits
  framed := hlabels ▸ h.framed
  carried n j l f hstart hn hj := by
    rw [hinstructions, Array.getElem?_push] at hn
    split at hn
    · cases hn
      rw [Instruction.target?, hj] at hi
      cases hi
    · rw [hlabels]
      exact h.carried n j l f hstart hn hj

/-- What is known of one label changes, and branches may be added. -/
theorem Meets.setLabel (h : a.Meets D w) {new : LabelState}
    (hl : a.labels[l.index]? = some state)
    (hlabels : b.labels = a.labels.setIfInBounds l.index new) (hlimit : new.limit = state.limit)
    (hframe : w.base ≤ l.index → ∀ f, new.frame = some f → D.Lands (w.landing l.index) f)
    (hcarried : ∀ (n : Nat) (i : Instruction) (l : Label) (f : Frame), w.start ≤ n →
      b.instructions[n]? = some i → i.referent = .jump l f →
        l.index < a.labels.size ∧ D.Lands (w.landing l.index) f) : b.Meets D w := by
  have hsize : b.labels.size = a.labels.size := by simp [hlabels]
  have hother : ∀ n other, b.labels[n]? = some other →
      n = l.index ∧ other = new ∨ n ≠ l.index ∧ a.labels[n]? = some other := by
    intro n other hn
    rw [hlabels] at hn
    by_cases heq : n = l.index
    · rw [heq, getElem?_setLabel hl] at hn
      cases hn
      exact .inl ⟨heq, rfl⟩
    · rw [Array.getElem?_setIfInBounds_ne (Ne.symm heq)] at hn
      exact .inr ⟨heq, hn⟩
  refine ⟨hsize ▸ h.base_le, fun n other hn => ?_, fun n other f hbase hn hf => ?_,
    fun n i l f hstart hn hi => hsize ▸ hcarried n i l f hstart hn hi⟩
  · rcases hother n other hn with ⟨rfl, rfl⟩ | ⟨-, hn⟩
    · exact hlimit.trans (h.limits _ _ hl)
    · exact h.limits n other hn
  · rcases hother n other hn with ⟨rfl, rfl⟩ | ⟨-, hn⟩
    · exact hframe hbase f hf
    · exact h.framed n other f hbase hn hf

/-- A branch is added behind the code. -/
theorem Meets.carried_push (h : a.Meets D w) {op : Opcode} {arriving : Frame}
    (hl : l.index < a.labels.size) (hland : D.Lands (w.landing l.index) arriving) (n : Nat)
    (i : Instruction) (l' : Label) (f : Frame) (hstart : w.start ≤ n)
    (hn : (a.instructions.push (.branch op l arriving))[n]? = some i)
    (hi : i.referent = .jump l' f) :
    l'.index < a.labels.size ∧ D.Lands (w.landing l'.index) f := by
  rw [Array.getElem?_push] at hn
  split at hn
  · cases hn
    cases hi
    exact ⟨hl, hland⟩
  · exact h.carried n i l' f hstart hn hi

/-- A label is made, and it is settled what is expected there. -/
theorem Meets.newLabel (h : a.Meets D w) (t : Landing)
    (hlabels : b.labels = a.labels.push { limit := t.limit })
    (hinstructions : b.instructions = a.instructions) :
    b.Meets D (w.learn a.labels.size t) := by
  have hw := h.extend (w.extends_learn a.labels.size t)
  have hnew : (w.learn a.labels.size t).landing a.labels.size = t := if_pos rfl
  have hother : ∀ n other, b.labels[n]? = some other →
      n = a.labels.size ∧ other = { limit := t.limit } ∨ a.labels[n]? = some other := by
    intro n other hn
    rw [hlabels, Array.getElem?_push] at hn
    split at hn
    · cases hn
      exact .inl ⟨‹_›, rfl⟩
    · exact .inr hn
  have hsize : b.labels.size = a.labels.size + 1 := by simp [hlabels]
  refine ⟨hsize ▸ Nat.le_succ_of_le hw.base_le, fun n other hn => ?_,
    fun n other f hbase hn hf => ?_, fun n i l f hstart hn hi => ?_⟩
  · rcases hother n other hn with ⟨rfl, rfl⟩ | hn
    · rw [hnew]
    · exact hw.limits n other hn
  · rcases hother n other hn with ⟨rfl, rfl⟩ | hn
    · cases hf
    · exact hw.framed n other f hbase hn hf
  · rw [hinstructions] at hn
    obtain ⟨hlt, hland⟩ := hw.carried n i l f hstart hn hi
    exact ⟨by omega, hland⟩

/-- Control stays on its way, unless it was at the current point. -/
theorem Alive.grows {marks : List Mark} (h : a.Alive marks) (hab : a.Grows b)
    (hc : a.current.isSome = true → b.Alive marks) : b.Alive marks := by
  rcases h with h | ⟨m, hm, state, hl, hstate⟩
  · exact hc h
  · obtain ⟨state', hl', hgrows⟩ := hab.labels _ state hl
    refine .inr ⟨m, hm, state', hl', hstate.imp (fun h => ?_) hgrows.frame⟩
    obtain ⟨n, hn⟩ := Option.isSome_iff_exists.1 h
    rw [hgrows.placed n hn]
    rfl

theorem Alive.mono {marks marks' : List Mark} (h : a.Alive marks)
    (hm : ∀ m ∈ marks, m ∈ marks') : a.Alive marks' :=
  h.imp_right fun ⟨m, hmem, hstate⟩ => ⟨m, hm m hmem, hstate⟩

end Assembler

/-! ### Standings -/

/-- How things are at one point of the code. -/
structure Standing where
  /-- The locals in scope. -/
  context : Context
  /-- How many of them were in scope when the innermost block was opened. -/
  first : Nat
  /-- The blocks around the innermost one. -/
  outer : List Scope
  /-- The labels to which the code may branch. -/
  marks : List Mark
  /-- How many values there are above those that were there at first. -/
  level : Nat

namespace Standing

/-- The same with another number of values. -/
def having (P : Standing) (n : Nat) : Standing := { P with level := n }

/-- The same with other labels to branch to. -/
def marking (P : Standing) (marks : List Mark) : Standing := { P with marks }

/-- The same with more locals in scope. -/
def widen (P : Standing) (Γ : Context) : Standing := { P with context := P.context ++ Γ }

/-- The same in a block of its own. -/
def inner (P : Standing) (D : Discipline) : Standing :=
  { P with first := P.context.length, outer := D.scopes P.context P.first P.outer }

/-- The slots and the assembler are as the standing says. -/
structure Met (D : Discipline) (P : Standing) (w : World) (s : LocalSlots) (a : Assembler) :
    Prop where
  fits : D.fits P.context P.first P.outer s
  meets : a.Meets D w
  current : ∀ f, a.current = some f → D.holds P.context P.level f
  marks : ∀ m ∈ P.marks, m.label.index < a.labels.size ∧ w.landing m.label.index = m.landing ∧
    (m.isOwn = true → w.base ≤ m.label.index)

variable {D : Discipline} {P Q R : Standing} {w w' w'' : World} {s s' : LocalSlots}
  {a b c : Assembler} {keeps : Bool} {Γ : Context}

/-- The labels to which the code may branch are still there. -/
theorem Met.marks_of_le (h : P.Met D w s a) (hw : w.Extends w' a.labels.size)
    (hsize : a.labels.size ≤ b.labels.size) : ∀ m ∈ P.marks, m.label.index < b.labels.size ∧
      w'.landing m.label.index = m.landing ∧ (m.isOwn = true → w'.base ≤ m.label.index) := by
  intro m hm
  obtain ⟨hlt, hlanding, hown⟩ := h.marks m hm
  exact ⟨Nat.lt_of_lt_of_le hlt hsize, (hw.landing _ hlt).trans hlanding, fun h =>
    hw.base ▸ hown h⟩

/-- What a computation does on the way from one standing to another. -/
structure Progress (D : Discipline) (keeps : Bool) (Γ : Context) (P Q : Standing) (w w' : World)
    (s : LocalSlots) (a b : Assembler) : Prop where
  met : Q.Met D w' s b
  learns : w.Extends w' a.labels.size
  size_le : a.labels.size ≤ b.labels.size
  made : ∀ l, a.labels.size ≤ l → l < b.labels.size → (w'.landing l).context = Γ
  alive : keeps = true → a.Alive P.marks → b.Alive Q.marks
  course : a.Course D.Guards b

/-- The code stays as it is. -/
theorem Progress.stay (h : Q.Met D w s a) (hmarks : Q.marks = P.marks) :
    Progress D keeps Γ P Q w w s a a where
  met := h
  learns := .refl w _
  size_le := Nat.le.refl
  made l hl hlt := by omega
  alive _ := by
    rw [hmarks]
    exact id
  course := .refl

theorem Progress.trans (hab : Progress D keeps Γ P Q w w' s a b)
    (hbc : Progress D keeps Γ Q R w' w'' s' b c) : Progress D keeps Γ P R w w'' s' a c where
  met := hbc.met
  learns := hab.learns.trans hbc.learns hab.size_le
  size_le := Nat.le_trans hab.size_le hbc.size_le
  made l hl hlt := by
    by_cases hb : l < b.labels.size
    · rw [hbc.learns.landing l hb]
      exact hab.made l hl hb
    · exact hbc.made l (Nat.le_of_not_lt hb) hlt
  alive hkeeps h := hbc.alive hkeeps (hab.alive hkeeps h)
  course := hab.course.trans hbc.course

end Standing

/-! ### Computations

`Leads` is kept by sequences and choices, and by computations that emit nothing. -/

namespace Lowering

open Standing (Progress)

variable {α β : Type} {D : Discipline} {keeps : Bool} {Γ : Context} {P : Standing}
  {Q : α → Standing} {R : β → Standing} {a b : Assembler} {i : Instruction} {s : LocalSlots}
  {x : Lowering α} {m : Mark} {k n : Nat} {types : OperandTypes} {w : World}

/-- Whenever the computation succeeds where things are as `P` says, they are then as `Q`
says.  Labels are made for the context `Γ`. -/
def Leads (D : Discipline) (keeps : Bool) (Γ : Context) (P : Standing) (Q : α → Standing)
    (x : Lowering α) : Prop :=
  ∀ (w : World) (s : LocalSlots) (a : Assembler) (v : α) (s' : LocalSlots) (b : Assembler),
    P.Met D w s a → x s a = .ok (v, s') b → ∃ w', Progress D keeps Γ P (Q v) w w' s' a b

theorem leads_pure (v : α) : Leads D keeps Γ (Q v) Q (pure v) := by
  rintro w s a v s' b hP ⟨⟩
  exact ⟨w, .stay hP rfl⟩

theorem leads_throw (e : CompileError) : Leads D keeps Γ P Q (throw e) := by
  rintro w s a v s' b hP ⟨⟩

theorem Leads.bind {f : α → Lowering β} (hx : Leads D keeps Γ P Q x)
    (hf : ∀ v, Leads D keeps Γ (Q v) R (f v)) : Leads D keeps Γ P R (x >>= f) := by
  intro w s a v s' c hP h
  obtain ⟨u, s'', b, hu, h⟩ := bind_eq_ok h
  obtain ⟨w', hab⟩ := hx w s a u s'' b hP hu
  obtain ⟨w'', hbc⟩ := hf u w' s'' b v s' c hab.met h
  exact ⟨w'', hab.trans hbc⟩

theorem Leads.bindYields {p : α → Prop} {f : α → Lowering β} (hx : Leads D keeps Γ P Q x)
    (hp : Yields p x) (hf : ∀ v, p v → Leads D keeps Γ (Q v) R (f v)) :
    Leads D keeps Γ P R (x >>= f) := by
  intro w s a v s' c hP h
  obtain ⟨u, s'', b, hu, h⟩ := bind_eq_ok h
  obtain ⟨w', hab⟩ := hx w s a u s'' b hP hu
  obtain ⟨w'', hbc⟩ := hf u (hp s a u s'' b hu) w' s'' b v s' c hab.met h
  exact ⟨w'', hab.trans hbc⟩

theorem Leads.ite {p : Prop} [Decidable p] {y : Lowering α} (hx : p → Leads D keeps Γ P Q x)
    (hy : ¬ p → Leads D keeps Γ P Q y) : Leads D keeps Γ P Q (if p then x else y) := by
  split
  · exact hx ‹_›
  · exact hy ‹_›

/-- Control need not be kept track of. -/
theorem Leads.forget (h : Leads D true Γ P Q x) : Leads D keeps Γ P Q x := by
  intro w s a v s' b hP hx
  obtain ⟨w', hab⟩ := h w s a v s' b hP hx
  exact ⟨w', { hab with alive := fun _ => hab.alive rfl }⟩

/-- The number of values at the end, if it matters. -/
theorem Leads.relevel {R : Standing} (h : Leads D keeps Γ P (fun _ => R.having k) x)
    (hk : D.Same k n) :
    Leads D keeps Γ P (fun _ => R.having n) x := by
  intro w s a v s' b hP hx
  obtain ⟨w', hab⟩ := h w s a v s' b hP hx
  exact ⟨w', { hab with
    met := { hab.met with current := fun f hf => hk.holds (hab.met.current f hf) } }⟩

/-- Looking up a local changes nothing. -/
theorem leads_lookup (id : LocalId) : Leads D keeps Γ P (fun _ => P) (lookup id) := by
  intro w s a v s' b hP hx
  unfold lookup at hx
  split at hx
  · cases hx
    exact ⟨w, .stay hP rfl⟩
  · cases hx

theorem leads_unsupported (e : Expr) : Leads D keeps Γ P Q (unsupported e) := leads_throw _

theorem leads_typeOf (e : Expr) : Leads D keeps Γ P (fun _ => P) (typeOf e) := by
  unfold typeOf
  split
  · exact leads_pure (Q := fun _ => P) _
  · exact leads_unsupported e

theorem leads_arrayTypeOf (e : Expr) : Leads D keeps Γ P (fun _ => P) (arrayTypeOf e) := by
  unfold arrayTypeOf
  split
  · exact .ite (fun _ => leads_pure (Q := fun _ => P) _) fun _ => leads_unsupported e
  · exact leads_unsupported e

/-- The labels that are kept in mind, if it does not matter where control is. -/
theorem Leads.remark (h : Leads D false Γ P Q x) (marks : α → List Mark)
    (hm : ∀ v, ∀ m ∈ marks v, m ∈ P.marks ∨ m ∈ (Q v).marks) :
    Leads D false Γ P (fun v => (Q v).marking (marks v)) x := by
  intro w s a v s' b hP hx
  obtain ⟨w', hab⟩ := h w s a v s' b hP hx
  refine ⟨w', { hab with met := { hab.met with marks := fun m hmark => ?_ }, alive := nofun }⟩
  rcases hm v m hmark with hmark | hmark
  · exact hP.marks_of_le hab.learns hab.size_le m hmark
  · exact hab.met.marks m hmark

/-! ### The assembler

One rule for each operation of the assembler. -/

/-- An operation that makes no label. -/
theorem progress_of_advances {Q : Standing} {o : Operation} (ho : Advances o a b)
    (hQ : Q.Met D w s b) (hsize : b.labels.size = a.labels.size)
    (hguards : ∀ f, a.current = some f → D.Guards o.takes f)
    (halive : keeps = true → a.Alive P.marks → b.Alive Q.marks) :
    Progress D keeps Γ P Q w w s a b where
  met := hQ
  learns := .refl w _
  size_le := Nat.le_of_eq hsize.symm
  made l hl hlt := by omega
  alive := halive
  course := .step .refl ho hguards

theorem leads_operation (o : Operation) {Q : Standing}
    (h : ∀ w s a b, P.Met D w s a → Advances o a b → Progress D keeps Γ P Q w w s a b) :
    Leads D keeps Γ P (fun _ => Q) (emit o.run) := by
  intro w s a v s' b hP hx
  obtain ⟨hrun, rfl⟩ := emit_eq_ok hx
  exact ⟨w, h w s' a b hP (Operation.run_eq_ok.1 hrun)⟩

/-- Constants may be added before. -/
theorem leads_constant {x : Interning UInt16} {f : UInt16 → Assembling α}
    (hf : ∀ index, Leads D keeps Γ P Q (emit (f index))) :
    Leads D keeps Γ P Q (emit (x.toAssembling >>= f)) := by
  intro w s a v s' b hP hx
  obtain ⟨hrun, rfl⟩ := emit_eq_ok hx
  obtain ⟨index, a', hindex, hrun⟩ := ClassForge.bind_eq_ok hrun
  obtain ⟨pool, -, rfl⟩ := Interning.toAssembling_eq_ok.1 hindex
  have hmet : P.Met D w s' { a with pool } := { hP with meets := hP.meets.congr rfl rfl }
  obtain ⟨w', hab⟩ := hf index w s' _ v s' b hmet (emit_of_ok hrun)
  exact ⟨w', hab.met, hab.learns, hab.size_le, hab.made, hab.alive,
    (Assembler.Course.refl.constants pool).trans hab.course⟩

/-- An instruction that is not a branch. -/
theorem progress_push (hP : P.Met D w s a) (ho : Advances (.push i types) a b)
    (hi : i.target? = none) (hkeeps : keeps = true → i.opcode.effect.isUnconditional = false)
    (hstep : ∀ f g, f.step a.instructions.size i types = .ok g → D.holds P.context P.level f →
      D.Guards (i.takes types) f ∧
        (i.opcode.effect.isUnconditional = false → D.holds P.context n g)) :
    Progress D keeps Γ P (P.having n) w w s a b := by
  cases ho with
  | drop ho hc =>
    have hnone : ∀ {p : Frame → Prop}, ∀ f, a.current = some f → p f := by
      intro p f hf
      rw [hc] at hf
      cases hf
    exact progress_of_advances (.drop ho hc) { hP with current := hnone } rfl hnone fun _ h => h
  | @push _ _ _ f next hc hbranch hs =>
    have hadvances := Advances.push hc hbranch hs
    obtain ⟨hguards, hnext⟩ := hstep f next hs (hP.current f hc)
    refine progress_of_advances hadvances
      ⟨hP.fits, hP.meets.push hi rfl rfl, fun g hg => ?_, hP.marks⟩ rfl (fun g hg => ?_)
      fun hkeeping h =>
        h.grows (.of_advances hadvances) fun _ => .inl (by simp [hkeeps hkeeping])
    · dsimp only at hg
      split at hg
      · cases hg
      · rename_i hconditional
        cases hg
        exact hnext (Bool.eq_false_iff.2 hconditional)
    · rw [hc] at hg
      cases hg
      exact hguards

theorem leads_push (hi : i.target? = none) (hstore : i.opcode.effect.isStore = false)
    (hkeeps : i.opcode.effect.isUnconditional = false) (hk : D.Same P.level (k + i.takes types))
    (hn : D.Same (k + i.gives types) n) :
    Leads D keeps Γ P (fun _ => P.having n) (emit (Assembler.push i types)) :=
  leads_operation (.push i types) fun _ _ _ _ hP ho =>
    progress_push hP ho hi (fun _ => hkeeps) fun _ _ hs hf =>
      ⟨Discipline.guards_of_same hk hf, fun _ => hn.holds (D.works hstore hs (hk.holds hf))⟩

/-- A return, behind which control is nowhere. -/
theorem leads_return (n : Nat) (hi : i.target? = none)
    (hreturn : i.opcode.effect.isUnconditional = true)
    (hk : D.Grounded ∨ D.Same P.level (k + i.takes types)) :
    Leads D false Γ P (fun _ => P.having n) (emit (Assembler.push i types)) := by
  refine leads_operation (.push i types) fun _ _ _ _ hP ho =>
    progress_push hP ho hi nofun fun f g hs hf => ⟨?_, fun h => ?_⟩
  · rcases hk with hgrounded | hk
    · exact hgrounded.guards hs hf
    · exact Discipline.guards_of_same hk hf
  · rw [hreturn] at h
    cases h

/-- A local in scope is given a value. -/
theorem progress_storeLocal {id : LocalId} {slot : UInt16} {type : FieldType} {s' : LocalSlots}
    (hP : P.Met D w s a) (hid : s.lookup? id = some (slot, type))
    (hx : emit (Assembler.storeLocal slot type) s a = .ok ((), s') b)
    (hk : D.Same P.level (k + 1)) :
    Progress D keeps Γ P (P.having k) w w s' a b := by
  obtain ⟨hrun, rfl⟩ := emit_eq_ok hx
  have heffect := (Frame.effect_store type.kind slot).1
  have htakes : (Instruction.store type.kind slot).takes (.value type.verification) = 1 := by
    rw [Instruction.takes, heffect]
    rfl
  have hconditional : (Instruction.store type.kind slot).opcode.effect.isUnconditional = false := by
    rw [heffect]
    rfl
  refine progress_push hP (Operation.run_push_iff.1 hrun)
    (Instruction.plain_store type.kind slot).target (fun _ => hconditional) fun f g hs hf =>
      ⟨?_, fun _ => D.stores hP.fits hid hs (hk.holds hf)⟩
  rw [htakes]
  exact Discipline.guards_of_same hk hf

/-- The standing behind a branch. -/
theorem met_pushJump {op : Opcode} {state new : LabelState} {next arriving : Frame}
    (hP : P.Met D w s a) (hm : m ∈ P.marks) (hl : a.labels[m.label.index]? = some state)
    (hlimit : new.limit = state.limit) (harriving : D.Lands m.landing arriving)
    (hframe : w.base ≤ m.label.index → ∀ f, new.frame = some f → D.Lands m.landing f)
    (hnext : op.effect ≠ .goto → D.holds P.context n next) :
    (P.having n).Met D w s (Assembler.pushJump op m.label next arriving
      { a with current := some next, labels := a.labels.setIfInBounds m.label.index new }) := by
  obtain ⟨hlt, hlanding, -⟩ := hP.marks m hm
  refine ⟨hP.fits, ?_, fun g hg => ?_,
    hP.marks_of_le (.refl w _) (Nat.le_of_eq Array.size_setIfInBounds.symm)⟩
  · rw [← hlanding] at harriving hframe
    exact hP.meets.setLabel hl rfl hlimit hframe (hP.meets.carried_push hlt harriving)
  · simp only [Assembler.pushJump] at hg
    split at hg
    · cases hg
    · cases hg
      exact hnext ‹_›

/-- A branch to one of the labels. -/
theorem leads_branch {op : Opcode} (hop : op.effect.isBranch = true) (hm : m ∈ P.marks)
    (hk : D.Same P.level (k + op.effect.takes [0, 0] .none))
    (hadmits : D.Admits m.landing P.context k) (hn : op.effect ≠ .goto → D.Same k n) :
    Leads D keeps Γ P (fun _ => P.having n) (emit (Assembler.branch op m.label)) := by
  refine leads_operation (.branch op m.label) fun w s a b hP ho => ?_
  obtain ⟨hlt, hlanding, -⟩ := hP.marks m hm
  obtain ⟨hstore, hgives⟩ := Effect.gives_of_isBranch hop
  have hguards : ∀ f, a.current = some f →
      D.Guards (Operation.takes (.branch op m.label)) f := fun f hf =>
    Discipline.guards_of_same hk (hP.current f hf)
  -- what the branch leaves behind
  have hnext : ∀ f next, a.current = some f →
      f.step a.instructions.size (.branch op m.label .empty) .none = .ok next →
        D.holds P.context k next := by
    intro f next hc hs
    have hworks := D.works (i := .branch op m.label .empty) hstore hs (hk.holds (hP.current f hc))
    rwa [Instruction.gives, show (Instruction.branch op m.label .empty).opcode = op from rfl,
      hgives] at hworks
  -- what arrives at the label
  have hlands : ∀ next state, a.labels[m.label.index]? = some state → D.holds P.context k next →
      D.Lands m.landing (state.restrict next) := by
    intro next state hl hnext
    rw [restrict_of_limit ((hP.meets.limits _ _ hl).trans (congrArg Landing.limit hlanding))]
    exact hadmits next hnext
  have hframed : ∀ state, a.labels[m.label.index]? = some state → w.base ≤ m.label.index →
      ∀ f, state.frame = some f → D.Lands m.landing f := fun state hl hbase f hf =>
    hlanding ▸ hP.meets.framed _ state f hbase hl hf
  cases ho with
  | drop ho hc =>
    refine progress_of_advances (.drop ho hc) { hP with current := fun f hf => ?_ } rfl hguards
      fun _ h => h
    rw [hc] at hf
    cases hf
  | @jumpBack _ _ _ f next there state index hc hs hl hp ht ha =>
    have hadvances := Advances.jumpBack hc hs hl hp ht ha
    have hbehind := hnext f next hc hs
    refine progress_of_advances hadvances
      (met_pushJump hP hm hl rfl (hlands next state hl hbehind) (hframed state hl)
        fun hgoto => (hn hgoto).holds hbehind)
      Array.size_setIfInBounds hguards fun _ h => ?_
    refine h.grows (.of_advances hadvances) fun _ =>
      .inr ⟨m, hm, _, Assembler.getElem?_setLabel hl _, .inl ?_⟩
    rw [hp]
    rfl
  | @jumpAhead _ _ _ f next there state hc hs hl hp hj =>
    have hadvances := Advances.jumpAhead hc hs hl hp hj
    have hbehind := hnext f next hc hs
    have harriving := hlands next state hl hbehind
    refine progress_of_advances hadvances
      (met_pushJump hP hm hl rfl harriving
        (fun hbase => hj.lands (hframed state hl hbase) fun g hg => ?_)
        fun hgoto => (hn hgoto).holds hbehind)
      Array.size_setIfInBounds hguards fun _ h => h.grows (.of_advances hadvances) fun _ =>
        .inr ⟨m, hm, _, Assembler.getElem?_setLabel hl _, .inr rfl⟩
    cases hg
    exact harriving

/-- A label of the code at hand is placed. -/
theorem leads_place (newer : List Mark) {rest : List Mark} (hmarks : P.marks = newer ++ m :: rest)
    (hown : m.isOwn = true) (hadmits : D.Admits m.landing P.context P.level)
    (hcontext : m.landing.context = P.context) :
    Leads D keeps Γ P (fun _ => (P.marking (newer ++ rest)).having m.landing.level)
      (emit (Assembler.place m.label)) := by
  refine leads_operation (.place m.label) fun w s a b hP ho => ?_
  have hm : m ∈ P.marks := by simp [hmarks]
  obtain ⟨hlt, hlanding, hbase⟩ := hP.marks m hm
  cases ho with
  | drop ho => cases ho
  | @place _ _ state frame hl hp hj =>
    have hadvances := Advances.place hl hp hj
    have habove : ∀ f, a.current.map state.restrict = some f → D.Lands m.landing f := by
      intro f hf
      obtain ⟨g, hg, rfl⟩ := Option.map_eq_some_iff.1 hf
      rw [restrict_of_limit ((hP.meets.limits _ _ hl).trans (congrArg Landing.limit hlanding))]
      exact hadmits g (hP.current g hg)
    have hframe : ∀ f, frame = some f → D.Lands m.landing f := by
      refine hj.lands habove fun f hf => ?_
      rw [← hlanding]
      exact hP.meets.framed _ state f (hbase hown) hl hf
    have hother : ∀ u ∈ newer ++ rest, u ∈ P.marks := by
      intro u hu
      rw [hmarks]
      rcases List.mem_append.1 hu with hu | hu
      · exact List.mem_append_left _ hu
      · exact List.mem_append_right _ (List.mem_cons_of_mem m hu)
    refine progress_of_advances hadvances ⟨hP.fits, ?_, fun f hf => ?_, fun u hu => ?_⟩
      (by simp [Assembler.settle]) (fun f hf => Discipline.guards_zero (hP.current f hf)) ?_
    · refine hP.meets.setLabel hl rfl rfl (fun _ f hf => ?_) hP.meets.carried
      rw [hlanding]
      exact hframe f hf
    · have hlands := hframe f hf
      rw [Discipline.Lands, hcontext] at hlands
      exact hlands
    · simpa [Assembler.settle] using hP.marks u (hother u hu)
    · intro _ halive
      -- whoever was on the way to the label is now here
      have hhere : a.current.isSome = true ∨ state.frame.isSome = true → frame.isSome = true := by
        intro h
        exact hj.isSome_iff.2 (h.imp_left (by simp))
      rcases halive with hc | ⟨u, hu, other, hother', hstate⟩
      · exact .inl (hhere (.inl hc))
      · rw [hmarks] at hu
        by_cases hlabel : u.label.index = m.label.index
        · rw [hlabel, hl] at hother'
          cases hother'
          rw [hp] at hstate
          exact .inl (hhere (.inr (hstate.resolve_left (by simp))))
        · have hu' : u ∈ newer ++ rest := by
            rcases List.mem_append.1 hu with hu | hu
            · exact List.mem_append_left _ hu
            · rcases List.mem_cons.1 hu with rfl | hu
              · exact absurd rfl hlabel
              · exact List.mem_append_right _ hu
          refine .inr ⟨u, hu', other, ?_, hstate⟩
          exact (Array.getElem?_setIfInBounds_ne (Ne.symm hlabel)).trans hother'

/-- A new label is one of those to which the code may branch. -/
theorem leads_newLabel (limit : Option Nat) (level : Nat) {f : Label → Lowering β}
    (hf : ∀ l, Leads D keeps Γ (P.marking (⟨l, ⟨Γ, level, limit⟩, true⟩ :: P.marks)) R (f l)) :
    Leads D keeps Γ P R (emit (Assembler.newLabel { limit }) >>= f) := by
  intro w s a v s' c hP h
  obtain ⟨l, s'', b, hl, h⟩ := bind_eq_ok h
  obtain ⟨hnew, rfl⟩ := emit_eq_ok hl
  cases hnew
  have hlearns := w.extends_learn a.labels.size ⟨Γ, level, limit⟩
  have hlanding : (w.learn a.labels.size ⟨Γ, level, limit⟩).landing a.labels.size =
      ⟨Γ, level, limit⟩ := if_pos rfl
  have hab : Progress D keeps Γ P
      (P.marking (⟨⟨a.labels.size⟩, ⟨Γ, level, limit⟩, true⟩ :: P.marks)) w
      (w.learn a.labels.size ⟨Γ, level, limit⟩) s'' a
      { a with labels := a.labels.push { limit } } := by
    refine ⟨⟨hP.fits, hP.meets.newLabel ⟨Γ, level, limit⟩ rfl rfl, hP.current, fun m hm => ?_⟩,
      hlearns, by simp, fun n hn hlt => ?_, fun _ h => ?_,
      .step .refl (.label limit a) fun f hf => Discipline.guards_zero (hP.current f hf)⟩
    · rcases List.mem_cons.1 hm with rfl | hm
      · exact ⟨by simp, hlanding, fun _ => hP.meets.base_le⟩
      · exact hP.marks_of_le hlearns (by simp) m hm
    · obtain rfl : n = a.labels.size := by
        simp only [Array.size_push] at hlt
        omega
      rw [hlanding]
    · exact (h.grows (.of_advances (.label limit a)) .inl).mono fun m => List.mem_cons_of_mem _
  obtain ⟨w'', hbc⟩ := hf _ _ s'' _ v s' c hab.met h
  exact ⟨w'', hab.trans hbc⟩

/-- The type on top of the stack is made more general. -/
theorem leads_generalize (type : FrameType) (hk : D.Same P.level (k + 1)) :
    Leads D keeps Γ P (fun _ => P) (emit (Assembler.generalize type)) := by
  refine leads_operation (.generalize type) fun w s a b hP ho => ?_
  have hguards : ∀ f, a.current = some f → D.Guards 1 f := fun f hf =>
    Discipline.guards_of_same hk (hP.current f hf)
  cases ho with
  | drop ho hc => exact progress_of_advances (.drop ho hc) hP rfl hguards fun _ h => h
  | @generalize _ _ f next hc hg =>
    have hadvances := Advances.generalize hc hg
    refine progress_of_advances hadvances ⟨hP.fits, hP.meets.congr rfl rfl, fun g hcurrent => ?_,
      hP.marks⟩ rfl hguards fun _ h => h.grows (.of_advances hadvances) fun _ => .inl rfl
    cases hcurrent
    exact D.generalizes hg (hP.current f hc)

theorem leads_noteLocals (count : Nat) :
    Leads D keeps Γ P (fun _ => P) (emit (Assembler.noteLocals count)) := by
  refine leads_operation (.noteLocals count) fun w s a b hP ho => ?_
  cases ho with
  | drop ho => cases ho
  | noteLocals =>
    exact progress_of_advances (.noteLocals count a) { hP with meets := hP.meets.congr rfl rfl } rfl
      (fun f hf => Discipline.guards_zero (hP.current f hf)) fun _ h => h

/-! ### Scopes -/

theorem leads_nextSlot {f : Nat → Lowering β}
    (hf : ∀ s, D.fits P.context P.first P.outer s → Leads D keeps Γ P R (f s.next)) :
    Leads D keeps Γ P R (nextSlot >>= f) :=
  fun w s a v s' b hP hx => hf s hP.fits w s a v s' b hP hx

/-- A block is opened. -/
theorem leads_enter :
    Leads D keeps Γ P (fun _ => P.inner D) (modify LocalSlots.enter : Lowering Unit) := by
  rintro w s a v s' b hP ⟨⟩
  have hmet : (P.inner D).Met D w s.enter a := ⟨D.enters hP.fits, hP.meets, hP.current, hP.marks⟩
  exact ⟨w, .stay hmet rfl⟩

/-- Leaves a block, whose locals are gone. -/
def leaveBlock : Lowering Unit := do
  modify LocalSlots.exit
  let first ← nextSlot
  emit (Assembler.killLocals first)

theorem leads_leaveBlock {s₀ : LocalSlots} (hs : D.fits P.context P.first P.outer s₀)
    (Γ' : Context) : Leads D keeps Γ ((P.inner D).widen Γ') (fun _ => P) leaveBlock := by
  intro w s a v s' b hP hx
  have hfits : D.fits P.context P.first P.outer s.exit := D.exits hs hP.fits
  obtain ⟨hkill, rfl⟩ := emit_eq_ok (x := Assembler.killLocals s.exit.next) hx
  cases hkill
  refine ⟨w, progress_of_advances (.killLocals s.exit.next a)
    ⟨hfits, hP.meets.congr rfl rfl, fun f hf => ?_, hP.marks⟩ rfl
    (fun f hf => Discipline.guards_zero (hP.current f hf))
    fun _ h => h.grows (.of_advances (.killLocals _ a)) fun hc => .inl (by simpa using hc)⟩
  obtain ⟨g, hg, rfl⟩ := Option.map_eq_some_iff.1 hf
  exact D.drops hfits (hP.current g hg)

/-- A local is declared. -/
theorem progress_declare {id : LocalId} {type : FieldType} {slot : UInt16} {s' : LocalSlots}
    (hP : P.Met D w s a) (hid : D.Loose ∨ P.context.declares id = false)
    (hx : declare id type s a = .ok (slot, s') b) :
    Progress D keeps Γ P (P.widen [(id, type)]) w w s' a b ∧
      s'.lookup? id = some (slot, type) := by
  unfold declare at hx
  split at hx
  · rename_i hslots
    cases hx
    have hfits : D.fits (P.context ++ [(id, type)]) P.first P.outer s' := by
      rcases hid with hloose | hnew
      · exact hloose _ _ _ _ _ _ _ _ hP.fits hslots
      · exact D.declares hP.fits hnew hslots
    have hmet : (P.widen [(id, type)]).Met D w s' a :=
      ⟨hfits, hP.meets, fun f hf => D.widens (hP.current f hf), hP.marks⟩
    refine ⟨.stay hmet rfl, ?_⟩
    obtain ⟨-, -, -, -, hlookup⟩ := LocalSlots.lookup?_declare hslots
    rw [hlookup, if_pos rfl]
  · cases hx

end Lowering
end ClassForge
