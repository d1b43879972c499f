/-
# Code that cannot go wrong

When a method is as it should be, the only errors that can come up while its code
is made say that a limit of the class file format is exceeded.  For a computation
this is said together with what holds before and after it (`Lowering.Safe`).

What has to hold is that the frame at the current point is the one expected, if
control can be there at all, and that each label that code may still branch to
knows what to expect (`Assembler.Stands`):

| label | what is known of it |
| --- | --- |
| ahead | it is not placed, and the branches to it so far agree on its frame |
| behind, at a reachable point | the frame there accepts the one expected |
| behind, where control cannot be | control does not come back before the label is done with |

The last line is why labels are listed with the newest first: only a label that is
newer than the start of a loop is placed inside of the loop, and no branch to it has
been kept if the loop cannot be reached.
-/

import ClassForge.Proofs.Typing

namespace ClassForge

/-- Does the error say that a limit of the class file format is exceeded? -/
def CompileError.isTooLarge : CompileError → Bool
  | .fault cause => cause.isTooLarge
  | _ => false

/-! ### Frames of which everything is known -/

/-- The objects on a stack that are not constructed were made before the `n`-th
instruction. -/
def MadeBefore (stack : Frame.Stack) (n : Nat) : Prop :=
  ∀ m, VerificationType.uninitialized m ∈ stack → m < n

namespace MadeBefore

variable {S : Frame.Stack} {n : Nat}

theorem mono {m : Nat} (h : MadeBefore S n) (hnm : n ≤ m) : MadeBefore S m :=
  fun k hk => Nat.lt_of_lt_of_le (h k hk) hnm

/-- A value on top was made before, and so was what lies below. -/
@[simp] theorem cons_iff {t : FrameType} :
    MadeBefore (t :: S) n ↔ (∀ m, t = .uninitialized m → m < n) ∧ MadeBefore S n := by
  simp only [MadeBefore, List.mem_cons]
  constructor
  · exact fun h => ⟨fun m hm => h m (.inl hm.symm), fun m hm => h m (.inr hm)⟩
  · rintro ⟨ht, hS⟩ m (hm | hm)
    · exact ht m hm.symm
    · exact hS m hm

/-- There is an instruction behind all that made an object on the stack. -/
theorem exists_bound (S : Frame.Stack) : ∃ n, MadeBefore S n := by
  induction S with
  | nil => exact ⟨0, fun m hm => nomatch hm⟩
  | cons t S ih =>
    obtain ⟨n, hn⟩ := ih
    by_cases ht : ∃ m, t = .uninitialized m
    · obtain ⟨m, rfl⟩ := ht
      refine ⟨max n (m + 1), cons_iff.2 ⟨?_, hn.mono (Nat.le_max_left ..)⟩⟩
      rintro _ ⟨⟩
      omega
    · exact ⟨n, cons_iff.2 ⟨fun m hm => absurd ⟨m, hm⟩ ht, hn⟩⟩

end MadeBefore

namespace Frame

/-- Nothing is left off where there is no `top`. -/
theorem trim_eq_self {locals : List FrameType} (h : .top ∉ locals) : trim locals = locals := by
  unfold trim
  have hhead : ∀ t ∈ locals.reverse.head?, (t = .top) = False := by
    intro t ht
    exact eq_false fun heq => h (heq ▸ List.mem_reverse.1 (List.mem_of_mem_head? ht))
  cases hreverse : locals.reverse with
  | nil => simpa using congrArg List.reverse hreverse.symm
  | cons t rest =>
    rw [hreverse] at hhead
    rw [List.dropWhile_cons_of_neg (by simp [hhead t rfl]), ← hreverse, List.reverse_reverse]

/-- A frame agrees with itself. -/
theorem merge_self {f : Frame} (h : .top ∉ f.locals) : f.merge f = some f := by
  have hmeet : List.zipWith meet f.locals f.locals = f.locals := by
    simp [List.zipWith_self, meet]
  rw [merge, if_pos rfl, hmeet, trim_eq_self h]

end Frame

/-! ### Labels -/

/-- The labels after one is placed. -/
theorem Assembler.getElem?_settle {a : Assembler} {l : Label} {state : LabelState}
    (hl : a.labels[l.index]? = some state) (frame : Option Frame) (n : Nat) :
    (a.settle l state frame).labels[n]? =
      if l.index = n then some { state with placed := some a.instructions.size, frame }
      else a.labels[n]? := by
  split
  · rename_i heq
    exact heq ▸ getElem?_setLabel hl _
  · rename_i hne
    exact Array.getElem?_setIfInBounds_ne hne

/-- A label that code may branch to. -/
structure Target where
  label : Label
  /-- Locals from this slot on are out of scope at the label. -/
  limit : Option Nat
  /-- The frame in which control arrives. -/
  frame : Frame
  /-- Is the label placed already? -/
  isBehind : Bool
  full : .top ∉ frame.locals

namespace Target

/-- Control with the frame `f` arrives with the frame of the label. -/
def Admits (t : Target) (f : Frame) : Prop :=
  LabelState.restrict { limit := t.limit } f = t.frame

/-- What is known of a label, given its state. -/
inductive Fits (t : Target) (a : Assembler) (state : LabelState) : Prop where
  | ahead (hb : t.isBehind = false) (hp : state.placed = none)
    (hf : ∀ f, state.frame = some f → f = t.frame ∧ MadeBefore f.stack a.instructions.size)
  | live (hb : t.isBehind = true) (hempty : t.frame.stack = []) {index : Nat}
    (hp : state.placed = some index) (hle : index ≤ a.instructions.size) {there : Frame}
    (ht : a.placedFrames[index]? = some there) (ha : there.accepts t.frame = true)
    (hhere : index = a.instructions.size → ∃ f, a.current = some f ∧ f.accepts t.frame = true)
  | dead (hb : t.isBehind = true) {index : Nat} (hp : state.placed = some index)
    (hc : a.current = none)
    (hnewer : ∀ n other, t.label.index ≤ n → a.labels[n]? = some other → other.frame = none)

/-- The label is as expected. -/
def Holds (t : Target) (a : Assembler) : Prop :=
  ∃ state, a.labels[t.label.index]? = some state ∧ state.limit = t.limit ∧ t.Fits a state

variable {t : Target} {a b : Assembler} {state state' : LabelState} {f : Frame}

theorem Admits.restrict_eq (h : t.Admits f) (hlimit : state.limit = t.limit) :
    state.restrict f = t.frame := by
  rw [← h, LabelState.restrict, LabelState.restrict, hlimit]

/-- What is known of a label stays known while no label changes. -/
theorem Fits.advance (h : t.Fits a state) (hlabels : b.labels = a.labels)
    (hframes : b.placedFrames = a.placedFrames)
    (hsize : a.instructions.size ≤ b.instructions.size)
    (hdead : a.current = none → b.current = none)
    (hhere : b.instructions.size = a.instructions.size → t.frame.stack = [] → ∀ f,
      a.current = some f → f.accepts t.frame = true →
        ∃ g, b.current = some g ∧ g.accepts t.frame = true) : t.Fits b state := by
  cases h with
  | ahead hb hp hf => exact .ahead hb hp fun f h => ⟨(hf f h).1, (hf f h).2.mono hsize⟩
  | live hb hempty hp hle ht ha hlive =>
    refine .live hb hempty hp (Nat.le_trans hle hsize) (hframes ▸ ht) ha fun heq => ?_
    obtain ⟨f, hf, haccepts⟩ := hlive (by omega)
    exact hhere (by omega) hempty f hf haccepts
  | dead hb hp hc hnewer => exact .dead hb hp (hdead hc) (hlabels ▸ hnewer)

/-- What is known of a label stays known when an instruction is added, which may be
a branch to the label. -/
theorem Fits.extend (h : t.Fits a state) (hc : a.current = some f)
    (hframes : b.placedFrames = a.placedFrames)
    (hsize : a.instructions.size < b.instructions.size) (hplaced : state'.placed = state.placed)
    (hframe : ∀ g, state'.frame = some g →
      state.frame = some g ∨ g = t.frame ∧ MadeBefore g.stack b.instructions.size) :
    t.Fits b state' := by
  cases h with
  | ahead hb hp hf =>
    refine .ahead hb (hplaced.trans hp) fun g hg => ?_
    rcases hframe g hg with h | h
    · exact ⟨(hf g h).1, (hf g h).2.mono (Nat.le_of_lt hsize)⟩
    · exact h
  | live hb hempty hp hle ht ha _ =>
    exact .live hb hempty (hplaced.trans hp) (by omega) (hframes ▸ ht) ha fun heq => by omega
  | dead _ _ hnone _ =>
    rw [hc] at hnone
    cases hnone

/-- What is known of a label stays known when another label is placed, a newer one if
the label is behind. -/
theorem Fits.settle (h : t.Fits a state) {l : Label} {s : LabelState} {frame : Option Frame}
    (hl : a.labels[l.index]? = some s) (hj : Joins (a.current.map s.restrict) s.frame frame)
    (hle : t.isBehind = true → t.label.index ≤ l.index) : t.Fits (a.settle l s frame) state := by
  cases h with
  | ahead hb hp hf => exact .ahead hb hp hf
  | @live hb hempty index hp hbound there ht ha hhere =>
    by_cases heq : index = a.instructions.size
    · obtain ⟨f, hf, haccepts⟩ := hhere heq
      obtain ⟨m, rfl, hm⟩ := hj.accepts_left (by rw [hf]; rfl)
      have haccepts' : m.accepts t.frame = true :=
        Frame.accepts_trans (Frame.accepts_trans hm (s.restrict_accepts f)) haccepts
      have hthere : (a.settle l s (some m)).placedFrames[index]? = some m := by
        simp [Assembler.settle, heq]
      exact .live hb hempty hp hbound hthere haccepts' fun _ => ⟨m, rfl, haccepts'⟩
    · have hthere : (a.settle l s frame).placedFrames[index]? = some there := by
        cases frame with
        | none => exact ht
        | some f => simp [Assembler.settle, Std.TreeMap.getElem?_insert, Ne.symm heq, ht]
      exact .live hb hempty hp hbound hthere ha fun h => absurd h heq
  | dead hb hp hc hnewer =>
    have hframe : frame = none := by
      rw [hc, hnewer _ s (hle hb) hl] at hj
      cases hj
      rfl
    subst hframe
    refine .dead hb hp rfl fun n other hn hother => ?_
    rw [Assembler.getElem?_settle hl] at hother
    split at hother
    · cases hother
      rfl
    · exact hnewer n other hn hother

/-- The same label, once it is placed. -/
def behind (t : Target) : Target := { t with isBehind := true }

end Target

/-- No branch goes to the label or to a newer one. -/
def Label.Untouched (l : Label) (a : Assembler) : Prop :=
  ∀ n state, l.index ≤ n → a.labels[n]? = some state → state.frame = none

/-- The frame at the current point is `f`, if control can be there, and the labels
are as expected. -/
structure Assembler.Stands (a : Assembler) (T : List Target) (f : Frame) : Prop where
  current : ∀ g, a.current = some g → g = f ∧ MadeBefore f.stack a.instructions.size
  targets : ∀ t ∈ T, t.Holds a
  newest : T.Pairwise fun t u => u.label.index < t.label.index
  unplaced : ∀ n state, a.labels[n]? = some state → state.placed = none →
    ∃ t ∈ T, t.label.index = n

namespace Assembler

variable {a b : Assembler} {T T₁ T₂ : List Target} {t : Target} {f g : Frame}

/-- Where control cannot be, any frame will do. -/
theorem Stands.of_none (h : a.Stands T f) (hc : a.current = none) (g : Frame) : a.Stands T g where
  current g' hg := by
    rw [hc] at hg
    cases hg
  targets := h.targets
  newest := h.newest
  unplaced := h.unplaced

/-- Labels are told apart by their numbers. -/
theorem Stands.eq_of_index (h : a.Stands T f) {u : Target} (ht : t ∈ T) (hu : u ∈ T)
    (heq : t.label.index = u.label.index) : t = u := by
  obtain ⟨i, hi, rfl⟩ := List.getElem_of_mem ht
  obtain ⟨j, hj, rfl⟩ := List.getElem_of_mem hu
  have hnewest := List.pairwise_iff_getElem.1 h.newest
  rcases Nat.lt_trichotomy i j with hlt | rfl | hlt
  · have := hnewest i j hi hj hlt
    omega
  · rfl
  · have := hnewest j i hj hi hlt
    omega

/-- The frame changes while no label does. -/
theorem Stands.advance (h : a.Stands T f) (hlabels : b.labels = a.labels)
    (hframes : b.placedFrames = a.placedFrames)
    (hsize : a.instructions.size ≤ b.instructions.size)
    (hcurrent : ∀ g', b.current = some g' → g' = g ∧ MadeBefore g.stack b.instructions.size)
    (hdead : a.current = none → b.current = none)
    (hhere : b.instructions.size = a.instructions.size → ∀ h : Frame, h.stack = [] → ∀ f,
      a.current = some f → f.accepts h = true → ∃ g, b.current = some g ∧ g.accepts h = true) :
    b.Stands T g where
  current := hcurrent
  targets t ht := by
    obtain ⟨state, hstate, hlimit, hfits⟩ := h.targets t ht
    exact ⟨state, hlabels ▸ hstate, hlimit,
      hfits.advance hlabels hframes hsize hdead fun heq => hhere heq t.frame⟩
  newest := h.newest
  unplaced := hlabels ▸ h.unplaced

/-- Adding constants or making room for locals changes nothing. -/
theorem Stands.congr (h : a.Stands T f) (hlabels : b.labels = a.labels)
    (hframes : b.placedFrames = a.placedFrames) (hinstructions : b.instructions = a.instructions)
    (hcurrent : b.current = a.current) : b.Stands T f := by
  refine h.advance hlabels hframes (hinstructions ▸ Nat.le.refl) ?_
    (fun hc => hcurrent.trans hc) ?_
  · rw [hcurrent, hinstructions]
    exact h.current
  · intro _ _ _ f' hf haccepts
    exact ⟨f', hcurrent.trans hf, haccepts⟩

end Assembler

/-! ### Computations of the assembler

One rule for each operation of the assembler: what it needs of the frame and the labels, and what
it leaves. -/

namespace Assembling

variable {α β : Type}

/-- From an assembler with one property the computation gets to one with another, or
a limit is exceeded. -/
def Safe (A : Assembler → Prop) (B : α → Assembler → Prop) (x : Assembling α) : Prop :=
  ∀ a, A a → (∃ v b, x a = .ok v b ∧ B v b) ∨ ∃ e b, x a = .error e b ∧ e.isTooLarge = true

theorem Safe.bind {A : Assembler → Prop} {B : α → Assembler → Prop} {C : β → Assembler → Prop}
    {x : Assembling α} {f : α → Assembling β} (hx : Safe A B x) (hf : ∀ v, Safe (B v) C (f v)) :
    Safe A C (x >>= f) := by
  intro a hA
  rcases hx a hA with ⟨v, b, hv, hB⟩ | ⟨e, b, he, hlarge⟩
  · rw [bind_of_ok hv]
    exact hf v b hB
  · exact .inr ⟨e, b, bind_of_error he, hlarge⟩

theorem safe_toAssembling {T : List Target} {f : Frame} (x : Interning α) :
    Safe (·.Stands T f) (fun _ => (·.Stands T f)) x.toAssembling := by
  intro a ha
  cases hx : x a.pool with
  | ok v pool =>
    exact .inl ⟨v, _, Interning.toAssembling_of_ok hx, ha.congr rfl rfl rfl rfl⟩
  | error e pool => exact .inr ⟨_, _, Interning.toAssembling_of_error hx, rfl⟩

end Assembling

namespace Assembler

open Assembling (Safe)

variable {T T₁ T₂ : List Target} {t : Target} {f g : Frame}
  {a : Assembler} {i : Instruction} {types : OperandTypes}

/-- An instruction is added where its frame is as expected. -/
theorem stands_push (h : a.Stands T f) (hc : a.current = some f)
    (hi : i.opcode.effect.isBranch = false) (hstep : f.step a.instructions.size i types = .ok g)
    {g' : Frame} (hnext : i.opcode.effect.isUnconditional = false → g' = g ∧
      MadeBefore g.stack (a.instructions.size + 1)) :
    ∃ b, push i types a = .ok () b ∧ b.Stands T g' := by
  refine ⟨_, Operation.run_push_iff.2 (.push hc hi hstep), ?_⟩
  refine h.advance rfl rfl (by simp) (fun g'' hg => ?_) (fun hnone => ?_) fun heq => ?_
  · dsimp only at hg
    split at hg
    · cases hg
    · rename_i hgoes
      cases hg
      obtain ⟨rfl, hmade⟩ := hnext (Bool.eq_false_iff.2 hgoes)
      exact ⟨rfl, by simpa using hmade⟩
  · rw [hc] at hnone
    cases hnone
  · simp at heq

theorem safe_push (hi : i.opcode.effect.isBranch = false) (hstep : ∀ n, f.step n i types = .ok g)
    (hmade : ∀ n, MadeBefore f.stack n → MadeBefore g.stack n) :
    Safe (·.Stands T f) (fun _ => (·.Stands T g)) (push i types) := by
  intro a ha
  cases hc : a.current with
  | none => exact .inl ⟨(), a, Operation.run_push_iff.2 (.drop rfl hc), ha.of_none hc g⟩
  | some f' =>
    obtain ⟨rfl, hbefore⟩ := ha.current f' hc
    obtain ⟨b, hb, hstands⟩ := stands_push ha hc hi (hstep _) fun _ =>
      ⟨rfl, (hmade _ hbefore).mono (Nat.le_succ _)⟩
    exact .inl ⟨(), b, hb, hstands⟩

/-- After an instruction that ends the method control cannot be there. -/
theorem safe_leave (hi : i.opcode.effect.isBranch = false)
    (hleaves : i.opcode.effect.isUnconditional = true) (hstep : ∀ n, f.step n i types = .ok g)
    (g' : Frame) :
    Safe (·.Stands T f) (fun _ => (·.Stands T g')) (push i types) := by
  intro a ha
  cases hc : a.current with
  | none => exact .inl ⟨(), a, Operation.run_push_iff.2 (.drop rfl hc), ha.of_none hc g'⟩
  | some f' =>
    obtain ⟨rfl, -⟩ := ha.current f' hc
    obtain ⟨b, hb, hstands⟩ := stands_push ha hc hi (hstep _) fun hgoes => by
      rw [hleaves] at hgoes
      cases hgoes
    exact .inl ⟨(), b, hb, hstands⟩

/-- A new object is told apart from those that are on the stack already. -/
theorem safe_newObject (type : RefType) :
    Safe (·.Stands T f)
      (fun _ b => ∃ n, .uninitialized n ∉ f.stack ∧
        b.Stands T { f with stack := .uninitialized n :: f.stack })
      (newObject type) := by
  refine (Assembling.safe_toAssembling _).bind fun index a ha => .inl ?_
  cases hc : a.current with
  | none =>
    obtain ⟨n, hn⟩ := MadeBefore.exists_bound f.stack
    exact ⟨(), a, Operation.run_push_iff.2 (.drop rfl hc), n, fun h => Nat.lt_irrefl n (hn n h),
      ha.of_none hc _⟩
  | some f' =>
    obtain ⟨rfl, hbefore⟩ := ha.current f' hc
    have hstep : f'.step a.instructions.size (.withConstant .newObject index) .none =
        .ok { f' with stack := .uninitialized a.instructions.size :: f'.stack } := rfl
    obtain ⟨b, hb, hstands⟩ := stands_push ha hc rfl hstep fun _ => ⟨rfl, MadeBefore.cons_iff.2
      ⟨by rintro m ⟨⟩; omega, hbefore.mono (Nat.le_succ _)⟩⟩
    exact ⟨(), b, hb, a.instructions.size, fun h => Nat.lt_irrefl _ (hbefore _ h), hstands⟩

/-- A branch to a label that expects its frame is added, and only the state of that
label changes. -/
theorem branch_of_fits (hc : a.current = some f) {op : Opcode}
    (hstep : f.step a.instructions.size (.branch op t.label .empty) .none = .ok g)
    (hadmits : t.Admits g) (hmade : MadeBefore g.stack (a.instructions.size + 1))
    {state : LabelState} (hstate : a.labels[t.label.index]? = some state)
    (hlimit : state.limit = t.limit) (hfits : t.Fits a state) :
    ∃ state' : LabelState, state'.limit = state.limit ∧ state'.placed = state.placed ∧
      (∀ h, state'.frame = some h →
        state.frame = some h ∨ h = t.frame ∧ MadeBefore h.stack (a.instructions.size + 1)) ∧
      branch op t.label a = .ok () (pushJump op t.label g (state.restrict g)
        { a with current := some g, labels := a.labels.setIfInBounds t.label.index state' }) := by
  have harrives := hadmits.restrict_eq hlimit
  cases hfits with
  | ahead _ hp hf =>
    refine ⟨{ state with jumpedTo := true, frame := some t.frame }, rfl, rfl, fun h hh => .inr ?_,
      Operation.run_branch_iff.2 (.jumpAhead hc hstep hstate hp ?_)⟩
    · obtain rfl := Option.some.inj hh
      refine ⟨rfl, ?_⟩
      have hstack : t.frame.stack = g.stack := by
        rw [← harrives, LabelState.restrict]
        split <;> rfl
      rwa [hstack]
    · rw [harrives]
      cases hframe : state.frame with
      | none => exact .right _
      | some h =>
        obtain rfl := (hf h hframe).1
        exact .both (Frame.merge_self t.full)
  | live _ _ hp _ hthere haccepts _ =>
    exact ⟨{ state with jumpedTo := true }, rfl, rfl, fun h hh => .inl hh,
      Operation.run_branch_iff.2 (.jumpBack hc hstep hstate hp hthere (harrives ▸ haccepts))⟩
  | dead _ _ hnone _ =>
    rw [hc] at hnone
    cases hnone

/-- A branch to a label that expects its frame. -/
theorem safe_branch_to (ht : t ∈ T) {op : Opcode}
    (hstep : ∀ n, f.step n (.branch op t.label .empty) .none = .ok g) (hadmits : t.Admits g)
    (hmade : ∀ n, MadeBefore f.stack n → MadeBefore g.stack n) {g' : Frame}
    (hnext : op.effect ≠ .goto → g' = g) :
    Safe (·.Stands T f) (fun _ => (·.Stands T g')) (branch op t.label) := by
  intro a h
  cases hc : a.current with
  | none => exact .inl ⟨(), a, Operation.run_branch_iff.2 (.drop rfl hc), h.of_none hc g'⟩
  | some f' =>
    obtain ⟨rfl, hbefore⟩ := h.current f' hc
    obtain ⟨state, hstate, hlimit, hfits⟩ := h.targets t ht
    have hmade' := (hmade _ hbefore).mono (Nat.le_succ _)
    obtain ⟨state', hlimit', hplaced, hframe, hbranch⟩ :=
      branch_of_fits hc (hstep _) hadmits hmade' hstate hlimit hfits
    refine .inl ⟨(), _, hbranch, ?_, fun u hu => ?_, h.newest, fun n other hn hp => ?_⟩
    · intro h hh
      unfold pushJump at hh ⊢
      dsimp only at hh ⊢
      split at hh
      · cases hh
      · rename_i hgoto
        cases hh
        rw [hnext hgoto, Array.size_push]
        exact ⟨rfl, hmade'⟩
    · obtain ⟨other, hother, hlimit'', hfits'⟩ := h.targets u hu
      by_cases heq : t.label.index = u.label.index
      · obtain rfl := h.eq_of_index ht hu heq
        obtain rfl : other = state := Option.some.inj (hother.symm.trans hstate)
        refine ⟨state', getElem?_setLabel hstate state', hlimit'.trans hlimit,
          hfits'.extend hc rfl ?_ hplaced ?_⟩
        · simp [pushJump]
        · simpa [pushJump] using hframe
      · refine ⟨other, ?_, hlimit'', hfits'.extend hc rfl ?_ rfl fun _ hh => .inl hh⟩
        · simp [pushJump, heq, hother]
        · simp [pushJump]
    · simp only [pushJump, Array.getElem?_setIfInBounds] at hn
      split at hn
      · rename_i heq
        exact ⟨t, ht, heq⟩
      · exact h.unplaced n other hn hp

/-- What the code above a label and the branches to it agree on is its frame. -/
theorem Stands.joins (h : a.Stands T f) (hadmits : t.Admits f) {state : LabelState}
    (hlimit : state.limit = t.limit)
    (hframe : ∀ g, state.frame = some g → g = t.frame ∧ MadeBefore g.stack a.instructions.size) :
    ∃ frame, Joins (a.current.map state.restrict) state.frame frame ∧
      ∀ g, frame = some g → g = t.frame ∧ MadeBefore t.frame.stack a.instructions.size := by
  have harrives := hadmits.restrict_eq hlimit
  cases hc : a.current with
  | none =>
    refine ⟨state.frame, .right _, fun g hg => ?_⟩
    obtain ⟨rfl, hmade⟩ := hframe g hg
    exact ⟨rfl, hmade⟩
  | some f' =>
    obtain ⟨rfl, hmade⟩ := h.current f' hc
    refine ⟨some t.frame, ?_, fun g hg => ⟨(Option.some.inj hg).symm, ?_⟩⟩
    · rw [Option.map_some, harrives]
      cases hstate : state.frame with
      | none => exact .left _
      | some g =>
        obtain rfl := (hframe g hstate).1
        exact .both (Frame.merge_self t.full)
    · have hstack : t.frame.stack = f'.stack := by
        rw [← harrives, LabelState.restrict]
        split <;> rfl
      rwa [hstack]

/-- A label that is ahead is placed.  The labels that are newer are ahead as well. -/
theorem Stands.settle (h : a.Stands (T₁ ++ t :: T₂) f) (ht : t.isBehind = false)
    (hnewer : ∀ u ∈ T₁, u.isBehind = false) (hadmits : t.Admits f) :
    ∃ state frame, a.labels[t.label.index]? = some state ∧ state.limit = t.limit ∧
      place t.label a = .ok () (a.settle t.label state frame) ∧
      (a.settle t.label state frame).Stands (T₁ ++ T₂) t.frame := by
  obtain ⟨state, hstate, hlimit, hfits⟩ := h.targets t (by simp)
  obtain ⟨hplaced, hframe⟩ : state.placed = none ∧
      ∀ g, state.frame = some g → g = t.frame ∧ MadeBefore g.stack a.instructions.size := by
    cases hfits with
    | ahead _ hp hf => exact ⟨hp, hf⟩
    | live hb => cases ht.symm.trans hb
    | dead hb => cases ht.symm.trans hb
  obtain ⟨frame, hjoins, hcurrent⟩ := h.joins hadmits hlimit hframe
  have hnewest := h.newest
  rw [List.pairwise_append, List.pairwise_cons] at hnewest
  obtain ⟨-, ⟨holder, -⟩, hnewer'⟩ := hnewest
  refine ⟨state, frame, hstate, hlimit, Operation.run_place_iff.2 (.place hstate hplaced hjoins),
    fun g hg => hcurrent g hg, fun u hu => ?_, ?_, fun n other hn hp => ?_⟩
  · have hmem : u ∈ T₁ ++ t :: T₂ := by
      rw [List.mem_append] at hu ⊢
      exact hu.imp_right (List.mem_cons_of_mem t)
    have hne : t.label.index ≠ u.label.index := by
      rcases List.mem_append.1 hu with hu | hu
      · have := hnewer' u hu t List.mem_cons_self
        omega
      · have := holder u hu
        omega
    obtain ⟨other, hother, hlimit', hfits'⟩ := h.targets u hmem
    refine ⟨other, ?_, hlimit', hfits'.settle hstate hjoins fun hb => ?_⟩
    · rw [getElem?_settle hstate, if_neg hne]
      exact hother
    · rcases List.mem_append.1 hu with hu | hu
      · cases (hnewer u hu).symm.trans hb
      · exact Nat.le_of_lt (holder u hu)
  · exact h.newest.sublist (List.Sublist.append_left (List.sublist_cons_self t T₂) T₁)
  · rw [getElem?_settle hstate] at hn
    split at hn
    · cases hn
      cases hp
    · rename_i hne
      obtain ⟨u, hu, rfl⟩ := h.unplaced n other hn hp
      refine ⟨u, ?_, rfl⟩
      rw [List.mem_append, List.mem_cons] at hu
      rw [List.mem_append]
      refine hu.imp_right fun hu => hu.resolve_left ?_
      rintro rfl
      exact hne rfl

theorem safe_place (ht : t.isBehind = false) (hnewer : ∀ u ∈ T₁, u.isBehind = false)
    (hadmits : t.Admits f) :
    Safe (·.Stands (T₁ ++ t :: T₂) f) (fun _ => (·.Stands (T₁ ++ T₂) t.frame))
      (place t.label) := by
  intro a ha
  obtain ⟨state, frame, -, -, hplace, hstands⟩ := ha.settle ht hnewer hadmits
  exact .inl ⟨(), _, hplace, hstands⟩

/-- A label is placed to which code may go back. -/
theorem safe_place_behind (ht : t.isBehind = false) (hempty : t.frame.stack = [])
    (hnewer : ∀ u ∈ T₁, u.isBehind = false) (hadmits : t.Admits f) :
    Safe (fun a => a.Stands (T₁ ++ t :: T₂) f ∧ t.label.Untouched a)
      (fun _ => (·.Stands (T₁ ++ t.behind :: T₂) t.frame)) (place t.label) := by
  rintro a ⟨ha, huntouched⟩
  obtain ⟨state, frame, hstate, hlimit, hplace, hstands⟩ := ha.settle ht hnewer hadmits
  have hfits : t.behind.Fits (a.settle t.label state frame)
      { state with placed := some a.instructions.size, frame } := by
    cases frame with
    | none =>
      refine .dead rfl rfl rfl fun n other hn hother => ?_
      rw [getElem?_settle hstate] at hother
      split at hother
      · cases hother
        rfl
      · exact huntouched n other hn hother
    | some g =>
      obtain ⟨rfl, -⟩ := hstands.current g rfl
      have hthere : (a.settle t.label state (some t.frame)).placedFrames[a.instructions.size]? =
          some t.frame := by simp [Assembler.settle]
      exact .live rfl hempty rfl Nat.le.refl hthere (Frame.accepts_refl _) fun _ =>
        ⟨t.frame, rfl, Frame.accepts_refl _⟩
  have hnewest := ha.newest
  rw [List.pairwise_append, List.pairwise_cons] at hnewest
  refine .inl ⟨(), _, hplace, hstands.current, fun u hu => ?_, ?_, fun n other hn hp => ?_⟩
  · rcases List.mem_append.1 hu with hu | hu
    · exact hstands.targets u (List.mem_append_left T₂ hu)
    · rcases List.mem_cons.1 hu with rfl | hu
      · exact ⟨_, (getElem?_settle hstate frame _).trans (if_pos rfl), hlimit, hfits⟩
      · exact hstands.targets u (List.mem_append_right T₁ hu)
  · rw [List.pairwise_append, List.pairwise_cons]
    refine ⟨hnewest.1, hnewest.2.1, fun u hu v hv => ?_⟩
    rcases List.mem_cons.1 hv with rfl | hv
    · exact hnewest.2.2 u hu t List.mem_cons_self
    · exact hnewest.2.2 u hu v (List.mem_cons_of_mem t hv)
  · obtain ⟨u, hu, rfl⟩ := hstands.unplaced n other hn hp
    rw [List.mem_append] at hu
    exact ⟨u, List.mem_append.2 (hu.imp_right (List.mem_cons_of_mem _)), rfl⟩

/-- A loop is done with. -/
theorem Stands.forget (h : a.Stands (T₁ ++ t.behind :: T₂) f) : a.Stands (T₁ ++ T₂) f := by
  have hsublist : (T₁ ++ T₂).Sublist (T₁ ++ t.behind :: T₂) :=
    List.Sublist.append_left (List.sublist_cons_self _ T₂) T₁
  refine ⟨h.current, fun u hu => h.targets u (hsublist.subset hu), h.newest.sublist hsublist,
    fun n state hn hp => ?_⟩
  obtain ⟨u, hu, rfl⟩ := h.unplaced n state hn hp
  refine ⟨u, ?_, rfl⟩
  rw [List.mem_append, List.mem_cons] at hu
  refine List.mem_append.2 (hu.imp_right fun hu => hu.resolve_left ?_)
  rintro rfl
  obtain ⟨state', hstate', -, hfits⟩ := h.targets t.behind (by simp)
  obtain rfl := Option.some.inj (hn.symm.trans hstate')
  cases hfits with
  | ahead hb => cases hb
  | live _ _ hp' => cases hp.symm.trans hp'
  | dead _ hp' => cases hp.symm.trans hp'

/-- A new label is ahead, whatever its frame will be. -/
theorem newLabel_stands (h : a.Stands T f) (limit : Option Nat) (hg : .top ∉ g.locals) :
    ∃ l b, newLabel { limit } a = .ok l b ∧ b.Stands (⟨l, limit, g, false, hg⟩ :: T) f ∧
      l.Untouched b ∧ ∀ m : Label, m.Untouched a → m.Untouched b := by
  have hknown : ∀ t ∈ T, t.label.index < a.labels.size := by
    intro t ht
    obtain ⟨state, hstate, -⟩ := h.targets t ht
    exact (Array.getElem?_eq_some_iff.1 hstate).1
  have hlabels (n : Nat) : (a.labels.push { limit })[n]? =
      if n = a.labels.size then some { limit } else a.labels[n]? := Array.getElem?_push
  have huntouched (m : Label) (hm : m.Untouched a) :
      m.Untouched { a with labels := a.labels.push { limit } } := by
    intro n state hn hstate
    rw [hlabels] at hstate
    split at hstate
    · cases hstate
      rfl
    · exact hm n state hn hstate
  refine ⟨_, _, rfl, ⟨h.current, fun t ht => ?_, ?_, fun n state hn hp => ?_⟩,
    huntouched _ fun n state hn hstate => ?_, huntouched⟩
  · rcases List.mem_cons.1 ht with rfl | ht
    · exact ⟨{ limit }, by rw [hlabels, if_pos rfl], rfl,
        .ahead rfl rfl fun f hf => nomatch hf⟩
    · obtain ⟨state, hstate, hlimit, hfits⟩ := h.targets t ht
      refine ⟨state, ?_, hlimit, ?_⟩
      · have := hknown t ht
        rw [hlabels, if_neg (by omega)]
        exact hstate
      · cases hfits with
        | ahead hb hp hf => exact .ahead hb hp hf
        | live hb hempty hp hle ht ha hhere => exact .live hb hempty hp hle ht ha hhere
        | dead hb hp hc hnewer => exact .dead hb hp hc (huntouched t.label hnewer)
  · exact List.pairwise_cons.2 ⟨hknown, h.newest⟩
  · rw [hlabels] at hn
    split at hn
    · rename_i heq
      exact ⟨_, List.mem_cons_self, heq.symm⟩
    · obtain ⟨t, ht, rfl⟩ := h.unplaced n state hn hp
      exact ⟨t, List.mem_cons_of_mem _ ht, rfl⟩
  · have := (Array.getElem?_eq_some_iff.1 hstate).1
    dsimp only at hn
    omega

theorem safe_newLabel (limit : Option Nat) (hg : .top ∉ g.locals) :
    Safe (·.Stands T f) (fun l => (·.Stands (⟨l, limit, g, false, hg⟩ :: T) f))
      (newLabel { limit }) := by
  intro a ha
  obtain ⟨l, b, hl, hstands, -⟩ := newLabel_stands ha limit hg
  exact .inl ⟨l, b, hl, hstands⟩

/-- A new label to which no branch goes yet. -/
theorem safe_newLabel_untouched (limit : Option Nat) (hg : .top ∉ g.locals) :
    Safe (·.Stands T f)
      (fun l b => b.Stands (⟨l, limit, g, false, hg⟩ :: T) f ∧ l.Untouched b)
      (newLabel { limit }) := by
  intro a ha
  obtain ⟨l, b, hl, hstands, huntouched, -⟩ := newLabel_stands ha limit hg
  exact .inl ⟨l, b, hl, hstands, huntouched⟩

theorem safe_newLabel_after (m : Label) (limit : Option Nat) (hg : .top ∉ g.locals) :
    Safe (fun a => a.Stands T f ∧ m.Untouched a)
      (fun l b => b.Stands (⟨l, limit, g, false, hg⟩ :: T) f ∧ m.Untouched b)
      (newLabel { limit }) := by
  rintro a ⟨ha, hm⟩
  obtain ⟨l, b, hl, hstands, -, huntouched⟩ := newLabel_stands ha limit hg
  exact .inl ⟨l, b, hl, hstands, huntouched m hm⟩

/-- Locals go out of scope. -/
theorem safe_killLocals (first : Nat) :
    Safe (·.Stands T f) (fun _ => (·.Stands T (f.killLocals first))) (killLocals first) := by
  intro a ha
  refine .inl ⟨(), _, rfl, ha.advance rfl rfl Nat.le.refl (fun g hg => ?_) (fun hc => ?_) ?_⟩
  · obtain ⟨f', hf', rfl⟩ := Option.map_eq_some_iff.1 hg
    obtain ⟨rfl, hmade⟩ := ha.current f' hf'
    exact ⟨rfl, hmade⟩
  · dsimp only
    rw [hc]
    rfl
  · intro _ h _ f' hf' haccepts
    refine ⟨f'.killLocals first, ?_, Frame.accepts_trans (f'.killLocals_accepts first) haccepts⟩
    dsimp only
    rw [hf']
    rfl

/-- The type on top of the stack becomes more general. -/
theorem safe_generalize {L : List FrameType} {S : Frame.Stack} {specific general : FrameType}
    (hgeneral : (⟨L, specific :: S⟩ : Frame).generalizeTop general = .ok ⟨L, general :: S⟩)
    (hmade : ∀ n, MadeBefore S n → MadeBefore (general :: S) n) :
    Safe (·.Stands T ⟨L, specific :: S⟩) (fun _ => (·.Stands T ⟨L, general :: S⟩))
      (generalize general) := by
  intro a ha
  cases hc : a.current with
  | none => exact .inl ⟨(), a, Operation.run_generalize_iff.2 (.drop rfl hc), ha.of_none hc _⟩
  | some f' =>
    obtain ⟨rfl, hbefore⟩ := ha.current f' hc
    refine .inl ⟨(), _, Operation.run_generalize_iff.2 (.generalize hc hgeneral),
      ha.advance rfl rfl Nat.le.refl (fun g hg => ?_) (fun hnone => ?_) ?_⟩
    · exact ⟨(Option.some.inj hg).symm, hmade _ (MadeBefore.cons_iff.1 hbefore).2⟩
    · cases hc.symm.trans hnone
    · -- the stack is empty where a loop starts
      intro _ h hempty f' hf' haccepts
      obtain rfl := Option.some.inj (hc.symm.trans hf')
      have hstack := ((Frame.accepts_iff _ _).1 haccepts).1
      rw [hempty] at hstack
      cases hstack

end Assembler

/-! ### Computations that make code -/

namespace Lowering

variable {α β : Type} {P Q R : LocalSlots → Prop} {A : Assembler → Prop} {B : α → Assembler → Prop}
  {C : β → Assembler → Prop} {x : Lowering α}

/-- From slots and an assembler with some properties the computation gets to others,
or a limit is exceeded. -/
def Safe (P Q : LocalSlots → Prop) (A : Assembler → Prop) (B : α → Assembler → Prop)
    (x : Lowering α) : Prop :=
  ∀ slots a, P slots → A a →
    (∃ v slots' b, x slots a = .ok (v, slots') b ∧ Q slots' ∧ B v b) ∨
      ∃ e b, x slots a = .error e b ∧ e.isTooLarge = true

theorem Safe.bind {f : α → Lowering β} (hx : Safe P Q A B x) (hf : ∀ v, Safe Q R (B v) C (f v)) :
    Safe P R A C (x >>= f) := by
  intro slots a hP hA
  rcases hx slots a hP hA with ⟨v, slots', b, hv, hQ, hB⟩ | ⟨e, b, he, hlarge⟩
  · rw [bind_of_ok hv]
    exact hf v slots' b hQ hB
  · exact .inr ⟨e, b, bind_of_error he, hlarge⟩

/-- Less may be asked for afterwards. -/
theorem Safe.imp {B' : α → Assembler → Prop} (hx : Safe P Q A B x) (hB : ∀ v b, B v b → B' v b) :
    Safe P Q A B' x := by
  intro slots a hP hA
  refine (hx slots a hP hA).imp_left ?_
  rintro ⟨v, slots', b, hv, hQ, hb⟩
  exact ⟨v, slots', b, hv, hQ, hB v b hb⟩

theorem Safe.of_exists {ι : Type} {p : ι → Prop} {A : ι → Assembler → Prop}
    (h : ∀ i, p i → Safe P Q (A i) B x) : Safe P Q (fun a => ∃ i, p i ∧ A i a) B x := by
  rintro slots a hP ⟨i, hi, hA⟩
  exact h i hi slots a hP hA

theorem safe_pure (v : α) (h : ∀ a, A a → B v a) : Safe P P A B (pure v) :=
  fun slots a hP hA => .inl ⟨v, slots, a, rfl, hP, h a hA⟩

theorem safe_skip : Safe P P A (fun _ => A) (pure () : Lowering Unit) := safe_pure () fun _ => id

theorem safe_emit {x : Assembling α} (h : Assembling.Safe A B x) : Safe P P A B (emit x) := by
  intro slots a hP hA
  rcases h a hA with ⟨v, b, hv, hB⟩ | ⟨e, b, he, hlarge⟩
  · exact .inl ⟨v, slots, b, emit_of_ok hv, hP, hB⟩
  · refine .inr ⟨.fault e, b, ?_, hlarge⟩
    unfold emit
    rw [he]

/-- A local that is known is found. -/
theorem safe_lookup {id : LocalId} {found : UInt16 × FieldType}
    {f : UInt16 × FieldType → Lowering α} (h : ∀ slots, P slots → slots.lookup? id = some found)
    (hf : Safe P Q A B (f found)) : Safe P Q A B (lookup id >>= f) := by
  intro slots a hP hA
  have hlookup : lookup id slots a = .ok (found, slots) a := by
    unfold lookup
    rw [h slots hP]
  rw [bind_of_ok hlookup]
  exact hf slots a hP hA

theorem safe_nextSlot {n : Nat} {f : Nat → Lowering α} (h : ∀ slots, P slots → slots.next = n)
    (hf : Safe P Q A B (f n)) : Safe P Q A B (nextSlot >>= f) := by
  intro slots a hP hA
  have hnext : nextSlot slots a = .ok (n, slots) a := by rw [← h slots hP]; rfl
  rw [bind_of_ok hnext]
  exact hf slots a hP hA

theorem safe_modify {f : LocalSlots → LocalSlots} (h : ∀ slots, P slots → Q (f slots)) :
    Safe P Q A (fun _ => A) (modify f : Lowering Unit) :=
  fun slots a hP hA => .inl ⟨(), f slots, a, rfl, h slots hP, hA⟩

end Lowering
end ClassForge
