/-
# The depth of the stack

Specification, section 4.3: the depth of the stack as a byproduct of simulation.

Code leaves what lies below on the stack alone.  Where it starts with `d` values on the
stack, it ends with a number of values that depends on the source only, whatever way
control takes:

| code | values at the end |
| --- | --- |
| an expression | one more, or as many for a call without a result |
| its effect | as many, if the end can be reached |
| a condition | as many, where control goes on and where it jumps |
| a statement | as many, if the end can be reached |

On the way no instruction takes one of the `d` values (`Assembler.Spares`).  A return
without a value is the one statement for which that depends on where it stands: in a
method that returns something it takes a value from below (`bareReturn_unbalanced`).
Between the statements of a balanced body there is none to take, as they start with an
empty stack.

The depth of frames is a discipline (`depthDiscipline`), so this follows from the walk
over the source.
-/

import ClassForge.Proofs.Outline
import ClassForge.Sample

namespace ClassForge

/-! ### Depth is a discipline -/

namespace Frame

variable {f g : Frame} {n : Nat} {i : Instruction} {types : OperandTypes}

/-- **An instruction takes and gives as many values as it says.** -/
theorem length_of_step (h : f.step n i types = .ok g) :
    i.takes types ≤ f.stack.length ∧
      g.stack.length + i.takes types = f.stack.length + i.gives types := by
  cases effects_of_step h with
  | work hi htaken hgiven hf hsource =>
    rw [hf, List.length_append, List.length_append]
    omega
  | store hi hslot hf =>
    rw [hf, Instruction.takes, Instruction.gives, hi]
    exact ⟨Nat.le_add_left _ _, rfl⟩
  | construct hi htypes hf hreceiver =>
    rw [hf, Instruction.takes, Instruction.gives, hi, htypes, List.length_map, List.length_append,
      List.length_cons]
    simp only [Effect.takes, Effect.gives, OperandTypes.arguments, OperandTypes.types,
      List.length_nil]
    omega

/-- A more general type on top leaves the depth of the stack. -/
theorem length_of_generalizeTop {type : FrameType} (h : f.generalizeTop type = .ok g) :
    g.stack.length = f.stack.length := by
  unfold Frame.generalizeTop at h
  split at h
  · cases h
  rename_i specific rest hstack
  repeat' split at h
  · cases h
  · cases h
  · cases h
    rw [hstack, List.length_cons, List.length_cons]

end Frame

theorem LabelState.stack_restrict (s : LabelState) (f : Frame) :
    (s.restrict f).stack = f.stack := by
  unfold restrict
  split <;> rfl

theorem Frame.depth_of_step {d k n : Nat} {i : Instruction} {types : OperandTypes} {f g : Frame}
    (hs : f.step n i types = .ok g) (hf : f.stack.length = d + (k + i.takes types)) :
    g.stack.length = d + (k + i.gives types) := by
  have hlength := length_of_step hs
  omega

/-- A store takes one value, and leaves none. -/
theorem Frame.depth_of_store {d k n : Nat} {kind : ValueKind} {slot : UInt16}
    {types : OperandTypes} {f g : Frame} (hs : f.step n (.store kind slot) types = .ok g)
    (hf : f.stack.length = d + (k + 1)) : g.stack.length = d + k := by
  have hlength := length_of_step hs
  rw [Instruction.takes, Instruction.gives, (effect_store _ _).1] at hlength
  simp only [Effect.takes, Effect.gives] at hlength
  omega

/-- There are `d` values on the stack below those of the code at hand. -/
def depthDiscipline (d : Nat) : Discipline where
  fits _ _ _ _ := True
  scopes _ _ outer := outer
  holds _ k f := f.stack.length = d + k
  merges hf _ h := by
    obtain ⟨-, rfl⟩ := Frame.merge_eq_some h
    exact hf
  works _ hs hf := Frame.depth_of_step hs hf
  stores _ _ hs hf := Frame.depth_of_store hs hf
  generalizes hg hf := (Frame.length_of_generalizeTop hg).trans hf
  declares _ _ _ := trivial
  widens hf := hf
  enters _ := trivial
  exits _ _ := trivial
  drops _ hf := hf

namespace Depth

variable {d : Nat}

theorem loose (d : Nat) : (depthDiscipline d).Loose := fun _ _ _ _ _ _ _ _ _ _ => trivial

theorem grounded : (depthDiscipline 0).Grounded := by
  intro Γ k n i types f g hf hs
  have hlength := Frame.length_of_step hs
  have hdepth : f.stack.length = 0 + k := hf
  omega

theorem admits (t : Landing) (ht : t.level = 0) (Γ : Context) :
    (depthDiscipline d).Admits t Γ 0 := by
  intro f hf
  change (LabelState.restrict { limit := t.limit } f).stack.length = d + t.level
  rw [LabelState.stack_restrict, ht]
  exact hf

end Depth

/-! ### Where code starts -/

/-- No operation on the way from one assembler to another takes one of the lowest `d`
values of the stack. -/
def Assembler.Spares (a : Assembler) (d : Nat) (b : Assembler) : Prop :=
  a.Course (fun n f => d + n ≤ f.stack.length) b

namespace Depth

variable {a b : Assembler} {f : Frame} {slots : LocalSlots}

theorem spares_of_course {d : Nat} (h : a.Course (depthDiscipline d).Guards b) : a.Spares d b := by
  refine h.mono fun n f hf => ?_
  obtain ⟨Γ, k, hk⟩ := hf
  have hdepth : f.stack.length = d + (k + n) := hk
  omega

/-- Something is known about the labels and branches that are added to the code. -/
def world (a : Assembler) : World where
  base := a.labels.size
  start := a.instructions.size
  landing l := ⟨[], 0, (a.labels[l]?).bind LabelState.limit⟩

/-- The labels that are there already, to which code may branch. -/
def marks (a : Assembler) (labels : List Label) : List Mark :=
  labels.map fun l => ⟨l, (world a).landing l.index, false⟩

/-- How things are where code starts that may branch to labels. -/
def standing (a : Assembler) (labels : List Label) : Standing := ⟨[], 0, [], marks a labels, 0⟩

/-- **Where code starts, nothing lies above the stack**: the values that are there are the
`d` that must be spared, and labels that are there already lie outside. -/
theorem met (hf : a.current = some f) (slots : LocalSlots) {labels : List Label}
    (hlabels : ∀ l ∈ labels, l.index < a.labels.size) :
    (standing a labels).Met (depthDiscipline f.stack.length) (world a) slots a where
  fits := trivial
  meets := {
    base_le := Nat.le.refl
    limits := fun l state hl => by
      change state.limit = (a.labels[l]?).bind LabelState.limit
      rw [hl]
      rfl
    framed := fun l state _ hl hstate =>
      absurd (Array.getElem?_eq_some_iff.1 hstate).1 (Nat.not_lt.2 hl)
    carried := fun n i _ _ hn hi =>
      absurd (Array.getElem?_eq_some_iff.1 hi).1 (Nat.not_lt.2 hn) }
  current g hg := by
    rw [hf] at hg
    cases hg
    rfl
  marks m hm := by
    obtain ⟨l, hl, rfl⟩ := List.mem_map.1 hm
    exact ⟨hlabels l hl, rfl, fun h => by cases h⟩

/-- What code that takes nothing and leaves `n` values does to the stack. -/
theorem of_balances {x : Lowering Unit} {n : Nat}
    (hx : x.Balances (depthDiscipline f.stack.length) 0 n) (hf : a.current = some f)
    {slots slots' : LocalSlots} (h : x slots a = .ok ((), slots') b) :
    (∃ g, b.current = some g ∧ g.stack.length = f.stack.length + n) ∧
      a.Spares f.stack.length b := by
  obtain ⟨w, hprogress⟩ := hx (standing a []) 0 (Discipline.same_refl _) _ _ _ _ _ _
    (met hf slots fun l hl => absurd hl List.not_mem_nil) h
  refine ⟨?_, spares_of_course hprogress.course⟩
  have halive : b.Alive [] := hprogress.alive rfl (.inl (by rw [hf]; rfl))
  rcases halive with hsome | ⟨m, hm, -⟩
  · obtain ⟨g, hg⟩ := Option.isSome_iff_exists.1 hsome
    have hdepth : g.stack.length = f.stack.length + (0 + n) := hprogress.met.current g hg
    exact ⟨g, hg, by omega⟩
  · exact absurd hm List.not_mem_nil

/-- What code that branches to a label does to the stack. -/
theorem of_jumpBalances {jump : Jump}
    (hjump : Lowering.JumpBalances (depthDiscipline f.stack.length) jump)
    (hf : a.current = some f) {slots slots' : LocalSlots} {outcome : Bool} {target : Label}
    (htarget : target.index < a.labels.size)
    (h : jump outcome target slots a = .ok ((), slots') b) :
    (∀ g, b.current = some g → g.stack.length = f.stack.length) ∧
      (∀ (n : Nat) (i : Instruction) (g : Frame), a.instructions.size ≤ n →
        b.instructions[n]? = some i → i.referent = .jump target g →
          g.stack.length = f.stack.length) ∧
      a.Spares f.stack.length b := by
  have hlabels : ∀ l ∈ [target], l.index < a.labels.size := by
    intro l hl
    rw [List.mem_singleton.1 hl]
    exact htarget
  obtain ⟨w, hprogress⟩ := hjump (standing a [target]) outcome _ List.mem_cons_self
    (admits _ rfl _) _ _ _ _ _ _ (met hf slots hlabels) h
  have hlanding : w.landing target.index = (world a).landing target.index :=
    hprogress.learns.landing _ htarget
  refine ⟨fun g hg => hprogress.met.current g hg, fun n i g hn hi hreferent => ?_,
    spares_of_course hprogress.course⟩
  have hlands := (hprogress.met.meets.carried n i target g (hprogress.learns.start ▸ hn) hi
    hreferent).2
  rw [hlanding] at hlands
  exact hlands

/-- What a statement does to the stack. -/
theorem of_stmt {site : Site} {s : Stmt} {loops : List Loop} (hf : a.current = some f)
    (hs : s.isBalanced (f.stack.isEmpty || site.method.returns.isNone) = true)
    (hloops : ∀ l ∈ Loop.labels loops, l.index < a.labels.size) {slots slots' : LocalSlots}
    (h : s.lower site loops slots a = .ok ((), slots') b) :
    (∀ g, b.current = some g → g.stack.length = f.stack.length) ∧ a.Spares f.stack.length b := by
  have hbare : (f.stack.isEmpty || site.method.returns.isNone) = true →
      (depthDiscipline f.stack.length).Grounded ∨ site.method.returns = none := by
    intro hbare
    rcases Bool.or_eq_true_iff.1 hbare with hempty | hnone
    · rw [List.isEmpty_iff.1 hempty]
      exact .inl grounded
    · exact .inr (Option.isNone_iff_eq_none.1 hnone)
  have hreaches : ∀ l ∈ Loop.labels loops,
      (standing a (Loop.labels loops)).Reaches (depthDiscipline f.stack.length) l :=
    fun l hl => ⟨_, List.mem_map.2 ⟨l, hl, rfl⟩, rfl, admits _ rfl⟩
  obtain ⟨w, -, -, hend⟩ := s.journey (standing a (Loop.labels loops)) hbare (.inr hs)
    (.inl (loose _)) hreaches (world a) ⟨slots, a⟩ (met hf slots hloops)
  obtain ⟨hmet, -, hcourse, -⟩ := hend () ⟨slots', b⟩ h
  exact ⟨fun g hg => hmet.current g hg, spares_of_course hcourse⟩

end Depth

/-- **The stack is balanced.**  Where code is made from a point that can be reached:

- the value of an expression is left on the stack, above what was there;
- its effect leaves what was there;
- so does a condition, where control goes on and in the frames of its branches to the
  target;
- and so does a statement, if its end can be reached.

No operation on the way takes one of the values that were there.  A return without a
value is balanced where the stack is empty or the method returns nothing. -/
theorem stack_balanced (site : Site) (slots slots' : LocalSlots) (a b : Assembler) (f : Frame)
    (hf : a.current = some f) :
    (∀ e : Expr, e.isBalanced = true →
      ((e.fragment site).value slots a = .ok ((), slots') b →
        (∃ g, b.current = some g ∧ g.stack.length = f.stack.length + if e.isVoid then 0 else 1) ∧
          a.Spares f.stack.length b) ∧
      ((e.fragment site).effect slots a = .ok ((), slots') b →
        (∃ g, b.current = some g ∧ g.stack.length = f.stack.length) ∧
          a.Spares f.stack.length b) ∧
      ∀ (outcome : Bool) (target : Label), e.isVoid = false → target.index < a.labels.size →
        (e.fragment site).jump outcome target slots a = .ok ((), slots') b →
          (∀ g, b.current = some g → g.stack.length = f.stack.length) ∧
          (∀ (n : Nat) (i : Instruction) (g : Frame), a.instructions.size ≤ n →
            b.instructions[n]? = some i → i.referent = .jump target g →
              g.stack.length = f.stack.length) ∧
          a.Spares f.stack.length b) ∧
    ∀ (s : Stmt) (loops : List Loop),
      s.isBalanced (f.stack.isEmpty || site.method.returns.isNone) = true →
      (∀ l ∈ loops, l.exit.index < a.labels.size ∧ l.next.index < a.labels.size) →
      s.lower site loops slots a = .ok ((), slots') b →
        (∀ g, b.current = some g → g.stack.length = f.stack.length) ∧
          a.Spares f.stack.length b := by
  refine ⟨fun e he => ?_, fun s loops hs hloops h => Depth.of_stmt hf hs (fun l hl => ?_) h⟩
  · have hbalanced := e.balanced (depthDiscipline f.stack.length) site (.inr he)
    have hsource := Expr.source_fragment site e
    refine ⟨fun h => ?_, fun h => Depth.of_balances hbalanced.effect hf h,
      fun outcome target hvoid htarget h => ?_⟩
    · have hvalue := hbalanced.value
      rw [hsource] at hvalue
      exact Depth.of_balances hvalue hf h
    · exact Depth.of_jumpBalances (hbalanced.jump (.inr (hsource.symm ▸ hvoid))) hf htarget h
  · obtain ⟨loop, hloop, hl⟩ := List.mem_flatMap.1 hl
    rcases List.mem_cons.1 hl with rfl | hl
    · exact (hloops loop hloop).1
    · rw [List.mem_singleton.1 hl]
      exact (hloops loop hloop).2

/-- Is the local more than zero and, with one more, less than five? -/
def fewer : Expr :=
  .logical .and (Sample.compare .gt (Sample.var 0 .int) (Sample.int 0))
    (Sample.compare .lt (.increment (Sample.var 0 .int) false true (some .int)) (Sample.int 5))
    (some .boolean)

/-- A method in which the local is a parameter. -/
def fewerSite : Site where
  settings := {}
  owner := Sample.counter Sample.counterName
  method :=
    { name := ⟨"fewer", by decide⟩
      flags := Sample.publicStatic
      parameters := [⟨⟨0⟩, .int⟩]
      returns := some .boolean
      body := [.returnValue (some fewer)] }

/-- Code with a label that is not placed, where a number lies on the stack. -/
def fewerStart : Assembler := { Assembler.start .empty ⟨[.integer], [.float]⟩ with labels := #[{}] }

/-- The number stays on the stack below the value of the condition, on the way to a label
that depends on it, and in a loop. -/
theorem fewer_balanced :
    fewer.isBalanced = true ∧ ∃ slots, fewerSite.slots = .ok slots ∧
      (∃ slots' b g, (fewer.fragment fewerSite).value slots fewerStart = .ok ((), slots') b ∧
        b.current = some g ∧ g.stack.length = 2 ∧ fewerStart.Spares 1 b) ∧
      (∃ slots' b g, ∃ (n : Nat) (i : Instruction),
        (fewer.fragment fewerSite).jump false ⟨0⟩ slots fewerStart = .ok ((), slots') b ∧
          b.instructions[n]? = some i ∧ i.referent = .jump ⟨0⟩ g ∧ g.stack.length = 1) ∧
      ∃ slots' b g, (Stmt.whileLoop none fewer (.breakLoop none)).lower fewerSite [] slots
          fewerStart = .ok ((), slots') b ∧ b.current = some g ∧ g.stack.length = 1 := by
  have hbalanced : fewer.isBalanced = true := by decide
  have hruns : fewerSite.slots.toOption.any (fun slots =>
      (outcome? ((fewer.fragment fewerSite).value slots fewerStart)).any (fun _ => true) &&
      (outcome? ((fewer.fragment fewerSite).jump false ⟨0⟩ slots fewerStart)).any (fun out =>
        out.2.instructions[1]?.any fun i => i.target? = some ⟨0⟩) &&
      (outcome? ((Stmt.whileLoop none fewer (.breakLoop none)).lower fewerSite [] slots
        fewerStart)).any (fun out => out.2.current.isSome)) = true := by decide +kernel
  obtain ⟨slots, hslots, hruns⟩ := exists_of_toOption hruns
  rw [Bool.and_eq_true, Bool.and_eq_true] at hruns
  obtain ⟨⟨hvalue, hjump⟩, hloop⟩ := hruns
  obtain ⟨⟨⟨⟩, slots₁⟩, b₁, hvalue, -⟩ := exists_of_outcome hvalue
  obtain ⟨⟨⟨⟩, slots₂⟩, b₂, hjump, htarget⟩ := exists_of_outcome hjump
  obtain ⟨⟨⟨⟩, slots₃⟩, b₃, hloop, hcurrent⟩ := exists_of_outcome hloop
  have hstart : fewerStart.current = some ⟨[.integer], [.float]⟩ := rfl
  refine ⟨hbalanced, slots, hslots, ?_, ?_, ?_⟩
  · obtain ⟨⟨g, hg, hdepth⟩, hspares⟩ :=
      ((stack_balanced fewerSite slots slots₁ fewerStart b₁ _ hstart).1 fewer hbalanced).1 hvalue
    exact ⟨slots₁, b₁, g, hvalue, hg, hdepth, hspares⟩
  · obtain ⟨i, hi, htarget⟩ := (Option.any_eq_true _ _).1 htarget
    obtain ⟨g, hreferent⟩ : ∃ g, i.referent = .jump ⟨0⟩ g := by
      unfold Instruction.target? at htarget
      split at htarget
      · rename_i target g hreferent
        obtain rfl : target = ⟨0⟩ := by simpa using htarget
        exact ⟨g, hreferent⟩
      · simp at htarget
    have hframes :=
      (((stack_balanced fewerSite slots slots₂ fewerStart b₂ _ hstart).1 fewer hbalanced).2.2 false
        ⟨0⟩ rfl (by decide) hjump).2.1
    exact ⟨slots₂, b₂, g, 1, i, hjump, hi, hreferent, hframes 1 i g (by decide) hi hreferent⟩
  · obtain ⟨g, hg⟩ := Option.isSome_iff_exists.1 hcurrent
    have hdepth := ((stack_balanced fewerSite slots slots₃ fewerStart b₃ _ hstart).2 _ []
      (by decide) (fun l hl => absurd hl List.not_mem_nil) hloop).1
    exact ⟨slots₃, b₃, g, hloop, hg, hdepth g hg⟩

/-! ### A return without a value -/

/-- No instruction has been kept since there were `n` of them and `k` values on the stack,
so that no label has been branched to either. -/
structure Assembler.Awaits (n k : Nat) (a : Assembler) : Prop where
  size : a.instructions.size = n
  depth : ∀ f, a.current = some f → f.stack.length = k
  unmet : ∀ (l : Nat) (state : LabelState), a.labels[l]? = some state →
    state.placed = none → state.frame = none

/-- The instruction with the number `n` has been kept, and ran on `k` values. -/
def Assembler.Kept (G : Nat → Frame → Prop) (n k : Nat) (a : Assembler) : Prop :=
  ∃ i types f, a.instructions[n]? = some i ∧ f.stack.length = k ∧ G (i.takes types) f

namespace Assembler.Awaits

variable {G : Nat → Frame → Prop} {n k : Nat} {a b : Assembler} {o : Operation}

/-- A label that is placed has no edges but the one from above. -/
theorem of_place {state : LabelState} {frame : Option Frame} {label : Label} (ha : a.Awaits n k)
    (hl : a.labels[label.index]? = some state) (hp : state.placed = none)
    (hj : Joins (a.current.map state.restrict) state.frame frame) :
    (a.settle label state frame).Awaits n k where
  size := ha.size
  depth g hg := by
    rw [ha.unmet _ _ hl hp] at hj
    change frame = some g at hg
    subst hg
    generalize habove : a.current.map state.restrict = above at hj
    cases hj with
    | left =>
      obtain ⟨f, hf, rfl⟩ := Option.map_eq_some_iff.1 habove
      rw [state.stack_restrict]
      exact ha.depth f hf
  unmet l other hother hplaced := by
    change (a.labels.setIfInBounds label.index _)[l]? = _ at hother
    rw [Array.getElem?_setIfInBounds] at hother
    split at hother
    · split at hother
      · cases hother
        cases hplaced
      · cases hother
    · exact ha.unmet l other hother hplaced

/-- One operation keeps an instruction or leaves the depth as it is. -/
theorem of_advances (ha : a.Awaits n k) (ho : Advances o a b)
    (hG : ∀ f, a.current = some f → G o.takes f) : b.Awaits n k ∨ b.Kept G n k := by
  have hkept : ∀ {i : Instruction}, (a.instructions.push i)[n]? = some i := by
    intro i
    rw [← ha.size]
    exact Array.getElem?_push_size
  cases ho with
  | label limit =>
    refine .inl ⟨ha.size, ha.depth, fun l state hl hp => ?_⟩
    rw [Array.getElem?_push] at hl
    split at hl
    · cases hl
      rfl
    · exact ha.unmet l state hl hp
  | constant => exact .inl ⟨ha.size, ha.depth, ha.unmet⟩
  | drop => exact .inl ha
  | push hc => exact .inr ⟨_, _, _, hkept, ha.depth _ hc, hG _ hc⟩
  | jumpBack hc => exact .inr ⟨_, .none, _, hkept, ha.depth _ hc, hG _ hc⟩
  | jumpAhead hc => exact .inr ⟨_, .none, _, hkept, ha.depth _ hc, hG _ hc⟩
  | place hl hp hj => exact .inl (ha.of_place hl hp hj)
  | killLocals =>
    refine .inl ⟨ha.size, fun g hg => ?_, ha.unmet⟩
    obtain ⟨f, hf, rfl⟩ := Option.map_eq_some_iff.1 hg
    exact ha.depth f hf
  | noteLocals => exact .inl ⟨ha.size, ha.depth, ha.unmet⟩
  | generalize hc hg =>
    refine .inl ⟨ha.size, fun g hg' => ?_, ha.unmet⟩
    cases hg'
    exact (Frame.length_of_generalizeTop hg).trans (ha.depth _ hc)

/-- **The first instruction that is kept runs at the depth where the code starts.** -/
theorem of_course (ha : a.Awaits n k) (h : a.Course G b) : b.Awaits n k ∨ b.Kept G n k := by
  induction h with
  | refl => exact .inl ha
  | constants _ _ ih => exact ih.imp_left fun h => ⟨h.size, h.depth, h.unmet⟩
  | step _ ho hG ih =>
    rcases ih with h | ⟨i, types, f, hi, hkept⟩
    · exact h.of_advances ho hG
    · exact .inr ⟨i, types, f, (Grows.of_advances ho).instructions n i hi, hkept⟩

end Assembler.Awaits

/-- A method that returns a number, but whose return has no value.  The number of the
statement before it has no static type, so that it is not popped. -/
def bareSite : Site where
  settings := {}
  owner := Sample.counter Sample.counterName
  method :=
    { name := ⟨"bare", by decide⟩
      flags := Sample.publicStatic
      parameters := []
      returns := some .int
      body := [.expr (.int 5 none), .returnValue none] }

/-- **A return without a value takes one from below**, in a method that returns something:
it is translated where one value lies on the stack, and its instruction takes that value. -/
theorem bareReturn_unbalanced :
    ∃ slots slots₁ slots₂ a b f, bareSite.slots = .ok slots ∧
      (Stmt.expr (.int 5 none)).lower bareSite [] slots (.start .empty ⟨[], []⟩) =
        .ok ((), slots₁) a ∧
      a.current = some f ∧ f.stack.length = 1 ∧
      (Stmt.returnValue none).isBalanced true = true ∧
      (Stmt.returnValue none).lower bareSite [] slots₁ a = .ok ((), slots₂) b ∧
      ¬ a.Spares f.stack.length b := by
  have hruns : bareSite.slots.toOption.any (fun slots =>
      (outcome? ((Stmt.expr (.int 5 none)).lower bareSite [] slots
        (.start .empty ⟨[], []⟩))).any fun first =>
          first.2.instructions.size = 1 && first.2.labels.size = 0 &&
          first.2.current.any (fun f => f.stack.length = 1) &&
          (outcome? ((Stmt.returnValue none).lower bareSite [] first.1.2 first.2)).any fun last =>
            last.2.instructions[1]?.any fun i => i.opcode = .ireturn) = true := by
    decide +kernel
  obtain ⟨slots, hslots, hruns⟩ := exists_of_toOption hruns
  obtain ⟨⟨⟨⟩, slots₁⟩, a, hfirst, hruns⟩ := exists_of_outcome hruns
  simp only [Bool.and_eq_true, decide_eq_true_eq] at hruns
  obtain ⟨⟨⟨hsize, hlabels⟩, hcurrent⟩, hruns⟩ := hruns
  obtain ⟨⟨⟨⟩, slots₂⟩, b, hlast, hreturn⟩ := exists_of_outcome hruns
  dsimp only at hreturn
  obtain ⟨f, hf, hdepth⟩ := (Option.any_eq_true _ _).1 hcurrent
  obtain ⟨i, hi, hopcode⟩ := (Option.any_eq_true _ _).1 hreturn
  rw [decide_eq_true_eq] at hdepth hopcode
  refine ⟨slots, slots₁, slots₂, a, b, f, hslots, hfirst, hf, hdepth, rfl, hlast, fun hspares => ?_⟩
  have hawaits : a.Awaits 1 f.stack.length := by
    refine ⟨hsize, fun g hg => ?_, fun l state hl => ?_⟩
    · rw [hf] at hg
      cases hg
      rfl
    · rw [Array.size_eq_zero_iff.1 hlabels] at hl
      cases hl
  rcases hawaits.of_course hspares with h | ⟨j, types, g, hj, hg, htakes⟩
  · have := (Array.getElem?_eq_some_iff.1 hi).1
    have := h.size
    omega
  · rw [hi] at hj
    cases hj
    rw [Instruction.takes, hopcode] at htakes
    have htakes : f.stack.length + 1 ≤ g.stack.length := htakes
    omega

end ClassForge
