/-
# Statements run as they mean

The code of a statement over integers and truth values does what the statement
means (`Stmt.goes`).  Where control is behind the code depends on how the statement
ends (`Completion.control`):

| completion | control behind the code |
| --- | --- |
| `normal` | here |
| `breaks`, `continues` | on the way to a label of the loop that is meant |
| `returns` | the method is left with the value |

A loop is one piece of code that is run once for each round (`goes_repeated`): the
branch at its end leads back to its head, from where the next round starts.
-/

import ClassForge.Proofs.ExpressionRun

namespace ClassForge

open Machine

/-! ### Where statements end -/

/-- On the way to a label of a loop.  Without such a loop there is no code. -/
def Control.toLoop (loops : List Loop) (label : Option String) (side : Loop → Label)
    (M : Memory → Prop) : Control :=
  match Lowering.findLoop loops label with
  | some l => .label (side l) M
  | none => .here fun _ => False

/-- Where control is behind a statement, at whose end the locals of `Γ'` are in
scope. -/
def Completion.control (loops : List Loop) (Γ Γ' : Context) (σ : Store) : Completion → Control
  | .normal => .here (Holds Γ' σ [])
  | .breaks label => .toLoop loops label Loop.exit (Holds Γ σ [])
  | .continues label => .toLoop loops label Loop.next (Holds Γ σ [])
  | .returns v => .left (v.map Value.bits)

variable {loops : List Loop} {Γ Γ' : Context} {σ σ' : Store} {S : List Int32}

/-- More locals may be in scope. -/
theorem Holds.of_append {m : Memory} (h : Holds (Γ ++ Γ') σ S m) : Holds Γ σ S m := by
  refine ⟨fun n id type hn => h.1 n id type ?_, h.2⟩
  rw [List.getElem?_append_left (List.getElem?_eq_some_iff.1 hn).1]
  exact hn

/-- What is known on the way to a loop may be weakened. -/
theorem Control.Implies.toLoop {M N : Memory → Prop} (label : Option String)
    (side : Loop → Label) (h : ∀ m, M m → N m) :
    Control.Implies (.toLoop loops label side M) (.toLoop loops label side N) := by
  unfold Control.toLoop
  split
  · exact .label h
  · exact .here fun _ => id

/-- Locals that go out of scope are forgotten. -/
theorem Completion.control_implies {Δ Δ' : Context} (o : Completion)
    (hΓ : ∀ m, Holds Γ σ [] m → Holds Δ σ [] m)
    (hΓ' : ∀ m, Holds Γ' σ [] m → Holds Δ' σ [] m) :
    Control.Implies (o.control loops Γ Γ' σ) (o.control loops Δ Δ' σ) := by
  cases o with
  | normal => exact .here hΓ'
  | breaks label => exact .toLoop label _ hΓ
  | continues label => exact .toLoop label _ hΓ
  | returns v => exact .left _

theorem Control.isAway_toLoop (label : Option String) (side : Loop → Label)
    (M : Memory → Prop) : (Control.toLoop loops label side M).IsAway := by
  unfold Control.toLoop
  split
  · trivial
  · exact fun _ => id

/-- Only at a normal end control is here. -/
theorem Completion.isAway_control {o : Completion} (h : o ≠ .normal) :
    (o.control loops Γ Γ' σ).IsAway := by
  cases o with
  | normal => exact absurd rfl h
  | breaks label => exact Control.isAway_toLoop label _ _
  | continues label => exact Control.isAway_toLoop label _ _
  | returns v => trivial

theorem Completion.control_of_ne_normal {o : Completion} (h : o ≠ .normal) (Δ : Context) :
    o.control loops Γ Γ' σ = o.control loops Γ Δ σ := by
  cases o with
  | normal => exact absurd rfl h
  | _ => rfl

/-- A jump means the innermost loop, unless that has another label. -/
theorem Control.toLoop_cons (l : Loop) (label : Option String) (side : Loop → Label)
    (M : Memory → Prop) :
    Control.toLoop (l :: loops) label side M =
      if label = none ∨ label = l.label then .label (side l) M
      else .toLoop loops label side M := by
  unfold Control.toLoop
  cases label with
  | none => simp [Lowering.findLoop]
  | some name =>
    by_cases h : l.label = some name
    · simp [Lowering.findLoop, h]
    · simp [Lowering.findLoop, h, Ne.symm h]

/-- There is another round after a body that ends normally or goes on with the loop. -/
theorem Completion.control_of_next (loops : List Loop) (Γ : Context) (σ : Store) {l : Loop}
    {o : Completion} (h : o.afterBody l.label = none) :
    o.control (l :: loops) Γ Γ σ = .here (Holds Γ σ []) ∨
      o.control (l :: loops) Γ Γ σ = .label l.next (Holds Γ σ []) := by
  cases o with
  | normal => exact .inl rfl
  | breaks label =>
    rw [Completion.afterBody] at h
    split at h <;> cases h
  | continues label =>
    rw [Completion.afterBody] at h
    split at h
    · rename_i hlabel
      refine .inr ?_
      rw [Completion.control, Control.toLoop_cons, if_pos hlabel]
    · cases h
  | returns v => cases h

/-- There is no other round after a body that leaves the loop, or something around
it. -/
theorem Completion.control_of_last (loops : List Loop) (Γ : Context) (σ : Store) {l : Loop}
    {o o' : Completion} (h : o.afterBody l.label = some o') :
    (o' = .normal ∧ o.control (l :: loops) Γ Γ σ = .label l.exit (Holds Γ σ [])) ∨
      (o' ≠ .normal ∧ o.control (l :: loops) Γ Γ σ = o'.control loops Γ Γ σ) := by
  cases o with
  | normal => cases h
  | breaks label =>
    rw [Completion.afterBody] at h
    split at h
    · rename_i hlabel
      cases h
      refine .inl ⟨rfl, ?_⟩
      rw [Completion.control, Control.toLoop_cons, if_pos hlabel]
    · rename_i hlabel
      cases h
      refine .inr ⟨Completion.noConfusion, ?_⟩
      rw [Completion.control, Control.toLoop_cons, if_neg hlabel]
      rfl
  | continues label =>
    rw [Completion.afterBody] at h
    split at h
    · cases h
    · rename_i hlabel
      cases h
      refine .inr ⟨Completion.noConfusion, ?_⟩
      rw [Completion.control, Control.toLoop_cons, if_neg hlabel]
      rfl
  | returns v =>
    cases h
    exact .inr ⟨Completion.noConfusion, rfl⟩

namespace Lowering

variable {W : Whole} {P Q : LocalSlots → Prop}

/-- **Rounds of a loop.**  The code of one round, which leads back to the head of the
loop unless it is the last one, does for all rounds. -/
theorem goes_repeated {round : Round} {head : Label} {x : Lowering Unit}
    {I : Store → Memory → Prop} {F : Store → Completion → Control} (htracks : Tracks P Q x)
    (hnext : ∀ σ σ', round σ = some (σ', none) →
      Goes W P Q x (.here (I σ)) (.label head (I σ')))
    (hlast : ∀ σ σ' o, round σ = some (σ', some o) → Goes W P Q x (.here (I σ)) (F σ' o))
    {n : Nat} {o : Completion} (h : round.repeated n σ = some (σ', o)) :
    Goes W P Q (do emit (Assembler.place head); x) (.here (I σ)) (F σ' o) where
  tracks := ((emits_place head).tracks P).bind fun _ => htracks
  goes c slots a v slots' b hP hrun hgrows ha := by
    obtain ⟨_, slots₁, a₁, hplace, hrun⟩ := bind_eq_ok hrun
    obtain ⟨-, hP₁⟩ := (emits_place head).tracks P slots a _ slots₁ a₁ hP hplace
    have hgrows₁ := (htracks slots₁ a₁ v slots' b hP₁ hrun).1.grows.trans hgrows
    -- the label stands where the code of the rounds starts
    have hhead : W.assembler.position head = some a₁.instructions.size := by
      cases Operation.run_place_iff.1 (emit_eq_ok hplace).1 with
      | drop ho => cases ho
      | place hl hp hj => exact Assembler.position_grows (Assembler.position_settle hl _) hgrows₁
    have hstart := (goes_place head).goes c slots a _ slots₁ a₁ hP hplace hgrows₁ ha
    clear ha hplace
    induction n generalizing σ with
    | zero => cases h
    | succ n ih =>
      unfold Round.repeated at h
      split at h
      · cases h
      · rename_i σ₁ hround
        have hback := (hnext σ σ₁ hround).goes c slots₁ a₁ v slots' b hP₁ hrun hgrows hstart
        exact ih h (hback.arrive hhead hstart.1)
      · rename_i σ₁ o' hround
        cases h
        exact (hlast σ σ' o hround).goes c slots₁ a₁ v slots' b hP₁ hrun hgrows hstart

section Rounds

variable {l : Loop} {head : Label} {x y test : Lowering Unit}
  {condition : Store → Option (Bool × Store)} {update : Store → Option Store}
  {body : Store → Option (Store × Completion)}
  (hbody : ∀ σ σ' o, body σ = some (σ', o) →
    Goes W P P x (.here (Holds Γ σ [])) (o.control (l :: loops) Γ Γ σ'))
  (hy : Tracks P P y)
  (hexit : ∀ σ, Goes W P P y (.label l.exit (Holds Γ σ [])) (.here (Holds Γ σ [])))

include hbody hy hexit

/-- The last round of a loop, which its body ends. -/
theorem goes_bodyLast {o o' : Completion} (hrun : body σ = some (σ', o))
    (ho : o.afterBody l.label = some o') :
    Goes W P P (do x; y) (.here (Holds Γ σ [])) (o'.control loops Γ Γ σ') := by
  refine (hbody σ σ' o hrun).bind fun _ => ?_
  rcases Completion.control_of_last loops Γ σ' ho with
    ⟨rfl, hcontrol⟩ | ⟨hnormal, hcontrol⟩
  · rw [hcontrol]
    exact hexit σ'
  · rw [hcontrol]
    exact .away hy (Completion.isAway_control hnormal)

omit hy hexit in
/-- A round of a loop that is not ended by its body. -/
theorem goes_bodyNext {o : Completion} (hrun : body σ = some (σ', o))
    (ho : o.afterBody l.label = none) {e : Control}
    (hhere : Goes W P P y (.here (Holds Γ σ' [])) e)
    (hnext : Goes W P P y (.label l.next (Holds Γ σ' [])) e) :
    Goes W P P (do x; y) (.here (Holds Γ σ [])) e := by
  refine (hbody σ σ' o hrun).bind fun _ => ?_
  rcases Completion.control_of_next loops Γ σ' ho with hcontrol | hcontrol
  · rw [hcontrol]
    exact hhere
  · rw [hcontrol]
    exact hnext

/-- **A loop that tests its condition at the top.** The induction is on the rounds: each
goes from the head to the head, and the last to the exit, or to where the body leaves the
loop for. -/
theorem goes_testedFirst {n : Nat} {o : Completion} (hx : Tracks P P x) (htracks : Tracks P P test)
    (htest : ∀ σ b σ', condition σ = some (b, σ') →
      Goes W P P test (.here (Holds Γ σ [])) (.jumping (b == false) l.exit (Holds Γ σ' [])))
    (hhere : ∀ σ σ', update σ = some σ' →
      Goes W P P y (.here (Holds Γ σ [])) (.label head (Holds Γ σ' [])))
    (hnext : ∀ σ σ', update σ = some σ' →
      Goes W P P y (.label l.next (Holds Γ σ [])) (.label head (Holds Γ σ' [])))
    (h : (Round.testedFirst l.label condition update body).repeated n σ = some (σ', o)) :
    Goes W P P (do emit (Assembler.place head); test; x; y) (.here (Holds Γ σ []))
      (o.control loops Γ Γ σ') := by
  refine goes_repeated (I := fun σ => Holds Γ σ []) (F := fun σ o => o.control loops Γ Γ σ)
    (htracks.bind fun _ => hx.bind fun _ => hy) (fun σ σ' hround => ?_) (fun σ σ' o hround => ?_) h
  · obtain ⟨⟨b, σ₁⟩, hcondition, hround⟩ := Option.bind_eq_some_iff.1 hround
    refine (htest σ b σ₁ hcondition).bind fun _ => ?_
    cases b with
    | false => cases hround
    | true =>
      obtain ⟨⟨σ₂, o⟩, hrun, hround⟩ := Option.bind_eq_some_iff.1 hround
      cases ho : o.afterBody l.label with
      | some o' =>
        simp only [ho] at hround
        cases hround
      | none =>
        simp only [ho] at hround
        obtain ⟨σ₃, hupdate, hround⟩ := Option.bind_eq_some_iff.1 hround
        cases hround
        exact goes_bodyNext hbody hrun ho (hhere _ _ hupdate) (hnext _ _ hupdate)
  · obtain ⟨⟨b, σ₁⟩, hcondition, hround⟩ := Option.bind_eq_some_iff.1 hround
    refine (htest σ b σ₁ hcondition).bind fun _ => ?_
    cases b with
    | false =>
      cases hround
      exact hx.goes_past.bind fun _ => hexit σ'
    | true =>
      obtain ⟨⟨σ₂, o'⟩, hrun, hround⟩ := Option.bind_eq_some_iff.1 hround
      cases ho : o'.afterBody l.label with
      | some o' =>
        simp only [ho] at hround
        cases hround
        exact goes_bodyLast hbody hy hexit hrun ho
      | none =>
        simp only [ho] at hround
        obtain ⟨σ₃, hupdate, hround⟩ := Option.bind_eq_some_iff.1 hround
        cases hround

/-- **A loop that tests its condition at the end.** The induction is on the rounds: the
body runs before the condition is asked for the first time, and `continue` goes to the
condition. -/
theorem goes_testedLast {n : Nat} {o : Completion} (hx : Tracks P P x)
    (hhere : ∀ σ b σ', condition σ = some (b, σ') →
      Goes W P P y (.here (Holds Γ σ [])) (.jumping b head (Holds Γ σ' [])))
    (hnext : ∀ σ b σ', condition σ = some (b, σ') →
      Goes W P P y (.label l.next (Holds Γ σ [])) (.jumping b head (Holds Γ σ' [])))
    (h : (Round.testedLast l.label condition body).repeated n σ = some (σ', o)) :
    Goes W P P (do emit (Assembler.place head); x; y) (.here (Holds Γ σ []))
      (o.control loops Γ Γ σ') := by
  refine goes_repeated (I := fun σ => Holds Γ σ []) (F := fun σ o => o.control loops Γ Γ σ)
    (hx.bind fun _ => hy) (fun σ σ' hround => ?_) (fun σ σ' o hround => ?_) h
  · obtain ⟨⟨σ₁, o⟩, hrun, hround⟩ := Option.bind_eq_some_iff.1 hround
    cases ho : o.afterBody l.label with
    | some o' =>
      simp only [ho] at hround
      cases hround
    | none =>
      simp only [ho] at hround
      obtain ⟨⟨b, σ₂⟩, hcondition, hround⟩ := Option.bind_eq_some_iff.1 hround
      cases b with
      | false => cases hround
      | true =>
        cases hround
        exact goes_bodyNext hbody hrun ho (hhere _ _ _ hcondition) (hnext _ _ _ hcondition)
  · obtain ⟨⟨σ₁, o'⟩, hrun, hround⟩ := Option.bind_eq_some_iff.1 hround
    cases ho : o'.afterBody l.label with
    | some o' =>
      simp only [ho] at hround
      cases hround
      exact goes_bodyLast hbody hy hexit hrun ho
    | none =>
      simp only [ho] at hround
      obtain ⟨⟨b, σ₂⟩, hcondition, hround⟩ := Option.bind_eq_some_iff.1 hround
      cases b with
      | true => cases hround
      | false =>
        cases hround
        exact goes_bodyNext hbody hrun ho (hhere _ _ _ hcondition) (hnext _ _ _ hcondition)

end Rounds

/-! ### Each kind of statement -/

section Statements

variable {first : Nat} {outer : List Scope} {fuel : Nat}

theorem goes_expression {x : Lowering Unit} {e e' : Control} (hx : Emits x)
    (h : Goes W (InSlots 0 Γ) (InSlots 0 Γ) x e e') :
    Goes W (·.Models 0 Γ first outer) (·.Models 0 Γ first outer) x e e' :=
  .of_emits hx (fun _ => InSlots.of_models) h

/-- A condition inside of statements. -/
theorem goes_condition (site : Site) (hΓ : ∀ entry ∈ Γ, entry.2.isIntegral = true) {e : Expr}
    (he : e.isIntegral Γ = true) {b : Bool} (hb : e.holds σ = some (b, σ')) (outcome : Bool)
    (target : Label) :
    Goes W (·.Models 0 Γ first outer) (·.Models 0 Γ first outer)
      ((e.fragment site).jump outcome target) (.here (Holds Γ σ []))
      (.jumping (b == outcome) target (Holds Γ σ' [])) := by
  obtain ⟨⟨v, σ₁⟩, hv, hb⟩ := Option.bind_eq_some_iff.1 hb
  obtain ⟨c, hc, hb⟩ := Option.bind_eq_some_iff.1 hb
  cases hb
  cases v with
  | int n => cases hc
  | bool b =>
    cases hc
    exact goes_expression ((e.emits site).jump outcome target)
      ((Expr.runs hΓ e he).jump [] outcome target hv)

/-- Expressions whose values are not used. -/
theorem goes_updates (site : Site) (hΓ : ∀ entry ∈ Γ, entry.2.isIntegral = true)
    {es : List Expr} (hes : ∀ e ∈ es, e.isIntegral Γ = true)
    (h : Expr.evalAll σ es = some σ') :
    Goes W (·.Models 0 Γ first outer) (·.Models 0 Γ first outer)
      (es.forM fun e => (e.fragment site).effect) (.here (Holds Γ σ []))
      (.here (Holds Γ σ' [])) := by
  induction es generalizing σ with
  | nil =>
    cases h
    exact goes_pure ()
  | cons e es ih =>
    obtain ⟨⟨v, σ₁⟩, he, h⟩ := Option.bind_eq_some_iff.1 h
    have hruns : (e.fragment site).Runs W Γ e := Expr.runs hΓ e (hes e List.mem_cons_self)
    change Goes W _ _ ((e.fragment site).effect >>= fun _ => es.forM _) _ _
    exact (goes_expression (e.emits site).effect (hruns.effect [] he)).bind fun _ =>
      ih (fun e' he' => hes e' (List.mem_cons_of_mem e he')) h

/-- Statements in a block of their own. -/
theorem goes_block (Γ' : Context) {x : Lowering Unit} {o : Completion}
    (h : ∀ outer, Goes W (·.Models 0 Γ Γ.length outer) (·.Models 0 (Γ ++ Γ') Γ.length outer) x
      (.here (Holds Γ σ [])) (o.control loops Γ (Γ ++ Γ') σ')) :
    Goes W (·.Models 0 Γ first outer) (·.Models 0 Γ first outer) (inBlock x)
      (.here (Holds Γ σ [])) (o.control loops Γ Γ σ') :=
  (goes_inBlock Γ' h).implies (o.control_implies (fun _ => id) fun _ => Holds.of_append)

theorem goes_jumpTo (label : Option String) (side : Loop → Label) :
    Goes W P P (jumpTo loops label side) (.here (Holds Γ σ S))
      (.toLoop loops label side (Holds Γ σ S)) := by
  unfold jumpTo Control.toLoop
  cases findLoop loops label with
  | some l => exact goes_goto (side l)
  | none => exact .never fun slots a v slots' b _ hrun => nomatch hrun

/-- One of two branches is run. -/
theorem goes_branched {condition : Jump} {thenBranch : Lowering Unit}
    {elseBranch : Option (Lowering Unit)} {b : Bool} {σ'' : Store} {o : Completion}
    (hcondition : ∀ target, Goes W P P (condition false target) (.here (Holds Γ σ []))
      (.jumping (b == false) target (Holds Γ σ' [])))
    (hthen : Tracks P P (inBlock thenBranch))
    (helse : ∀ x, elseBranch = some x → Tracks P P (inBlock x))
    (htrue : b = true →
      Goes W P P (inBlock thenBranch) (.here (Holds Γ σ' [])) (o.control loops Γ Γ σ''))
    (hfalse : b = false → ∀ x, elseBranch = some x →
      Goes W P P (inBlock x) (.here (Holds Γ σ' [])) (o.control loops Γ Γ σ''))
    (hnone : b = false → elseBranch = none → o = .normal ∧ σ'' = σ') :
    Goes W P P (branched condition thenBranch elseBranch) (.here (Holds Γ σ []))
      (o.control loops Γ Γ σ'') := by
  refine (goes_newLabel none).bind fun elseLabel => (hcondition elseLabel).bind fun _ => ?_
  cases b with
  | true =>
    refine (htrue rfl).bind fun _ => ?_
    cases elseBranch with
    | none => exact goes_place elseLabel
    | some other =>
      refine (goes_newLabel none).bind fun endLabel => ?_
      by_cases ho : o = .normal
      · subst ho
        exact (goes_goto endLabel).bind fun _ => (goes_place elseLabel).bind fun _ =>
          (helse other rfl).goes_past.bind fun _ => goes_arrive endLabel _
      · have haway : (o.control loops Γ Γ σ'').IsAway := Completion.isAway_control ho
        exact (Goes.away ((emits_branch rfl endLabel).tracks P) haway).bind fun _ =>
          (goes_place elseLabel).bind fun _ => (Goes.away (helse other rfl) haway).bind fun _ =>
            goes_place endLabel
  | false =>
    refine hthen.goes_past.bind fun _ => ?_
    cases elseBranch with
    | none =>
      obtain ⟨rfl, rfl⟩ := hnone rfl rfl
      exact goes_arrive elseLabel _
    | some other =>
      exact (goes_newLabel none).bind fun endLabel =>
        (emits_branch rfl endLabel).goes_past.bind fun _ => (goes_arrive elseLabel _).bind fun _ =>
          (hfalse rfl other rfl).bind fun _ => goes_place endLabel

section Loops

variable {label : Option String} {body : Label → Label → Lowering Unit}
  {meaning : Store → Option (Store × Completion)} {condition : Store → Option (Bool × Store)}
  (hx : ∀ exit next, Tracks P P (inBlock (body exit next)))
  (hbody : ∀ exit next σ σ' o, meaning σ = some (σ', o) →
    Goes W P P (inBlock (body exit next)) (.here (Holds Γ σ []))
      (o.control (⟨label, exit, next⟩ :: loops) Γ Γ σ'))

include hx hbody

/-- **A loop with its test first does what its rounds do**, as many of them as it takes to
end. The induction is on the number of rounds that the meaning needed. -/
theorem goes_whileLoop {jump : Jump} (hjump : ∀ outcome target, Emits (jump outcome target))
    (hcondition : ∀ σ b σ' target, condition σ = some (b, σ') →
      Goes W P P (jump false target) (.here (Holds Γ σ []))
        (.jumping (b == false) target (Holds Γ σ' []))) {o : Completion}
    (h : (Round.testedFirst label condition some meaning).repeated fuel σ = some (σ', o)) :
    Goes W P P (whileLoop jump body) (.here (Holds Γ σ [])) (o.control loops Γ Γ σ') := by
  refine goes_nextSlot.bind fun limit => (goes_newLabel (some limit)).bind fun head =>
    (goes_newLabel (some limit)).bind fun exit => ?_
  have hrest : Emits (do
      emit (Assembler.branch .goto head)
      emit (Assembler.place exit)) := (emits_branch rfl head).bind fun _ => emits_place exit
  refine goes_testedFirst (l := ⟨label, exit, head⟩) (hbody exit head) (hrest.tracks P)
    (fun σ => ?_) (hx exit head) ((hjump false exit).tracks P)
    (fun σ b σ' hb => hcondition σ b σ' exit hb) (fun σ σ' hσ => ?_) (fun σ σ' hσ => ?_) h
  · exact (emits_branch rfl head).goes_past.bind fun _ => goes_arrive exit _
  · cases hσ
    exact (goes_goto head).bind fun _ => goes_place exit
  · cases hσ
    exact hrest.goes_past

/-- **A loop with its test last does what its rounds do.** The first round is entered
without a test. -/
theorem goes_doWhileLoop {jump : Jump} (hjump : ∀ outcome target, Emits (jump outcome target))
    (hcondition : ∀ σ b σ' target, condition σ = some (b, σ') →
      Goes W P P (jump true target) (.here (Holds Γ σ []))
        (.jumping b target (Holds Γ σ' []))) {o : Completion}
    (h : (Round.testedLast label condition meaning).repeated fuel σ = some (σ', o)) :
    Goes W P P (doWhileLoop jump body) (.here (Holds Γ σ [])) (o.control loops Γ Γ σ') := by
  refine goes_nextSlot.bind fun limit => (goes_newLabel (some limit)).bind fun head =>
    (goes_newLabel (some limit)).bind fun next => (goes_newLabel (some limit)).bind fun exit => ?_
  have hrest : Emits (do
      emit (Assembler.place next)
      jump true head
      emit (Assembler.place exit)) :=
    (emits_place next).bind fun _ => (hjump true head).bind fun _ => emits_place exit
  refine goes_testedLast (l := ⟨label, exit, next⟩) (hbody exit next) (hrest.tracks P)
    (fun σ => ?_) (hx exit next) (fun σ b σ' hb => ?_) (fun σ b σ' hb => ?_) h
  · exact (emits_place next).goes_past.bind fun _ => (hjump true head).goes_past.bind fun _ =>
      goes_arrive exit _
  · exact (goes_place next).bind fun _ => (hcondition σ b σ' head hb).bind fun _ =>
      goes_place exit
  · exact (goes_arrive next _).bind fun _ => (hcondition σ b σ' head hb).bind fun _ =>
      goes_place exit

/-- **The rounds of a counting loop do what they mean**, with the update behind each of
them; without a condition they go on until they are left. -/
theorem goes_rounds {jump : Option Jump}
    (hjump : ∀ j, jump = some j → ∀ outcome target, Emits (j outcome target))
    (hcondition : ∀ j, jump = some j → ∀ σ b σ' target, condition σ = some (b, σ') →
      Goes W P P (j false target) (.here (Holds Γ σ []))
        (.jumping (b == false) target (Holds Γ σ' [])))
    (hnone : jump = none → ∀ σ, condition σ = some (true, σ)) {update : Lowering Unit}
    {change : Store → Option Store} (hupdate : Emits update)
    (hchange : ∀ σ σ', change σ = some σ' →
      Goes W P P update (.here (Holds Γ σ [])) (.here (Holds Γ σ' []))) {o : Completion}
    (h : (Round.testedFirst label condition change meaning).repeated fuel σ = some (σ', o)) :
    Goes W P P (rounds jump update body) (.here (Holds Γ σ [])) (o.control loops Γ Γ σ') := by
  refine goes_nextSlot.bind fun limit => (goes_newLabel (some limit)).bind fun head =>
    (goes_newLabel (some limit)).bind fun next => (goes_newLabel (some limit)).bind fun exit => ?_
  have hrest : Emits (do
      emit (Assembler.place next)
      update
      emit (Assembler.branch .goto head)
      emit (Assembler.place exit)) :=
    (emits_place next).bind fun _ => hupdate.bind fun _ => (emits_branch rfl head).bind fun _ =>
      emits_place exit
  have hback : ∀ σ σ', change σ = some σ' →
      Goes W P P
        (do
          update
          emit (Assembler.branch .goto head)
          emit (Assembler.place exit))
        (.here (Holds Γ σ [])) (.label head (Holds Γ σ' [])) := fun σ σ' hσ =>
    (hchange σ σ' hσ).bind fun _ => (goes_goto head).bind fun _ => goes_place exit
  have hloop : ∀ test : Lowering Unit, Tracks P P test →
      (∀ σ b σ', condition σ = some (b, σ') →
        Goes W P P test (.here (Holds Γ σ [])) (.jumping (b == false) exit (Holds Γ σ' []))) →
      Goes W P P
        (do
          emit (Assembler.place head)
          test
          inBlock (body exit next)
          emit (Assembler.place next)
          update
          emit (Assembler.branch .goto head)
          emit (Assembler.place exit))
        (.here (Holds Γ σ [])) (o.control loops Γ Γ σ') := by
    intro test htracks htest
    refine goes_testedFirst (l := ⟨label, exit, next⟩) (hbody exit next) (hrest.tracks P)
      (fun σ => ?_) (hx exit next) htracks htest (fun σ σ' hσ => ?_) (fun σ σ' hσ => ?_) h
    · exact (emits_place next).goes_past.bind fun _ => hupdate.goes_past.bind fun _ =>
        (emits_branch rfl head).goes_past.bind fun _ => goes_arrive exit _
    · exact (goes_place next).bind fun _ => hback σ σ' hσ
    · exact (goes_arrive next _).bind fun _ => hback σ σ' hσ
  cases jump with
  | some j =>
    exact hloop (j false exit) ((hjump j rfl false exit).tracks P) fun σ b σ' hb =>
      hcondition j rfl σ b σ' exit hb
  | none =>
    refine hloop (pure ()) ((emits_pure ()).tracks P) fun σ b σ' hb => ?_
    rw [hnone rfl] at hb
    cases hb
    exact goes_pure ()

end Loops

/-- A new local is set in the next slot. -/
theorem agrees_declare {locals : Nat → Option Int32} (h : Agrees Γ σ locals) {id : LocalId}
    (hid : Γ.declares id = false) (type : FieldType) (v : Value) :
    Agrees (Γ ++ [(id, type)]) (σ.set id v)
      fun slot => if slot = Γ.length then some v.bits else locals slot := by
  intro n id' type' hn
  rw [List.getElem?_append] at hn
  split at hn
  · rename_i hlt
    obtain ⟨w, hw, hlocals⟩ := h n id' type' hn
    have hne : id' ≠ id := by
      rintro rfl
      rw [Context.declares_of_getElem? hn] at hid
      cases hid
    exact ⟨w, (if_neg hne).trans hw, (if_neg (Nat.ne_of_lt hlt)).trans hlocals⟩
  · rename_i hge
    obtain ⟨hlt, heq⟩ := List.getElem?_eq_some_iff.1 hn
    rw [List.length_singleton] at hlt
    have hlast : n = Γ.length := by omega
    subst hlast
    simp only [Nat.sub_self, List.getElem_cons_zero, Prod.mk.injEq] at heq
    exact ⟨v, if_pos heq.1.symm, if_pos rfl⟩

/-- A new local gets the next slot, with its initial value. -/
theorem goes_declared (site : Site) {id : LocalId} {type t : FieldType} {initial : Expr}
    (hid : Γ.declares id = false) (htype : type.isIntegral = true)
    (ht : initial.type = some t) {v : Value}
    (hinitial : Goes W (InSlots 0 Γ) (InSlots 0 Γ) (initial.fragment site).value
      (.here (Holds Γ σ [])) (.here (Holds Γ σ' [v.bits]))) :
    Goes W (·.Models 0 Γ first outer) (·.Models 0 (Γ ++ [(id, type)]) first outer)
      (Lowering.declared site id type (some initial)) (.here (Holds Γ σ []))
      (.here (Holds (Γ ++ [(id, type)]) (σ'.set id v) [])) := by
  have hdeclare : Goes W (·.Models 0 Γ first outer) (·.Models 0 (Γ ++ [(id, type)]) first outer)
      (declare id type) (.here (Holds Γ σ [])) (.here (Holds Γ σ [])) := by
    refine ⟨tracks_declare hid type, fun c slots a slot slots' b hs h _ ha => ?_⟩
    obtain ⟨rfl, -⟩ := declare_eq_ok hs hid h
    exact ha
  refine hdeclare.bind_value (v := UInt16.ofNat Γ.length) (fun slots a slot slots' b hs h => ?_) ?_
  · obtain ⟨-, hslot, -⟩ := declare_eq_ok hs hid h
    rw [Nat.zero_add] at hslot
    exact hslot
  · dsimp only
    rw [converted_eq (Expr.type_source site ht) htype]
    refine (Goes.of_emits (initial.emits site).value
      (fun _ hs => (InSlots.of_models hs).of_append) hinitial).bind fun _ => ?_
    unfold Assembler.storeLocal
    rw [(FieldType.kind_of_isIntegral htype).1]
    refine goes_push (Instruction.plain_store _ _) fun slots m hs hm => ⟨_, exec_store hm.2, ?_⟩
    have hslot : (UInt16.ofNat Γ.length).toNat = Γ.length := by
      have hbounded := hs.bounded
      rw [List.length_append, List.length_singleton] at hbounded
      rw [UInt16.toNat_ofNat', Nat.mod_eq_of_lt (by omega)]
    rw [hslot]
    exact ⟨agrees_declare hm.1 hid type v, rfl⟩

theorem goes_exitVoid :
    Goes W P P (emit (Assembler.exit none)) (.here (Holds Γ σ [])) (.left none) := by
  unfold Assembler.exit Assembler.simple
  exact goes_exit (Instruction.plain_simple rfl) fun _ _ => rfl

/-- The method is left with a value. -/
theorem goes_returned {site : Site} {e : Expr} {t type : FieldType} (ht : e.type = some t)
    (hreturns : site.method.returns = some type) (htype : type.isIntegral = true) {v : Value}
    (hvalue : Goes W (InSlots 0 Γ) (InSlots 0 Γ) (e.fragment site).value (.here (Holds Γ σ []))
      (.here (Holds Γ σ' [v.bits]))) :
    Goes W (InSlots 0 Γ) (InSlots 0 Γ) (returned site (some e)) (.here (Holds Γ σ []))
      (.left (some v.bits)) := by
  have hopcode : Assembler.returnOpcode (some type) = .ireturn := by
    simp only [Assembler.returnOpcode, (FieldType.kind_of_isIntegral htype).1]
  simp only [returned, hreturns, converted_eq (Expr.type_source site ht) htype, Assembler.exit,
    hopcode]
  refine hvalue.bind fun _ => goes_exit (Instruction.plain_simple rfl) fun m hm => ?_
  change exec W.constants .ireturn false [] m = _
  simp only [exec, hm.2]

end Statements

end Lowering

/-! ### Statements -/

/-- The locals that a statement declares are integers and truth values. -/
theorem Stmt.integral_declared {hasResult : Bool} (s : Stmt)
    (hΓ : ∀ entry ∈ Γ, entry.2.isIntegral = true)
    (hintegral : s.isIntegral hasResult Γ = true) :
    ∀ entry ∈ Γ ++ s.declared, entry.2.isIntegral = true := by
  intro entry hentry
  rcases List.mem_append.1 hentry with h | h
  · exact hΓ entry h
  · cases s with
    | declare id type initial =>
      rw [Stmt.declared, List.mem_singleton] at h
      cases initial with
      | none => simp [Stmt.isIntegral] at hintegral
      | some e =>
        rw [Stmt.isIntegral, Bool.and_eq_true] at hintegral
        rw [h]
        exact hintegral.1
    | _ => cases h

/-- Statements over integers declare integers and truth values only. -/
theorem Stmt.integral_declaredAll {hasResult : Bool} (ss : List Stmt)
    (hΓ : ∀ entry ∈ Γ, entry.2.isIntegral = true)
    (hintegral : Stmt.areIntegral hasResult Γ ss = true) :
    ∀ entry ∈ Γ ++ ss.flatMap Stmt.declared, entry.2.isIntegral = true := by
  induction ss generalizing Γ with
  | nil => simpa using hΓ
  | cons s ss ih =>
    rw [Stmt.areIntegral, Bool.and_eq_true] at hintegral
    rw [List.flatMap_cons, ← List.append_assoc]
    exact ih (s.integral_declared hΓ hintegral.1) hintegral.2

section Meaning

open Lowering

variable {W : Whole} {site : Site}

mutual

/-- **The code of a statement over integers and truth values does what the statement
means.** -/
theorem Stmt.goes {fuel : Nat} {loops : List Loop} {Γ : Context} {first : Nat}
    {outer : List Scope} {σ σ' : Store} {o : Completion}
    (hreturns : ∀ t, site.method.returns = some t → t.isIntegral = true) (s : Stmt)
    (hΓ : ∀ entry ∈ Γ, entry.2.isIntegral = true) (hscoped : s.isScoped Γ = true)
    (hintegral : s.isIntegral site.method.returns.isSome Γ = true)
    (hrun : s.run fuel σ = some (σ', o)) :
    Goes W (·.Models 0 Γ first outer) (·.Models 0 (Γ ++ s.declared) first outer)
      (s.lower site loops) (.here (Holds Γ σ [])) (o.control loops Γ (Γ ++ s.declared) σ') := by
  match s with
  | .expr e =>
    rw [Stmt.isIntegral] at hintegral
    obtain ⟨⟨v, σ₁⟩, he, hrun⟩ := Option.bind_eq_some_iff.1 hrun
    cases hrun
    simp only [Stmt.lower, Stmt.declared, List.append_nil]
    exact goes_expression (e.emits site).effect ((Expr.runs hΓ e hintegral).effect [] he)
  | .declare id type none => cases hrun
  | .declare id type (some initial) =>
    rw [Stmt.isScoped, Bool.not_eq_true'] at hscoped
    rw [Stmt.isIntegral, Bool.and_eq_true] at hintegral
    obtain ⟨⟨v, σ₁⟩, he, hrun⟩ := Option.bind_eq_some_iff.1 hrun
    cases hrun
    obtain ⟨t, ht, -⟩ := initial.type_of_isIntegral hintegral.2
    rw [Stmt.lower]
    exact goes_declared site hscoped hintegral.1 ht
      ((Expr.runs hΓ initial hintegral.2).value [] he)
  | .block body =>
    rw [Stmt.isScoped] at hscoped
    rw [Stmt.isIntegral] at hintegral
    rw [Stmt.run] at hrun
    simp only [Stmt.lower, Stmt.declared, List.append_nil]
    exact goes_block _ fun outer => Stmt.goesAll hreturns body hΓ hscoped hintegral hrun
  | .branch condition thenBranch elseBranch =>
    rw [Stmt.isScoped, Bool.and_eq_true] at hscoped
    rw [Stmt.isIntegral, Bool.and_eq_true, Bool.and_eq_true] at hintegral
    obtain ⟨⟨b, σ₁⟩, hb, hrun⟩ := Option.bind_eq_some_iff.1 hrun
    simp only [Stmt.lower, Stmt.declared, List.append_nil]
    refine goes_branched (goes_condition site hΓ hintegral.1.1 hb false)
      (tracks_inBlock _ fun outer => thenBranch.tracks site loops hscoped.1)
      (fun x hx => ?_) (fun htrue => ?_) (fun hfalse x hx => ?_) fun hfalse hnone => ?_
    · obtain ⟨Γ', hother⟩ := Stmt.tracks_lower? site loops elseBranch hscoped.2 x hx
      exact tracks_inBlock Γ' hother
    · subst htrue
      exact goes_block _ fun outer => thenBranch.goes hreturns hΓ hscoped.1 hintegral.1.2 hrun
    · subst hfalse
      obtain ⟨Γ', hother⟩ := Stmt.goes? hreturns elseBranch hΓ hscoped.2 hintegral.2 hrun x hx
      exact goes_block Γ' hother
    · subst hfalse
      cases elseBranch with
      | none =>
        cases hrun
        exact ⟨rfl, rfl⟩
      | some s =>
        rw [Stmt.lower?] at hnone
        cases hnone
  | .whileLoop label condition body =>
    rw [Stmt.isScoped] at hscoped
    rw [Stmt.isIntegral, Bool.and_eq_true] at hintegral
    rw [Stmt.run] at hrun
    simp only [Stmt.lower, Stmt.declared, List.append_nil]
    exact goes_whileLoop
      (fun exit next => tracks_inBlock _ fun outer => body.tracks site _ hscoped)
      (fun exit next σ σ' o hbody => goes_block _ fun outer =>
        body.goes hreturns hΓ hscoped hintegral.2 hbody)
      (condition.emits site).jump
      (fun σ b σ' target hb => goes_condition site hΓ hintegral.1 hb false target) hrun
  | .doWhileLoop label body condition =>
    rw [Stmt.isScoped] at hscoped
    rw [Stmt.isIntegral, Bool.and_eq_true] at hintegral
    rw [Stmt.run] at hrun
    simp only [Stmt.lower, Stmt.declared, List.append_nil]
    refine goes_doWhileLoop
      (fun exit next => tracks_inBlock _ fun outer => body.tracks site _ hscoped)
      (fun exit next σ σ' o hbody => goes_block _ fun outer =>
        body.goes hreturns hΓ hscoped hintegral.2 hbody)
      (condition.emits site).jump (fun σ b σ' target hb => ?_) hrun
    rw [← beq_true b]
    exact goes_condition site hΓ hintegral.1 hb true target
  | .forLoop label init condition update body =>
    rw [Stmt.isScoped, Bool.and_eq_true] at hscoped
    simp only [Stmt.isIntegral, Bool.and_eq_true, List.all_eq_true] at hintegral
    obtain ⟨⟨⟨hinit, hcondition⟩, hupdate⟩, hbody⟩ := hintegral
    rw [Stmt.run] at hrun
    obtain ⟨⟨σ₁, o₁⟩, hs, hrun⟩ := Option.bind_eq_some_iff.1 hrun
    simp only [Stmt.lower, Stmt.declared, List.append_nil]
    refine goes_block (init.flatMap Stmt.declared) fun outer =>
      (Stmt.goesAll hreturns init hΓ hscoped.1 hinit hs).bind fun _ => ?_
    have hjump : ∀ j, condition.map (fun e => (e.fragment site).jump) = some j →
        ∀ outcome target, Emits (j outcome target) := by
      intro j hj
      obtain ⟨e, -, rfl⟩ := Option.map_eq_some_iff.1 hj
      exact (e.emits site).jump
    have hupdates : Emits (update.forM fun e => (e.fragment site).effect) :=
      emits_forM fun e _ => (e.emits site).effect
    have hΓ' := Stmt.integral_declaredAll init hΓ hinit
    by_cases ho : o₁ = .normal
    · subst ho
      refine (goes_rounds (fun exit next => tracks_inBlock _ fun outer =>
          body.tracks site _ hscoped.2)
        (fun exit next σ σ' o hrun => goes_block _ fun outer =>
          body.goes hreturns hΓ' hscoped.2 hbody hrun) hjump
        (fun j hj σ b σ' target hb => ?_) (fun hnone σ => ?_) hupdates
        (fun σ σ' h => goes_updates site hΓ' hupdate h) hrun).implies
          (o.control_implies (fun _ => Holds.of_append) fun _ => id)
      · obtain ⟨e, rfl, rfl⟩ := Option.map_eq_some_iff.1 hj
        exact goes_condition site hΓ' hcondition hb false target
      · rw [Option.map_eq_none_iff.1 hnone]
        rfl
    · have hend : (σ₁, o₁) = (σ', o) := by
        cases o₁ with
        | normal => exact absurd rfl ho
        | _ => exact Option.some.inj hrun
      cases hend
      exact .away (tracks_rounds hjump hupdates fun exit next => tracks_inBlock _ fun outer =>
        body.tracks site (⟨label, exit, next⟩ :: loops) hscoped.2) (Completion.isAway_control ho)
  | .construct constructor operands => cases hrun
  | .breakLoop label =>
    cases hrun
    simp only [Stmt.lower, Stmt.declared, List.append_nil]
    exact goes_jumpTo label _
  | .continueLoop label =>
    cases hrun
    simp only [Stmt.lower, Stmt.declared, List.append_nil]
    exact goes_jumpTo label _
  | .returnValue none =>
    cases hrun
    rw [Stmt.isIntegral, Bool.not_eq_true'] at hintegral
    have hnone : site.method.returns = none := by simpa using hintegral
    simp only [Stmt.lower, Stmt.declared, List.append_nil, returned, hnone]
    exact goes_exitVoid
  | .returnValue (some e) =>
    rw [Stmt.isIntegral, Bool.and_eq_true] at hintegral
    obtain ⟨⟨v, σ₁⟩, he, hrun⟩ := Option.bind_eq_some_iff.1 hrun
    cases hrun
    obtain ⟨type, htype⟩ := Option.isSome_iff_exists.1 hintegral.1
    obtain ⟨t, ht, -⟩ := e.type_of_isIntegral hintegral.2
    simp only [Stmt.lower, Stmt.declared, List.append_nil]
    exact goes_expression ((within_returned site (some e)).emits) (goes_returned ht htype
      (hreturns type htype) ((Expr.runs hΓ e hintegral.2).value [] he))

/-- The code of statements one after the other does what they mean. -/
theorem Stmt.goesAll {fuel : Nat} {loops : List Loop} {Γ : Context} {first : Nat}
    {outer : List Scope} {σ σ' : Store} {o : Completion}
    (hreturns : ∀ t, site.method.returns = some t → t.isIntegral = true) (ss : List Stmt)
    (hΓ : ∀ entry ∈ Γ, entry.2.isIntegral = true) (hscoped : Stmt.areScoped Γ ss = true)
    (hintegral : Stmt.areIntegral site.method.returns.isSome Γ ss = true)
    (hrun : Stmt.runAll fuel ss σ = some (σ', o)) :
    Goes W (·.Models 0 Γ first outer)
      (·.Models 0 (Γ ++ ss.flatMap Stmt.declared) first outer) (Stmt.lowerAll site loops ss)
      (.here (Holds Γ σ [])) (o.control loops Γ (Γ ++ ss.flatMap Stmt.declared) σ') := by
  match ss with
  | [] =>
    rw [Stmt.runAll] at hrun
    cases hrun
    rw [Stmt.lowerAll, List.flatMap_nil, List.append_nil]
    exact goes_pure ()
  | s :: ss =>
    rw [Stmt.areScoped, Bool.and_eq_true] at hscoped
    rw [Stmt.areIntegral, Bool.and_eq_true] at hintegral
    rw [Stmt.runAll] at hrun
    obtain ⟨⟨σ₁, o₁⟩, hs, hrun⟩ := Option.bind_eq_some_iff.1 hrun
    rw [Stmt.lowerAll, List.flatMap_cons, ← List.append_assoc]
    refine (s.goes hreturns hΓ hscoped.1 hintegral.1 hs).bind fun _ => ?_
    by_cases ho : o₁ = .normal
    · subst ho
      exact (Stmt.goesAll hreturns ss (s.integral_declared hΓ hintegral.1) hscoped.2
        hintegral.2 hrun).implies (o.control_implies (fun _ => Holds.of_append) fun _ => id)
    · have hend : (σ₁, o₁) = (σ', o) := by
        cases o₁ with
        | normal => exact absurd rfl ho
        | _ => exact Option.some.inj hrun
      cases hend
      rw [Completion.control_of_ne_normal ho]
      exact .away (Stmt.tracks_lowerAll site loops ss hscoped.2) (Completion.isAway_control ho)

/-- The code of a statement that may be missing does what the statement means. -/
theorem Stmt.goes? {fuel : Nat} {loops : List Loop} {Γ : Context} {σ σ' : Store} {o : Completion}
    (hreturns : ∀ t, site.method.returns = some t → t.isIntegral = true) (s : Option Stmt)
    (hΓ : ∀ entry ∈ Γ, entry.2.isIntegral = true) (hscoped : Stmt.isScoped? Γ s = true)
    (hintegral : Stmt.isIntegral? site.method.returns.isSome Γ s = true)
    (hrun : Stmt.run? fuel s σ = some (σ', o)) :
    ∀ x, Stmt.lower? site loops s = some x →
      ∃ Γ', ∀ outer, Goes W (·.Models 0 Γ Γ.length outer) (·.Models 0 (Γ ++ Γ') Γ.length outer) x
        (.here (Holds Γ σ [])) (o.control loops Γ (Γ ++ Γ') σ') := by
  match s with
  | none =>
    intro x hx
    rw [Stmt.lower?] at hx
    cases hx
  | some s =>
    intro x hx
    rw [Stmt.isScoped?] at hscoped
    rw [Stmt.isIntegral?] at hintegral
    rw [Stmt.run?] at hrun
    rw [Stmt.lower?] at hx
    cases hx
    exact ⟨s.declared, fun outer => s.goes hreturns hΓ hscoped hintegral hrun⟩

end

end Meaning
end ClassForge
