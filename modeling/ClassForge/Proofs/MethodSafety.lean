/-
# Methods that cannot go wrong

Specification, section 7: what the type checker excludes, and what it cannot.

A typed method is compiled, unless it is too large or control can reach its end
without the value that it should return (`Site.compile_typed`).  The way there:

| step | why it does not fail otherwise |
| --- | --- |
| the statements | `Stmt.safeAll`, from the frame on entry or that behind the constructor call |
| the end | it is a return, if control can be there |
| `Assembler.finish` | labels are taken care of in every method (`Site.finish_of_lower`) |
| `Body.store` | only the size matters for a closed body (`Body.Closed.failsOnly_store`) |
| everything else | constants may overflow their pool |
-/

import ClassForge.Proofs.Labels
import ClassForge.Proofs.StatementSafety
import ClassForge.Sample

namespace ClassForge

open Lowering

theorem Interning.failsOnly_toCompiling {α : Type} (x : Interning α) :
    FailsOnly (·.isTooLarge = true) x.toCompiling :=
  (FailsOnly.any x).adaptExcept fun _ _ => rfl

/-! ### The frame on entry -/

namespace Site

/-- What is reserved for `this` on entry. -/
def base (site : Site) : List FrameType :=
  if site.method.isConstructor then [.uninitializedThis]
  else if site.method.isStatic then [] else [.object site.owner.type]

variable {site : Site}

theorem entry_eq (site : Site) : site.entry = site.method.context.frame site.base := by
  unfold entry Frame.entry base Context.frame Context.locals MethodDecl.context
    MethodDecl.descriptor
  simp only [List.map_map, Function.comp_def]

/-- There is a `this` on entry unless the method is static. -/
theorem length_base (h : ¬ (site.method.isStatic = true ∧ site.method.isConstructor = true)) :
    site.base.length = if site.method.isStatic then 0 else 1 := by
  unfold base
  split
  · rename_i hconstructor
    rw [if_neg fun hstatic => h ⟨hstatic, hconstructor⟩]
    rfl
  · split <;> rfl

/-- One reserved slot, with what conforms to the owner of the method, is the object. -/
theorem reserves_single {t : FrameType} (ht : Conforms t (.ref site.owner.type)) :
    site.Reserves [t] where
  known :=
    { top := by
        rintro (_ | ⟨_, ⟨⟩⟩)
        cases ht
      constructed := by
        rintro n (_ | ⟨_, ⟨⟩⟩)
        cases ht }
  this _ := ⟨t, rfl, ht⟩

theorem reserves_base (site : Site) : site.Reserves site.base := by
  unfold base
  split
  · exact reserves_single (.this _)
  · split
    · rename_i hstatic
      refine ⟨⟨nofun, nofun⟩, fun h => ?_⟩
      rw [h] at hstatic
      cases hstatic
    · exact reserves_single (conforms_verification (.ref site.owner.type))

/-- On entry, control is there with the entry frame, and no label has been made. -/
theorem stands_start (pool : ConstantPool) (entry : Frame) (h : entry.stack = []) :
    (Assembler.start pool entry).Stands [] entry where
  current g hg := by
    cases hg
    refine ⟨rfl, ?_⟩
    rw [h]
    exact nofun
  targets := nofun
  newest := .nil
  unplaced n state hn := by simp [Assembler.start] at hn

/-! ### Constructors -/

/-- A constructor call makes an object of `this`. -/
theorem safe_constructThis {P : LocalSlots → Prop} (hstatic : site.method.isStatic = false)
    (hconstructor : site.method.isConstructor = true) (method : MethodRef) {x : Lowering Unit}
    (hx : ∀ S, Safe P P (·.Stands [] ⟨site.method.context.locals site.base, S⟩)
      (fun _ a => ∃ A : List FrameType, A.length = method.descriptor.parameters.length ∧
        a.Stands [] ⟨site.method.context.locals site.base, A ++ S⟩) x) :
    Safe P P (·.Stands [] (site.method.context.frame site.base))
      (fun _ => (·.Stands [] (site.method.context.frame [.object site.owner.type])))
      (do
        loadThis site
        x
        emit (Assembler.construct method site.owner.type)) := by
  have hbase : site.base = [.uninitializedThis] := if_pos hconstructor
  rw [hbase] at hx ⊢
  unfold loadThis
  rw [hstatic]
  refine (safe_loadLocal (t := .uninitializedThis) rfl (.this _)).bind fun _ => ?_
  refine (hx [.uninitializedThis]).bind fun _ => .of_exists fun A hA => ?_
  refine safe_construct_this method site.owner.type hA fun hmem => ?_
  obtain ⟨p, -, hp⟩ := List.mem_map.1 hmem
  match htype : p.2 with
  | .base .int | .base .boolean | .base .float | .ref _ =>
    rw [htype] at hp
    cases hp

/-- The code before the end of the method. -/
def lowerStatements (site : Site) : Lowering Unit := do
  site.lowerSuper
  Stmt.lowerAll site [] site.method.body

/-- **The call of the constructor above is safe.** Behind it the object is constructed, in
the slot where it was under construction. -/
theorem safe_lowerSuper {P : LocalSlots → Prop}
    (hthis : ¬ (site.method.isStatic = true ∧ site.method.isConstructor = true)) :
    Safe P P (·.Stands [] (site.method.context.frame site.base))
      (fun _ a => ∃ base, (site.Reserves base ∧ base.length = site.base.length) ∧
        a.Stands [] (site.method.context.frame base)) site.lowerSuper := by
  unfold lowerSuper
  split
  · rename_i hsuper
    have hconstructor : site.method.isConstructor = true := by
      unfold callsSuper at hsuper
      rw [Bool.and_eq_true, Bool.and_eq_true] at hsuper
      exact hsuper.1.1
    have hstatic : site.method.isStatic = false :=
      Bool.eq_false_iff.2 fun hstatic => hthis ⟨hstatic, hconstructor⟩
    have hcall := safe_constructThis (P := P) hstatic hconstructor
      (.constructor site.owner.superClass []) fun S => safe_pure () fun a ha => ⟨[], rfl, ha⟩
    refine hcall.imp fun _ a ha => ⟨_, ⟨reserves_single ?_, ?_⟩, ha⟩
    · exact conforms_verification (.ref site.owner.type)
    · rw [base, if_pos hconstructor]
      rfl
  · exact safe_pure () fun a ha => ⟨_, ⟨site.reserves_base, rfl⟩, ha⟩

/-- **The statements of a typed method do not go wrong.** In the context of its parameters
their code finds the types that it needs, and leaves an empty stack behind. -/
theorem safe_lowerStatements
    (hthis : ¬ (site.method.isStatic = true ∧ site.method.isConstructor = true))
    (h : site.isTyped = true) :
    Safe (·.Models site.base.length site.method.context 0 []) (fun _ => True)
      (·.Stands [] (site.method.context.frame site.base)) (fun _ a => ∃ f, a.Stands [] f)
      site.lowerStatements := by
  have hrest {base : List FrameType} (hbase : site.Reserves base)
      (hlength : base.length = site.base.length) {ss : List Stmt}
      (hss : Stmt.areTyped site [] site.method.context ss = true) :
      Safe (·.Models site.base.length site.method.context 0 []) (fun _ => True)
        (·.Stands [] (site.method.context.frame base)) (fun _ a => ∃ f, a.Stands [] f)
        (Stmt.lowerAll site [] ss) := by
    have hloops : LoopsReach base site.method.context [] [] := by rintro l ⟨⟩
    rw [← hlength]
    exact ((Stmt.safeAll hbase hloops ss hss).imp fun _ a ha => ⟨_, ha⟩).weaken fun _ _ => trivial
  unfold isTyped at h
  rw [Bool.and_eq_true] at h
  obtain ⟨hdistinct, h⟩ := h
  unfold lowerStatements
  split at h
  · rename_i constructor operands rest hbody
    rw [Bool.and_eq_true] at h
    obtain ⟨hstarts, hss⟩ := h
    unfold startsTyped at hstarts
    rw [Bool.and_eq_true] at hstarts
    obtain ⟨hconstructor, hoperands⟩ := hstarts
    have hstatic : site.method.isStatic = false :=
      Bool.eq_false_iff.2 fun hstatic => hthis ⟨hstatic, hconstructor⟩
    have hsuper : site.callsSuper = false := by
      unfold callsSuper
      rw [hbody]
      simp [Stmt.isConstruct]
    refine Safe.assume (fun slots hs => hs.bounded) fun hbounded => ?_
    unfold lowerSuper
    rw [hsuper, if_neg Bool.false_ne_true, pure_bind, hbody, Stmt.lowerAll, Stmt.lower, constructed,
      if_pos hconstructor]
    have hstores := site.reserves_base.stores hbounded fun slots
      (hs : slots.Models site.base.length site.method.context 0 []) => .of_models hs
    have hcall := safe_constructThis hstatic hconstructor constructor fun S =>
      safe_arguments (T := []) (S := S) (Expr.passesAll hstores operands hoperands)
    refine hcall.bind fun _ => hrest (reserves_single ?_) ?_ hss
    · exact conforms_verification (.ref site.owner.type)
    · rw [base, if_pos hconstructor]
      rfl
  · exact (safe_lowerSuper hthis).bind fun _ => .of_exists fun base hbase =>
      hrest hbase.1 hbase.2 h

/-! ### Methods -/

/-- Control can reach the end of the method. -/
def ReachesEnd (site : Site) (pool : ConstantPool) : Prop :=
  ∃ slots slots' a, site.slots = .ok slots ∧
    site.lowerStatements slots (Assembler.start pool site.entry) = .ok ((), slots') a ∧
      a.isReachable = true

/-- The method should return a value, and control can reach its end without one. -/
structure LacksReturn (site : Site) (pool : ConstantPool) (e : CompileError) : Prop where
  error : e = .unsupported (.missingReturn site.method.name)
  returns : site.method.returns ≠ none
  reached : site.ReachesEnd pool

/-- The end of a method is made, unless control could go on there without a value. -/
theorem lowerEnd_cases (site : Site) (slots : LocalSlots) (a : Assembler) :
    (∃ b, site.lowerEnd slots a = .ok ((), slots) b) ∨
    (∃ b, site.lowerEnd slots a = .error (.unsupported (.missingReturn site.method.name)) b) ∧
      site.method.returns ≠ none ∧ a.isReachable = true := by
  unfold lowerEnd
  rw [Lowering.bind_of_ok (x := Lowering.isReachable) rfl]
  cases hreachable : a.isReachable with
  | false => exact .inl ⟨a, rfl⟩
  | true =>
    cases hreturns : site.method.returns with
    | some type => exact .inr ⟨⟨a, rfl⟩, Option.some_ne_none type, rfl⟩
    | none =>
      obtain ⟨f, hf⟩ := Option.isSome_iff_exists.1 hreachable
      have hstep : f.step a.instructions.size (.simple .returnVoid) .none = .ok f := rfl
      exact .inl ⟨_, emit_of_ok (Operation.run_push_iff.2 (.push hf rfl hstep))⟩

theorem lower_eq (site : Site) :
    site.lower = (do site.lowerStatements; site.lowerEnd; lowerSlots) := by
  unfold lower lowerStatements
  rw [bind_assoc]

variable (hthis : ¬ (site.method.isStatic = true ∧ site.method.isConstructor = true))
  (htyped : site.isTyped = true)
include hthis htyped

/-- **The code of a typed method is made**, unless it is too large or lacks a return. A
missing return is the only fault that types and scopes do not exclude. -/
theorem lower_cases {slots : LocalSlots} (hslots : site.slots = .ok slots) (pool : ConstantPool) :
    (∃ slots' a, site.lower slots (Assembler.start pool site.entry) = .ok ((), slots') a) ∨
    ∃ e a, site.lower slots (Assembler.start pool site.entry) = .error e a ∧
      (e.isTooLarge = true ∨ site.LacksReturn pool e) := by
  have hdistinct : (site.method.context.map Prod.fst).Nodup := by
    unfold isTyped at htyped
    rw [Bool.and_eq_true, decide_eq_true_eq] at htyped
    simpa [MethodDecl.context, Function.comp_def] using htyped.1
  have hmodels := models_slots hdistinct hslots
  rw [← length_base hthis] at hmodels
  have hstart : (Assembler.start pool site.entry).Stands []
      (site.method.context.frame site.base) := by
    rw [← entry_eq]
    exact stands_start pool site.entry rfl
  rw [lower_eq]
  rcases safe_lowerStatements hthis htyped slots _ hmodels hstart with
    ⟨⟨⟩, slots', a, hlower, -⟩ | ⟨e, a, hlower, hlarge⟩
  · rcases site.lowerEnd_cases slots' a with ⟨b, hend⟩ | ⟨⟨b, hend⟩, hreturns, hreachable⟩
    · refine .inl ⟨slots', { b with maxLocals := max b.maxLocals slots'.max }, ?_⟩
      rw [Lowering.bind_of_ok hlower, Lowering.bind_of_ok hend]
      rfl
    · refine .inr ⟨_, b, ?_, .inr ⟨rfl, hreturns, slots, slots', a, hslots, hlower, hreachable⟩⟩
      rw [Lowering.bind_of_ok hlower, Lowering.bind_of_error hend]
  · exact .inr ⟨e, a, Lowering.bind_of_error hlower, .inl hlarge⟩

/-- **The body of a typed method is made**, unless it is too large or lacks a
return. -/
theorem body_cases (pool : ConstantPool) :
    (∃ b q, site.body pool = .ok b q ∧ b.Closed) ∨
    ∃ e q, site.body pool = .error e q ∧ (e.isTooLarge = true ∨ site.LacksReturn pool e) := by
  unfold body
  cases hslots : site.slots with
  | error e => exact .inr ⟨_, pool, rfl, .inl (isTooLarge_of_slots hslots)⟩
  | ok slots =>
    rcases lower_cases hthis htyped hslots pool with
      ⟨slots', a, hlower⟩ | ⟨e, a, hlower, he⟩
    · have hbuilt := (site.adds_lower slots _ _ _ _ hlower).built
      obtain ⟨b, hb⟩ := finish_of_lower hlower
      refine .inl ⟨b, a.pool, ?_, Body.closed_of_finish hbuilt hb⟩
      simp only [hlower, hb]
    · refine .inr ⟨e, a.pool, ?_, he⟩
      simp only [hlower]

end Site

/-- **A typed method is compiled**, unless it is too large or control can reach its end
without the value that it should return. -/
theorem Site.compile_typed (site : Site) (hcode : site.method.isAbstract = false)
    (hthis : ¬ (site.method.isStatic = true ∧ site.method.isConstructor = true))
    (htyped : site.isTyped = true) (pool : ConstantPool) :
    (∃ info q, site.compile pool = .ok info q) ∨
    ∃ e q, site.compile pool = .error e q ∧
      (e.isTooLarge = true ∨ site.LacksReturn pool e) := by
  cases hcompile : site.compile pool with
  | ok info q => exact .inl ⟨info, q, rfl⟩
  | error e q =>
    refine .inr ⟨e, q, rfl, ?_⟩
    have hattributes (t : ConstantPool) (h : site.attributes pool = .error e t) :
        e.isTooLarge = true ∨ site.LacksReturn pool e := by
      unfold Site.attributes at h
      rw [hcode, if_neg Bool.false_ne_true] at h
      rcases site.body_cases hthis htyped pool with ⟨b, p, hb, hclosed⟩ | ⟨e', p, hb, he⟩
      · rw [bind_of_ok hb] at h
        refine .inl ((FailsOnly.bind (E := (·.isTooLarge = true)) ?_ fun code =>
          .bind (Interning.failsOnly_toCompiling _) fun _ => .pure _) p e t h)
        exact hclosed.failsOnly_store.adaptExcept fun e he => he
      · rw [bind_of_error hb] at h
        cases h
        exact he
    unfold Site.compile at hcompile
    cases hstored : site.attributes pool with
    | error e' t =>
      rw [bind_of_error hstored] at hcompile
      cases hcompile
      exact hattributes _ hstored
    | ok attributes p =>
      rw [bind_of_ok hstored] at hcompile
      exact .inl ((FailsOnly.bind (Interning.failsOnly_toCompiling _) fun _ =>
        .bind (Interning.failsOnly_toCompiling _) fun _ => .pure _) p e q hcompile)

/-- The method of the sample class that sums an array in a loop, in the package of the
sample. -/
def Sample.sumSite : Site :=
  ⟨{}, counter counterName, sum counterName⟩

/-- The loop of the sample class is typed, so that it can only be too large. -/
theorem Sample.sumSite_typed :
    (Sample.sumSite.method.isAbstract = false ∧
      ¬ (Sample.sumSite.method.isStatic = true ∧ Sample.sumSite.method.isConstructor = true) ∧
      Sample.sumSite.isTyped = true) ∧
    ((∃ info q, Sample.sumSite.compile .empty = .ok info q) ∨
      ∃ e q, Sample.sumSite.compile .empty = .error e q ∧
        (e.isTooLarge = true ∨ Sample.sumSite.LacksReturn .empty e)) := by
  have hcode : Sample.sumSite.method.isAbstract = false := by decide
  have hthis : ¬ (Sample.sumSite.method.isStatic = true ∧
      Sample.sumSite.method.isConstructor = true) := by decide
  have htyped : Sample.sumSite.isTyped = true := by decide
  exact ⟨⟨hcode, hthis, htyped⟩, Site.compile_typed _ hcode hthis htyped .empty⟩

end ClassForge
