/-
# Statements that cannot go wrong

Between statements the stack is empty, and the frame holds the declared types of
the locals in scope (`Context.frame`), behind what is reserved for `this`.  A
statement gets from the frame of one context to that of another
(`Stmt.safe`), with the labels around it as they were.

The label of a loop cuts off the locals that were declared inside of it, so a jump to
it can be made from any context that continues that of the loop (`Reaches`).

| statement | how its frame comes about |
| --- | --- |
| a declaration | the store adds the slot behind the last |
| a block | its locals are cut off at its end |
| a loop | its head is placed first, and later jumps find the frame that is there |
| a jump, a return | nothing goes on behind it, so any frame will do |
-/

import ClassForge.Proofs.ExpressionSafety

namespace ClassForge

open Lowering

/-! ### The frame of a context -/

/-- The types of the locals in scope, behind what is reserved. -/
def Context.locals (base : List FrameType) (Γ : Context) : List FrameType :=
  base ++ Γ.map fun p => p.2.verification

/-- The frame between statements. -/
def Context.frame (base : List FrameType) (Γ : Context) : Frame := ⟨Γ.locals base, []⟩

/-- What is reserved for `this` is known. -/
structure Site.Reserves (site : Site) (base : List FrameType) : Prop where
  known : Frame.Known base
  this : site.method.isStatic = false →
    ∃ t, base[0]? = some t ∧ Conforms t (.ref site.owner.type)

namespace Context

variable {base : List FrameType} {Γ Γ' : Context}

theorem length_locals : (Γ.locals base).length = base.length + Γ.length := by
  simp [locals]

theorem locals_append :
    locals base (Γ ++ Γ') = Γ.locals base ++ Γ'.map fun p => p.2.verification := by
  simp [locals]

/-- Locals with declared types are all known, if the reserved ones are. -/
theorem known_locals (h : Frame.Known base) (Γ : Context) : Frame.Known (Γ.locals base) where
  top hmem := by
    rcases List.mem_append.1 hmem with hmem | hmem
    · exact h.top hmem
    · obtain ⟨p, -, hp⟩ := List.mem_map.1 hmem
      cases htype : p.2 with
      | base b => cases b <;> simp [htype, FieldType.verification] at hp
      | ref r => simp [htype, FieldType.verification] at hp
  constructed n hmem := by
    rcases List.mem_append.1 hmem with hmem | hmem
    · exact h.constructed n hmem
    · obtain ⟨p, -, hp⟩ := List.mem_map.1 hmem
      exact FieldType.verification_ne_uninitialized p.2 n hp

theorem killLocals_frame (h : Frame.Known base) :
    (frame base (Γ ++ Γ')).killLocals (base.length + Γ.length) = Γ.frame base := by
  unfold frame Frame.killLocals
  rw [locals_append, ← length_locals, List.take_left, Frame.trim_eq_self (known_locals h Γ).top]

end Context

/-- The locals of a context are found, and the frame knows them. -/
theorem Site.Reserves.stores {site : Site} {base : List FrameType} {Γ : Context}
    {P : LocalSlots → Prop} (h : site.Reserves base)
    (hbounded : base.length + Γ.length ≤ 65536)
    (hP : ∀ slots, P slots → InSlots base.length Γ slots) :
    site.Stores Γ P (Γ.locals base) where
  known := Context.known_locals h.known Γ
  locals id type hmem := by
    obtain ⟨n, hn⟩ := List.mem_iff_getElem?.1 hmem
    have hlt := (List.getElem?_eq_some_iff.1 hn).1
    refine ⟨UInt16.ofNat (base.length + n), fun slots hs => (hP slots hs).finds n id type hn, ?_⟩
    rw [UInt16.toNat_ofNat', Nat.mod_eq_of_lt (by omega), Context.locals,
      List.getElem?_append_right (Nat.le_add_right ..), Nat.add_sub_cancel_left,
      List.getElem?_map, hn]
    rfl
  this hstatic := by
    obtain ⟨t, ht, hconforms⟩ := h.this hstatic
    refine ⟨t, ?_, hconforms⟩
    rw [Context.locals, List.getElem?_append_left (List.getElem?_eq_some_iff.1 ht).1, ht]

/-! ### Labels of loops -/

/-- A label at which only the locals of the context are in scope. -/
def Target.ofLoop {base : List FrameType} (h : Frame.Known base) (Γ : Context) (l : Label) :
    Target :=
  ⟨l, some (base.length + Γ.length), Γ.frame base, false, (Context.known_locals h Γ).top⟩

@[simp] theorem Target.isBehind_ofLoop {base : List FrameType} (h : Frame.Known base) (Γ : Context)
    (l : Label) : (ofLoop h Γ l).isBehind = false := rfl

theorem Target.ofLoop_admits {base : List FrameType} (h : Frame.Known base) (Γ Γ' : Context)
    (l : Label) : (ofLoop h Γ l).Admits (Context.frame base (Γ ++ Γ')) :=
  Context.killLocals_frame h

theorem Target.ofLoop_admits_self {base : List FrameType} (h : Frame.Known base) (Γ : Context)
    (l : Label) : (ofLoop h Γ l).Admits (Γ.frame base) := by
  have := ofLoop_admits h Γ [] l
  rwa [List.append_nil] at this

/-- Control can go to the label from every context that continues this one. -/
def Reaches (base : List FrameType) (Γ : Context) (T : List Target) (l : Label) : Prop :=
  ∃ t ∈ T, t.label = l ∧ ∀ Γ', t.Admits (Context.frame base (Γ ++ Γ'))

namespace Reaches

variable {base : List FrameType} {Γ : Context} {T T' : List Target} {l : Label}

theorem mono (h : Reaches base Γ T l) (hT : T ⊆ T') : Reaches base Γ T' l := by
  obtain ⟨t, ht, hl, hadmits⟩ := h
  exact ⟨t, hT ht, hl, hadmits⟩

theorem extend (h : Reaches base Γ T l) (Γ' : Context) : Reaches base (Γ ++ Γ') T l := by
  obtain ⟨t, ht, hl, hadmits⟩ := h
  exact ⟨t, ht, hl, fun Γ'' => by rw [List.append_assoc]; exact hadmits _⟩

end Reaches

/-- Control can go to the labels of the loops around. -/
def LoopsReach (base : List FrameType) (Γ : Context) (T : List Target) (loops : List Loop) : Prop :=
  ∀ l ∈ loops, Reaches base Γ T l.exit ∧ Reaches base Γ T l.next

namespace LoopsReach

variable {base : List FrameType} {Γ : Context} {T T' : List Target} {loops : List Loop}

theorem mono (h : LoopsReach base Γ T loops) (hT : T ⊆ T') : LoopsReach base Γ T' loops :=
  fun l hl => ⟨(h l hl).1.mono hT, (h l hl).2.mono hT⟩

theorem extend (h : LoopsReach base Γ T loops) (Γ' : Context) :
    LoopsReach base (Γ ++ Γ') T loops :=
  fun l hl => ⟨(h l hl).1.extend Γ', (h l hl).2.extend Γ'⟩

theorem cons (h : LoopsReach base Γ T loops) {l : Loop} (hexit : Reaches base Γ T l.exit)
    (hnext : Reaches base Γ T l.next) : LoopsReach base Γ T (l :: loops) := by
  rintro m (_ | ⟨_, hm⟩)
  · exact ⟨hexit, hnext⟩
  · exact h m hm

end LoopsReach

namespace Lowering

variable {α : Type} {P Q : LocalSlots → Prop} {base : List FrameType} {Γ Γ' : Context}
  {T : List Target} {first : Nat} {outer : List Scope}

theorem Safe.assume {A : Assembler → Prop} {B : α → Assembler → Prop} {x : Lowering α} {p : Prop}
    (hp : ∀ slots, P slots → p) (h : p → Safe P Q A B x) : Safe P Q A B x :=
  fun slots a hs ha => h (hp slots hs) slots a hs ha

/-- Less may be said of the slots. -/
theorem Safe.weaken {A : Assembler → Prop} {B : α → Assembler → Prop} {x : Lowering α}
    {R : LocalSlots → Prop} (h : Safe P Q A B x) (hQR : ∀ slots, Q slots → R slots) :
    Safe P R A B x := by
  intro slots a hs ha
  rcases h slots a hs ha with ⟨v, slots', b, hx, hQ, hB⟩ | hfail
  · exact .inl ⟨v, slots', b, hx, hQR slots' hQ, hB⟩
  · exact .inr hfail

/-! ### Statements with their parts -/

/-- A declaration takes the next slot, unless there are too many. -/
theorem safe_declare {id : LocalId} (hid : Γ.declares id = false) (type : FieldType)
    {A : Assembler → Prop} :
    Safe (·.Models base.length Γ first outer)
      (·.Models base.length (Γ ++ [(id, type)]) first outer) A
      (fun slot a => slot.toNat = base.length + Γ.length ∧ A a) (declare id type) := by
  intro slots a hs ha
  cases hdeclare : declare id type slots a with
  | ok r b =>
    obtain ⟨slot, slots'⟩ := r
    obtain ⟨rfl, rfl, hbounded, hs'⟩ := declare_eq_ok hs hid hdeclare
    refine .inl ⟨_, slots', b, rfl, hs', ?_, ha⟩
    rw [UInt16.toNat_ofNat', Nat.mod_eq_of_lt hbounded]
  | error e b =>
    refine .inr ⟨e, b, rfl, ?_⟩
    unfold declare LocalSlots.declare at hdeclare
    split at hdeclare
    · cases hdeclare
    · rename_i hslots
      split at hslots
      · cases hslots
        cases hdeclare
        rfl
      · cases hslots

/-- A declaration with a typed initial value is safe: behind it the slot of the local holds
its type. -/
theorem safe_declared {site : Site} (hsite : site.Reserves base) {id : LocalId}
    (hid : Γ.declares id = false) {type : FieldType} {e : Expr} (he : e.isTyped site Γ = true)
    (hgoes : e.goesTo type = true) :
    Safe (·.Models base.length Γ first outer)
      (·.Models base.length (Γ ++ [(id, type)]) first outer) (·.Stands T (Γ.frame base))
      (fun _ => (·.Stands T (Context.frame base (Γ ++ [(id, type)]))))
      (declared site id type (some e)) := by
  refine (safe_declare hid type).bind fun slot => ?_
  intro slots a hs hpre
  obtain ⟨hslot, ha⟩ := hpre
  have hinSlots (slots : LocalSlots)
      (hs : slots.Models base.length (Γ ++ [(id, type)]) first outer) :
      InSlots base.length Γ slots :=
    (InSlots.of_models hs).of_append
  have hsafe := e.safe (hsite.stores (hinSlots slots hs).bounded hinSlots) he
  refine ((Expr.pushes hsafe hgoes T []).bind fun _ => .of_pushed fun t ht => ?_) slots a hs ha
  have hstore := safe_storeLocal (P := (·.Models base.length (Γ ++ [(id, type)]) first outer))
    (T := T) (L := Γ.locals base) (S := []) slot ht
  rw [hslot, ← Context.length_locals, Frame.setLocal_length] at hstore
  unfold Context.frame
  rw [Context.locals_append]
  exact hstore

/-- The code gets from a context to a longer one, at the start of a block. -/
def Continues (base : List FrameType) (Γ Γ' : Context) (T : List Target) (x : Lowering Unit) :
    Prop :=
  ∀ outer, Safe (·.Models base.length Γ Γ.length outer)
    (·.Models base.length (Γ ++ Γ') Γ.length outer) (·.Stands T (Γ.frame base))
    (fun _ => (·.Stands T (Context.frame base (Γ ++ Γ')))) x

/-- The locals of a block are gone at its end. -/
theorem safe_inBlock (hbase : Frame.Known base) {x : Lowering Unit}
    (h : Continues base Γ Γ' T x) :
    Safe (·.Models base.length Γ first outer) (·.Models base.length Γ first outer)
      (·.Stands T (Γ.frame base)) (fun _ => (·.Stands T (Γ.frame base))) (inBlock x) := by
  intro slots a hs ha
  -- what is restored depends on the slots at the start, so these are fixed first
  have hinner : Safe (· = slots) (·.Models base.length Γ first outer) (·.Stands T (Γ.frame base))
      (fun _ => (·.Stands T (Γ.frame base))) (inBlock x) := by
    refine (safe_modify (Q := (·.Models base.length Γ Γ.length slots.scopes)) ?_).bind fun _ => ?_
    · rintro _ rfl
      exact hs.enter
    refine (h slots.scopes).bind fun _ => ?_
    refine (safe_modify (Q := (·.Models base.length Γ first outer)) fun s' hs' =>
      hs.exit hs').bind fun _ => ?_
    refine safe_nextSlot (fun _ hs' => hs'.next) ?_
    have hkill := Assembler.safe_killLocals (T := T) (f := Context.frame base (Γ ++ Γ'))
      (base.length + Γ.length)
    rw [Context.killLocals_frame hbase] at hkill
    exact safe_emit hkill
  exact hinner slots a rfl ha

/-- A condition is safe if its test and its branches are. The branches meet with what was
declared before them. -/
theorem safe_branched (hbase : Frame.Known base) {condition : Jump}
    (hcondition : Jumps (·.Models base.length Γ first outer) (Γ.locals base) condition)
    {thenBranch : Lowering Unit} (hthen : ∀ T', T ⊆ T' → Continues base Γ Γ' T' thenBranch)
    {elseBranch : Option (Lowering Unit)}
    (helse : ∀ x, elseBranch = some x → ∃ Γ'', ∀ T', T ⊆ T' → Continues base Γ Γ'' T' x) :
    Safe (·.Models base.length Γ first outer) (·.Models base.length Γ first outer)
      (·.Stands T (Γ.frame base)) (fun _ => (·.Stands T (Γ.frame base)))
      (branched condition thenBranch elseBranch) := by
  have htop := (Context.known_locals hbase Γ).top
  refine (safe_freshLabel (g := Γ.frame base) htop).bind fun elseLabel => ?_
  let elseTarget : Target := ⟨elseLabel, none, Γ.frame base, false, htop⟩
  refine (hcondition _ [] false elseTarget List.mem_cons_self rfl).bind fun _ => ?_
  refine (safe_inBlock hbase (hthen _ (List.subset_cons_self ..))).bind fun _ => ?_
  cases elseBranch with
  | none => exact safe_place_newest (t := elseTarget) rfl rfl
  | some other =>
    obtain ⟨Γ'', hother⟩ := helse other rfl
    refine (safe_freshLabel (g := Γ.frame base) htop).bind fun endLabel => ?_
    let endTarget : Target := ⟨endLabel, none, Γ.frame base, false, htop⟩
    have hend : endTarget.Admits (Γ.frame base) := rfl
    refine (safe_goto List.mem_cons_self hend (Γ.frame base)).bind fun _ => ?_
    refine (safe_place_second (t := elseTarget) (u := endTarget) rfl rfl rfl).bind fun _ => ?_
    refine (safe_inBlock hbase (hother _ (List.subset_cons_self ..))).bind fun _ => ?_
    exact safe_place_newest (t := endTarget) rfl rfl

/-! ### Loops

Control comes to the labels of a loop with the frame of the context around it, from wherever in the
body it branches. -/

/-- Control goes to a label that it can go to. -/
theorem safe_goto_reaches {l : Label} (h : Reaches base Γ T l) (g : Frame) :
    Safe P P (·.Stands T (Γ.frame base)) (fun _ => (·.Stands T g))
      (emit (Assembler.branch .goto l)) := by
  obtain ⟨t, ht, rfl, hadmits⟩ := h
  have hself := hadmits []
  rw [List.append_nil] at hself
  exact safe_goto ht hself g

theorem Jumps.reaches {jump : Jump} (h : Jumps P (Γ.locals base) jump) {l : Label}
    (hl : Reaches base Γ T l) (outcome : Bool) :
    Safe P P (·.Stands T (Γ.frame base)) (fun _ => (·.Stands T (Γ.frame base)))
      (jump outcome l) := by
  obtain ⟨t, ht, rfl, hadmits⟩ := hl
  have hself := hadmits []
  rw [List.append_nil] at hself
  exact h T [] outcome t ht hself

section Loops

variable (hbase : Frame.Known base)

theorem reaches_ofLoop {l : Label} (h : .ofLoop hbase Γ l ∈ T) : Reaches base Γ T l :=
  ⟨_, h, rfl, fun Γ' => Target.ofLoop_admits hbase Γ Γ' l⟩

theorem reaches_behind {l : Label} (h : (Target.ofLoop hbase Γ l).behind ∈ T) :
    Reaches base Γ T l :=
  ⟨_, h, rfl, fun Γ' => Target.ofLoop_admits hbase Γ Γ' l⟩

theorem safe_head (Γ : Context) {f : Frame} :
    Safe P P (·.Stands T f) (fun l a => a.Stands (.ofLoop hbase Γ l :: T) f ∧ l.Untouched a)
      (emit (Assembler.freshScopedLabel (base.length + Γ.length))) :=
  safe_emit (Assembler.safe_newLabel_untouched _ _)

theorem safe_further (Γ : Context) (head : Label) {f : Frame} :
    Safe P P (fun a => a.Stands T f ∧ head.Untouched a)
      (fun l a => a.Stands (.ofLoop hbase Γ l :: T) f ∧ head.Untouched a)
      (emit (Assembler.freshScopedLabel (base.length + Γ.length))) :=
  safe_emit (Assembler.safe_newLabel_after head _ _)

theorem safe_placeHead (Γ : Context) (head : Label) {N : List Target}
    (hN : ∀ u ∈ N, u.isBehind = false) :
    Safe P P
      (fun a => a.Stands (N ++ .ofLoop hbase Γ head :: T) (Γ.frame base) ∧ head.Untouched a)
      (fun _ => (·.Stands (N ++ (Target.ofLoop hbase Γ head).behind :: T) (Γ.frame base)))
      (emit (Assembler.place head)) :=
  safe_emit (@Assembler.safe_place_behind N T (.ofLoop hbase Γ head) (Γ.frame base) rfl rfl hN
    (Target.ofLoop_admits_self hbase Γ head))

theorem safe_placeExit (Γ : Context) (head exit : Label) :
    Safe P P
      (·.Stands (.ofLoop hbase Γ exit :: (Target.ofLoop hbase Γ head).behind :: T) (Γ.frame base))
      (fun _ => (·.Stands T (Γ.frame base))) (emit (Assembler.place exit)) :=
  (safe_place_newest (t := .ofLoop hbase Γ exit) rfl (Target.ofLoop_admits_self hbase Γ exit)).imp
    fun _ a ha => @Assembler.Stands.forget [] T _ _ a ha

include hbase in
/-- A loop with its test first is safe if its test and its body are. -/
theorem safe_whileLoop {condition : Jump}
    (hcondition : Jumps (·.Models base.length Γ first outer) (Γ.locals base) condition)
    {body : Label → Label → Lowering Unit}
    (hbody : ∀ exit next T', T ⊆ T' → Reaches base Γ T' exit → Reaches base Γ T' next →
      Continues base Γ Γ' T' (body exit next)) :
    Safe (·.Models base.length Γ first outer) (·.Models base.length Γ first outer)
      (·.Stands T (Γ.frame base)) (fun _ => (·.Stands T (Γ.frame base)))
      (whileLoop condition body) := by
  refine safe_nextSlot (fun _ hs => hs.next) ?_
  refine (safe_head hbase Γ).bind fun head => (safe_further hbase Γ head).bind fun exit => ?_
  refine (safe_placeHead hbase Γ head (N := [.ofLoop hbase Γ exit]) (by simp)).bind fun _ => ?_
  have hexit : Reaches base Γ (.ofLoop hbase Γ exit :: (Target.ofLoop hbase Γ head).behind :: T)
      exit := reaches_ofLoop hbase (by simp)
  have hhead : Reaches base Γ (.ofLoop hbase Γ exit :: (Target.ofLoop hbase Γ head).behind :: T)
      head := reaches_behind hbase (by simp)
  refine (hcondition.reaches hexit false).bind fun _ => ?_
  refine (safe_inBlock hbase (hbody exit head _ (by simp) hexit hhead)).bind fun _ => ?_
  exact (safe_goto_reaches hhead (Γ.frame base)).bind fun _ => safe_placeExit hbase Γ head exit

include hbase in
/-- A loop with its test last is safe if its test and its body are. -/
theorem safe_doWhileLoop {condition : Jump}
    (hcondition : Jumps (·.Models base.length Γ first outer) (Γ.locals base) condition)
    {body : Label → Label → Lowering Unit}
    (hbody : ∀ exit next T', T ⊆ T' → Reaches base Γ T' exit → Reaches base Γ T' next →
      Continues base Γ Γ' T' (body exit next)) :
    Safe (·.Models base.length Γ first outer) (·.Models base.length Γ first outer)
      (·.Stands T (Γ.frame base)) (fun _ => (·.Stands T (Γ.frame base)))
      (doWhileLoop condition body) := by
  refine safe_nextSlot (fun _ hs => hs.next) ?_
  refine (safe_head hbase Γ).bind fun head => (safe_further hbase Γ head).bind fun next =>
    (safe_further hbase Γ head).bind fun exit => ?_
  refine (safe_placeHead hbase Γ head
    (N := [.ofLoop hbase Γ exit, .ofLoop hbase Γ next]) (by simp)).bind fun _ => ?_
  refine (safe_inBlock hbase (hbody exit next _ (fun _ ht => by simp [ht])
    (reaches_ofLoop hbase (by simp)) (reaches_ofLoop hbase (by simp)))).bind fun _ => ?_
  refine (safe_place_second (t := .ofLoop hbase Γ next) (u := .ofLoop hbase Γ exit) rfl rfl
    (Target.ofLoop_admits_self hbase Γ next)).bind fun _ => ?_
  exact (hcondition.reaches (reaches_behind hbase (by simp)) true).bind fun _ =>
    safe_placeExit hbase Γ head exit

include hbase in
/-- The rounds of a counting loop are safe if the test, the update and the body are. -/
theorem safe_rounds {condition : Option Jump}
    (hcondition : ∀ jump, condition = some jump →
      Jumps (·.Models base.length Γ first outer) (Γ.locals base) jump)
    {update : Lowering Unit}
    (hupdate : Leaves (·.Models base.length Γ first outer) (Γ.locals base) update)
    {body : Label → Label → Lowering Unit}
    (hbody : ∀ exit next T', T ⊆ T' → Reaches base Γ T' exit → Reaches base Γ T' next →
      Continues base Γ Γ' T' (body exit next)) :
    Safe (·.Models base.length Γ first outer) (·.Models base.length Γ first outer)
      (·.Stands T (Γ.frame base)) (fun _ => (·.Stands T (Γ.frame base)))
      (rounds condition update body) := by
  refine safe_nextSlot (fun _ hs => hs.next) ?_
  refine (safe_head hbase Γ).bind fun head => (safe_further hbase Γ head).bind fun next =>
    (safe_further hbase Γ head).bind fun exit => ?_
  refine (safe_placeHead hbase Γ head
    (N := [.ofLoop hbase Γ exit, .ofLoop hbase Γ next]) (by simp)).bind fun _ => ?_
  have hround : Safe (·.Models base.length Γ first outer) (·.Models base.length Γ first outer)
      (·.Stands (.ofLoop hbase Γ exit :: .ofLoop hbase Γ next ::
        (Target.ofLoop hbase Γ head).behind :: T) (Γ.frame base))
      (fun _ => (·.Stands T (Γ.frame base))) (do
        inBlock (body exit next)
        emit (Assembler.place next)
        update
        emit (Assembler.branch .goto head)
        emit (Assembler.place exit)) := by
    refine (safe_inBlock hbase (hbody exit next _ (fun _ ht => by simp [ht])
      (reaches_ofLoop hbase (by simp)) (reaches_ofLoop hbase (by simp)))).bind fun _ => ?_
    refine (safe_place_second (t := .ofLoop hbase Γ next) (u := .ofLoop hbase Γ exit) rfl rfl
      (Target.ofLoop_admits_self hbase Γ next)).bind fun _ => (hupdate _ []).bind fun _ => ?_
    exact (safe_goto_reaches (reaches_behind hbase (by simp)) (Γ.frame base)).bind fun _ =>
      safe_placeExit hbase Γ head exit
  cases condition with
  | none => exact safe_skip.bind fun _ => hround
  | some jump =>
    exact ((hcondition jump rfl).reaches (reaches_ofLoop hbase (by simp)) false).bind fun _ =>
      hround

end Loops

/-- A jump goes to a label of the loop that it names. -/
theorem safe_jumpTo {loops : List Loop} (h : LoopsReach base Γ T loops) {label : Option String}
    (hlabel : Stmt.namesLoop (loops.map Loop.label) label = true) {side : Loop → Label}
    (hside : side = Loop.exit ∨ side = Loop.next) (g : Frame) :
    Safe P P (·.Stands T (Γ.frame base)) (fun _ => (·.Stands T g)) (jumpTo loops label side) := by
  have hfound : ∃ l ∈ loops, findLoop loops label = some l := by
    cases label with
    | none =>
      cases loops with
      | nil => cases hlabel
      | cons l loops => exact ⟨l, List.mem_cons_self, rfl⟩
    | some name =>
      simp only [Stmt.namesLoop, decide_eq_true_eq, List.mem_map] at hlabel
      obtain ⟨l, hl, hname⟩ := hlabel
      cases hfind : findLoop loops (some name) with
      | some l => exact ⟨l, List.mem_of_find?_eq_some hfind, rfl⟩
      | none => simpa [hname] using List.find?_eq_none.1 hfind l hl
  obtain ⟨l, hl, hfind⟩ := hfound
  unfold jumpTo
  rw [hfind]
  rcases hside with rfl | rfl
  · exact safe_goto_reaches (h l hl).1 g
  · exact safe_goto_reaches (h l hl).2 g

/-- Nothing goes on behind a return. -/
theorem safe_returned {site : Site} (hstores : site.Stores Γ P (Γ.locals base))
    {value : Option Expr} {loops : List (Option String)}
    (h : (Stmt.returnValue value).isTyped site loops Γ = true) (g : Frame) :
    Safe P P (·.Stands T (Γ.frame base)) (fun _ => (·.Stands T g)) (returned site value) := by
  unfold returned
  cases value with
  | none =>
    simp only [Stmt.isTyped, Option.isNone_iff_eq_none] at h
    rw [h]
    exact safe_skip.bind fun _ => safe_exit_void g
  | some e =>
    simp only [Stmt.isTyped, Bool.and_eq_true, Option.any_eq_true] at h
    obtain ⟨he, type, htype, hgoes⟩ := h
    rw [htype]
    exact (Expr.pushes (e.safe hstores he) hgoes T []).bind fun _ => .of_pushed fun t ht =>
      safe_exit ht g

end Lowering

/-! ### Statements -/

section Conditions

variable {site : Site} {base : List FrameType} {Γ : Context} {P : LocalSlots → Prop}

theorem Expr.jumps {e : Expr} (hstores : site.Stores Γ P (Γ.locals base))
    (h : e.isCondition site Γ = true) : Jumps P (Γ.locals base) (e.fragment site).jump := by
  simp only [Expr.isCondition, Bool.and_eq_true, decide_eq_true_eq] at h
  exact (e.safe hstores h.1).jump (Expr.type_source site h.2)

/-- The updates of a counting loop leave the stack as it was. -/
theorem Expr.leaves_updates {update : List Expr} (hstores : site.Stores Γ P (Γ.locals base))
    (h : ∀ e ∈ update, e.isTyped site Γ = true) :
    Leaves P (Γ.locals base) (update.forM fun e => (e.fragment site).effect) := by
  intro T S
  induction update with
  | nil => exact safe_skip
  | cons e update ih =>
    exact ((e.safe hstores (h e List.mem_cons_self)).effect T S).bind fun _ =>
      ih fun e' he' => h e' (List.mem_cons_of_mem e he')

end Conditions

mutual

/-- **The code of a typed statement can always be made**, unless it gets too large.
It gets from the frame of the context to that with the local that it declares. -/
theorem Stmt.safe {site : Site} {base : List FrameType} (hsite : site.Reserves base)
    {loops : List Loop} {Γ : Context} {T : List Target} {first : Nat} {outer : List Scope}
    (hloops : LoopsReach base Γ T loops) (s : Stmt)
    (h : s.isTyped site (loops.map Loop.label) Γ = true) :
    Lowering.Safe (·.Models base.length Γ first outer)
      (·.Models base.length (Γ ++ s.declared) first outer) (·.Stands T (Γ.frame base))
      (fun _ => (·.Stands T (Context.frame base (Γ ++ s.declared)))) (s.lower site loops) := by
  refine Safe.assume (fun slots hs => hs.bounded) fun hbounded => ?_
  have hstores : site.Stores Γ (·.Models base.length Γ first outer) (Γ.locals base) :=
    hsite.stores hbounded fun slots hs => .of_models hs
  match s with
  | .expr e =>
    simp only [Stmt.isTyped] at h
    simp only [Stmt.lower, Stmt.declared, List.append_nil]
    exact (e.safe hstores h).effect T []
  | .declare id type initial =>
    simp only [Stmt.isTyped, Bool.and_eq_true, Bool.not_eq_true', Option.any_eq_true] at h
    obtain ⟨hid, e, rfl, he, hgoes⟩ := h
    rw [Stmt.lower]
    exact safe_declared hsite hid he hgoes
  | .block body =>
    rw [Stmt.isTyped] at h
    simp only [Stmt.lower, Stmt.declared, List.append_nil]
    exact safe_inBlock hsite.known fun outer => Stmt.safeAll hsite hloops body h
  | .branch condition thenBranch elseBranch =>
    simp only [Stmt.isTyped, Bool.and_eq_true] at h
    simp only [Stmt.lower, Stmt.declared, List.append_nil]
    exact safe_branched hsite.known (Expr.jumps hstores h.1.1)
      (fun T' hT outer => thenBranch.safe hsite (hloops.mono hT) h.1.2)
      (Stmt.safe? hsite hloops elseBranch h.2)
  | .whileLoop label condition body =>
    simp only [Stmt.isTyped, Bool.and_eq_true] at h
    simp only [Stmt.lower, Stmt.declared, List.append_nil]
    exact safe_whileLoop hsite.known (Expr.jumps hstores h.1)
      fun exit next T' hT hexit hnext outer =>
        body.safe hsite ((hloops.mono hT).cons (l := ⟨label, exit, next⟩) hexit hnext) h.2
  | .doWhileLoop label body condition =>
    simp only [Stmt.isTyped, Bool.and_eq_true] at h
    simp only [Stmt.lower, Stmt.declared, List.append_nil]
    exact safe_doWhileLoop hsite.known (Expr.jumps hstores h.1)
      fun exit next T' hT hexit hnext outer =>
        body.safe hsite ((hloops.mono hT).cons (l := ⟨label, exit, next⟩) hexit hnext) h.2
  | .forLoop label init condition update body =>
    simp only [Stmt.isTyped, Bool.and_eq_true, List.all_eq_true] at h
    obtain ⟨⟨⟨hinit, hcondition⟩, hupdate⟩, hbody⟩ := h
    simp only [Stmt.lower, Stmt.declared, List.append_nil]
    refine safe_inBlock hsite.known (?_ : Continues base Γ (init.flatMap Stmt.declared) T _)
    refine fun outer => (Stmt.safeAll hsite hloops init hinit).bind fun _ => ?_
    refine Safe.assume (fun slots hs => hs.bounded) fun hbounded => ?_
    have hstores' := hsite.stores hbounded fun slots
      (hs : slots.Models base.length (Γ ++ init.flatMap Stmt.declared) Γ.length outer) =>
        .of_models hs
    refine safe_rounds hsite.known (fun jump hjump => ?_) (Expr.leaves_updates hstores' hupdate)
      fun exit next T' hT hexit hnext outer =>
        body.safe hsite
          (((hloops.extend _).mono hT).cons (l := ⟨label, exit, next⟩) hexit hnext) hbody
    obtain ⟨e, rfl, rfl⟩ := Option.map_eq_some_iff.1 hjump
    exact Expr.jumps hstores' hcondition
  | .breakLoop label =>
    rw [Stmt.isTyped] at h
    simp only [Stmt.lower, Stmt.declared, List.append_nil]
    exact safe_jumpTo hloops h (.inl rfl) _
  | .continueLoop label =>
    rw [Stmt.isTyped] at h
    simp only [Stmt.lower, Stmt.declared, List.append_nil]
    exact safe_jumpTo hloops h (.inr rfl) _
  | .returnValue value =>
    simp only [Stmt.lower, Stmt.declared, List.append_nil]
    exact safe_returned hstores h _
  | .construct constructor operands => simp [Stmt.isTyped] at h

/-- Typed statements one after the other are safe, and what they declare is known behind
them. -/
theorem Stmt.safeAll {site : Site} {base : List FrameType} (hsite : site.Reserves base)
    {loops : List Loop} {Γ : Context} {T : List Target} {first : Nat} {outer : List Scope}
    (hloops : LoopsReach base Γ T loops) (ss : List Stmt)
    (h : Stmt.areTyped site (loops.map Loop.label) Γ ss = true) :
    Lowering.Safe (·.Models base.length Γ first outer)
      (·.Models base.length (Γ ++ ss.flatMap Stmt.declared) first outer)
      (·.Stands T (Γ.frame base))
      (fun _ => (·.Stands T (Context.frame base (Γ ++ ss.flatMap Stmt.declared))))
      (Stmt.lowerAll site loops ss) := by
  match ss with
  | [] =>
    rw [Stmt.lowerAll, List.flatMap_nil, List.append_nil]
    exact safe_skip
  | s :: ss =>
    simp only [Stmt.areTyped, Bool.and_eq_true] at h
    rw [Stmt.lowerAll, List.flatMap_cons, ← List.append_assoc]
    exact (s.safe hsite hloops h.1).bind fun _ =>
      Stmt.safeAll hsite (hloops.extend s.declared) ss h.2

/-- A statement that may be missing is safe in a block of its own. -/
theorem Stmt.safe? {site : Site} {base : List FrameType} (hsite : site.Reserves base)
    {loops : List Loop} {Γ : Context} {T : List Target} (hloops : LoopsReach base Γ T loops)
    (s : Option Stmt) (h : Stmt.isTyped? site (loops.map Loop.label) Γ s = true) :
    ∀ x, Stmt.lower? site loops s = some x →
      ∃ Γ', ∀ T', T ⊆ T' → Continues base Γ Γ' T' x := by
  match s with
  | none =>
    intro x hx
    rw [Stmt.lower?] at hx
    cases hx
  | some s =>
    intro x hx
    rw [Stmt.isTyped?] at h
    rw [Stmt.lower?] at hx
    cases hx
    exact ⟨s.declared, fun T' hT outer => s.safe hsite (hloops.mono hT) h⟩

end

end ClassForge
