/-
# Slots and frames agree

Two things are kept up while code is made: the slots of the locals in scope, which go
with the blocks of the source, and the frames, which go with control.  They agree
(`Frame.Agrees`): no slot is known about beyond those that are taken, and what is known
about the slot of a local is its declared type or nothing.

| step | slots | frames |
| --- | --- | --- |
| a declaration | one more is taken | stay |
| a store | stay | the declared type is known |
| the end of a block | those of its locals are free | nothing is known about them |
| a jump out of blocks | stay | on the way to the label nothing is known about theirs |
| edges that meet | stay | what both know is known |

So a slot that is used again tells nothing about the local that had it before.  This
is a discipline (`slotDiscipline`), so it holds on the whole way through a method.
-/

import ClassForge.Proofs.MethodSafety
import ClassForge.Proofs.Outline

namespace ClassForge

/-! ### Frames and contexts -/

theorem FieldType.verification_ne_uninitializedThis (type : FieldType) :
    (type.verification : FrameType) ≠ .uninitializedThis := by
  cases type with
  | base b => cases b <;> simp [FieldType.verification]
  | ref r => simp [FieldType.verification]

namespace Frame

/-- The frame knows about no slots but those of the context and those in front of them,
and about those of the context no more than their declared types. -/
structure Suits (f : Frame) (reserved : Nat) (Γ : Context) : Prop where
  length_le : f.locals.length ≤ reserved + Γ.length
  typed : ∀ (n : Nat) (id : LocalId) (type : FieldType) (t : FrameType), Γ[n]? = some (id, type) →
    f.locals[reserved + n]? = some t → t = .top ∨ t = type.verification

/-- What is known about slots is no more than what the slots in scope are declared to be. -/
structure Agrees (f : Frame) (slots : LocalSlots) : Prop where
  length_le : f.locals.length ≤ slots.next
  typed : ∀ (id : LocalId) (slot : UInt16) (type : FieldType),
    slots.lookup? id = some (slot, type) → f.locals[slot.toNat]? = none ∨
      f.locals[slot.toNat]? = some .top ∨ f.locals[slot.toNat]? = some type.verification

/-- Loading a local in scope gives its declared type, or fails because nothing is known
about its slot.  No kind of load gives anything else. -/
def LoadsDeclared (f : Frame) (slots : LocalSlots) : Prop :=
  ∀ (id : LocalId) (slot : UInt16) (type : FieldType), slots.lookup? id = some (slot, type) →
    ∀ n, (f.step n (.load type.kind slot) .none = .ok ⟨f.locals, type.verification :: f.stack⟩ ∨
        f.step n (.load type.kind slot) .none = .error (.invalidIndex slot)) ∧
      ∀ kind types g, f.step n (.load kind slot) types = .ok g →
        g = ⟨f.locals, type.verification :: f.stack⟩

variable {f g : Frame} {reserved : Nat} {Γ Γ' : Context}

/-- A frame that knows less suits as well. -/
theorem Suits.of_slotsHold (h : f.Suits reserved Γ) (hg : SlotsHold g.locals f.locals)
    (hlength : g.locals.length ≤ f.locals.length) : g.Suits reserved Γ where
  length_le := Nat.le_trans hlength h.length_le
  typed n id type t hn ht := (hg _ t ht).elim .inl (h.typed n id type t hn)

/-- Nothing is known about locals that are declared from now on. -/
theorem Suits.widen (h : f.Suits reserved Γ) : f.Suits reserved (Γ ++ Γ') where
  length_le := by
    have hlength := h.length_le
    rw [List.length_append]
    omega
  typed n id type t hn ht := by
    have hlt := (List.getElem?_eq_some_iff.1 ht).1
    have hlength := h.length_le
    refine h.typed n id type t ?_ ht
    rw [← hn, List.getElem?_append_left (by omega)]

/-- Without the slots behind those of a context the frame suits it. -/
theorem Suits.killLocals (h : f.Suits reserved (Γ ++ Γ')) :
    (f.killLocals (reserved + Γ.length)).Suits reserved Γ where
  length_le := by
    refine Nat.le_trans (length_trim_le _) ?_
    rw [List.length_take]
    exact Nat.min_le_left _ _
  typed n id type t hn ht := by
    have ht := getElem?_of_trim ht
    rw [List.getElem?_take] at ht
    split at ht
    · refine h.typed n id type t ?_ ht
      rw [List.getElem?_append_left (List.getElem?_eq_some_iff.1 hn).1, hn]
    · cases ht

theorem Suits.merge {m : Frame} (hf : f.Suits reserved Γ) (h : f.merge g = some m) :
    m.Suits reserved Γ := by
  refine hf.of_slotsHold ((accepts_iff _ _).1 (merge_accepts h).1).2 ?_
  obtain ⟨-, rfl⟩ := merge_eq_some h
  refine Nat.le_trans (length_trim_le _) ?_
  rw [List.length_zipWith]
  exact Nat.min_le_left _ _

/-- A more general type on the stack does not touch the slots. -/
theorem Suits.generalizeTop {type : FrameType} (hf : f.Suits reserved Γ)
    (h : f.generalizeTop type = .ok g) : g.Suits reserved Γ := by
  unfold Frame.generalizeTop at h
  split at h
  · cases h
  repeat' split at h
  · cases h
  · cases h
  · cases h
    exact ⟨hf.length_le, hf.typed⟩

/-- The object under construction is no value of a declared type. -/
theorem constructed_of_declared {receiver object t : FrameType} {type : FieldType}
    (hreceiver : receiver = .uninitializedThis ∨ ∃ origin, receiver = .uninitialized origin)
    (ht : t = .top ∨ t = type.verification) : constructed receiver object t = t := by
  refine if_neg ?_
  rintro rfl
  rcases hreceiver with rfl | ⟨origin, rfl⟩
  · rcases ht with ht | ht
    · cases ht
    · exact FieldType.verification_ne_uninitializedThis type ht.symm
  · rcases ht with ht | ht
    · cases ht
    · exact FieldType.verification_ne_uninitialized type origin ht.symm

/-- Only a store changes what is known about the slots of locals. -/
theorem Suits.step {n : Nat} {i : Instruction} {types : OperandTypes} (hf : f.Suits reserved Γ)
    (hi : i.opcode.effect.isStore = false) (h : f.step n i types = .ok g) : g.Suits reserved Γ := by
  cases effects_of_step h with
  | work => exact ⟨hf.length_le, hf.typed⟩
  | store heffect =>
    rw [heffect] at hi
    cases hi
  | construct heffect htypes hstack hreceiver =>
    refine ⟨?_, fun n id type t hn ht => ?_⟩
    · rw [List.length_map]
      exact hf.length_le
    · rw [List.getElem?_map, Option.map_eq_some_iff] at ht
      obtain ⟨u, hu, rfl⟩ := ht
      have hdeclared := hf.typed n id type u hn hu
      rwa [constructed_of_declared hreceiver hdeclared]

/-- A store makes known the declared type. -/
theorem Suits.store {n m : Nat} {id : LocalId} {slot : UInt16} {type : FieldType}
    (hf : f.Suits reserved Γ) (hn : Γ[n]? = some (id, type)) (hslot : slot.toNat = reserved + n)
    (h : f.step m (.store type.kind slot) (.value type.verification) = .ok g) :
    g.Suits reserved Γ := by
  obtain ⟨heffect, hslotOf⟩ := effect_store type.kind slot
  have hlt := (List.getElem?_eq_some_iff.1 hn).1
  cases effects_of_step h with
  | work hi =>
    rw [heffect] at hi
    cases hi
  | construct hi =>
    rw [heffect] at hi
    cases hi
  | store hi hslot' hstack =>
    rename_i kind slot' value rest
    have hsame : slot' = slot := by
      unfold slotOf at hslotOf
      rw [hslot'] at hslotOf
      cases hslotOf
      rfl
    subst hsame
    refine ⟨?_, fun k other declared t hk ht => ?_⟩
    · have hlength := hf.length_le
      rw [length_setLocal, hslot]
      omega
    · rw [getElem?_setLocal, hslot] at ht
      split at ht
      · rename_i heq
        obtain rfl : k = n := by omega
        cases hk.symm.trans hn
        cases ht
        exact .inr rfl
      · split at ht
        · exact hf.typed k other declared t hk ht
        · split at ht
          · cases ht
            exact .inl rfl
          · cases ht

end Frame

namespace LocalSlots.Models

variable {s : LocalSlots} {reserved first : Nat} {Γ : Context} {outer : List Scope} {f : Frame}

/-- A local in scope has the slot of its place in the context. -/
theorem place_of_lookup? (hs : s.Models reserved Γ first outer) {id : LocalId} {slot : UInt16}
    {type : FieldType} (h : s.lookup? id = some (slot, type)) :
    ∃ n, Γ[n]? = some (id, type) ∧ slot.toNat = reserved + n := by
  have hmem := hs.found id (by rw [h]; exact Option.some_ne_none _)
  obtain ⟨⟨id', type'⟩, hentry, rfl⟩ := List.mem_map.1 hmem
  obtain ⟨n, hn⟩ := List.mem_iff_getElem?.1 hentry
  have hfound := hs.finds n id' type' hn
  rw [h] at hfound
  cases hfound
  exact ⟨n, hn, (InSlots.of_models hs).toNat_slot (List.getElem?_eq_some_iff.1 hn).1⟩

/-- **What suits the context agrees with the slots.** -/
theorem agrees (hs : s.Models reserved Γ first outer) (hf : f.Suits reserved Γ) : f.Agrees s where
  length_le := hs.next ▸ hf.length_le
  typed id slot type h := by
    obtain ⟨n, hn, hslot⟩ := hs.place_of_lookup? h
    rw [hslot]
    cases ht : f.locals[reserved + n]? with
    | none => exact .inl rfl
    | some t =>
      rcases hf.typed n id type t hn ht with rfl | rfl
      · exact .inr (.inl rfl)
      · exact .inr (.inr rfl)

end LocalSlots.Models

/-! ### Loads -/

namespace Frame

/-- A slot about which nothing is known cannot be loaded. -/
theorem step_load_unknown {f : Frame} {slot : UInt16} (n : Nat) (kind : ValueKind)
    (types : OperandTypes)
    (h : f.locals[slot.toNat]? = none ∨ f.locals[slot.toNat]? = some .top) :
    f.step n (.load kind slot) types = .error (.invalidIndex slot) := by
  obtain ⟨heffect, hslotOf⟩ := effect_load kind slot
  unfold step
  rw [heffect, hslotOf]
  dsimp only [bind, Except.bind]
  rcases h with h | h <;> rw [h] <;> rfl

/-- A load that succeeds gives what is known about the slot. -/
theorem stack_of_step_load {f g : Frame} {slot : UInt16} {n : Nat} {kind : ValueKind}
    {types : OperandTypes} {t : FrameType} (ht : f.locals[slot.toNat]? = some t)
    (h : f.step n (.load kind slot) types = .ok g) : g = ⟨f.locals, t :: f.stack⟩ := by
  by_cases hkind : hasKind t kind = true
  · rw [show f = ⟨f.locals, f.stack⟩ from rfl, step_load ht hkind types] at h
    cases h
    rfl
  · obtain ⟨heffect, hslotOf⟩ := effect_load kind slot
    unfold step at h
    rw [heffect, hslotOf] at h
    dsimp only [bind, Except.bind] at h
    rw [ht] at h
    cases t with
    | top => cases h
    | integer | float | null | uninitializedThis | object | uninitialized =>
      dsimp only at h
      rw [if_neg hkind] at h
      cases h

/-- **In a frame that agrees with the slots, locals have their declared types.** -/
theorem Agrees.loadsDeclared {f : Frame} {slots : LocalSlots} (h : f.Agrees slots) :
    f.LoadsDeclared slots := by
  intro id slot type hlookup n
  rcases h.typed id slot type hlookup with hnone | htop | htype
  · refine ⟨.inr (step_load_unknown n _ _ (.inl hnone)), fun kind types g hg => ?_⟩
    rw [step_load_unknown n kind types (.inl hnone)] at hg
    cases hg
  · refine ⟨.inr (step_load_unknown n _ _ (.inr htop)), fun kind types g hg => ?_⟩
    rw [step_load_unknown n kind types (.inr htop)] at hg
    cases hg
  · exact ⟨.inl (step_load htype (conforms_verification type).hasKind .none),
      fun kind types g hg => stack_of_step_load htype hg⟩

end Frame

/-- **The frames suit the context** on the whole way. -/
def slotDiscipline (reserved : Nat) : Discipline where
  fits Γ first outer s := s.Models reserved Γ first outer
  scopes Γ first outer := ⟨reserved + first, ((Γ.drop first).map Prod.fst).reverse⟩ :: outer
  holds Γ _ f := f.Suits reserved Γ
  merges hf _ h := hf.merge h
  works hi hs hf := hf.step hi hs
  stores hs hlookup hstep hf := by
    obtain ⟨n, hn, hslot⟩ := hs.place_of_lookup? hlookup
    exact hf.store hn hslot hstep
  generalizes hg hf := hf.generalizeTop hg
  declares hs hid h := by
    refine (hs.declare (fun hmem => ?_) h).2.2
    rw [Context.declares_iff.2 hmem] at hid
    cases hid
  widens hf := hf.widen
  enters hs := hs.scopes ▸ hs.enter
  exits hs hs' := hs.exit (hs.scopes ▸ hs')
  drops hs hf := hs.next ▸ hf.killLocals

theorem flat_slotDiscipline (reserved : Nat) : (slotDiscipline reserved).Flat :=
  fun _ _ _ _ h => h

/-! ### Locals that are distinct are new where they are declared -/

mutual

/-- The locals that are declared in a statement, also inside others. -/
def Stmt.ids (s : Stmt) : List LocalId :=
  match s with
  | .declare id _ _ => [id]
  | .block body => Stmt.idsAll body
  | .branch _ thenBranch elseBranch => thenBranch.ids ++ Stmt.ids? elseBranch
  | .whileLoop _ _ body | .doWhileLoop _ body _ => body.ids
  | .forLoop _ init _ _ body => Stmt.idsAll init ++ body.ids
  | .expr _ | .breakLoop _ | .continueLoop _ | .returnValue _ | .construct _ _ => []

/-- The locals that are declared in statements one after the other. -/
def Stmt.idsAll (ss : List Stmt) : List LocalId :=
  match ss with
  | [] => []
  | s :: ss => s.ids ++ Stmt.idsAll ss

/-- The locals that are declared in a statement, unless it is missing. -/
def Stmt.ids? (s : Option Stmt) : List LocalId :=
  match s with
  | none => []
  | some s => s.ids

end

/-- The parameters of a method and all locals that are declared in it. -/
def MethodDecl.ids (m : MethodDecl) : List LocalId :=
  m.parameters.map Parameter.id ++ Stmt.idsAll m.body

/-- What a statement leaves declared is among what it declares at all. -/
theorem Stmt.declared_sublist (s : Stmt) : (s.declared.map Prod.fst).Sublist s.ids := by
  cases s with
  | declare id type initial =>
    rw [Stmt.ids]
    exact .refl _
  | expr | block | branch | whileLoop | doWhileLoop | forLoop | breakLoop | continueLoop
  | returnValue | construct => exact List.nil_sublist _

theorem Stmt.flatMap_declared_sublist (ss : List Stmt) :
    ((ss.flatMap Stmt.declared).map Prod.fst).Sublist (Stmt.idsAll ss) := by
  induction ss with
  | nil => exact List.nil_sublist _
  | cons s ss ih =>
    rw [List.flatMap_cons, List.map_append, Stmt.idsAll]
    exact s.declared_sublist.append ih

mutual

/-- A statement that declares no local twice, nor one that is in scope, is scoped. Two
blocks beside each other may well declare the same one, so this asks for more than is
needed. -/
theorem Stmt.isScoped_of_nodup (s : Stmt) (Γ : Context) (h : (Γ.map Prod.fst ++ s.ids).Nodup) :
    s.isScoped Γ = true := by
  match s with
  | .declare id type initial =>
    rw [Stmt.ids, List.nodup_append] at h
    rw [Stmt.isScoped, Bool.not_eq_true', Bool.eq_false_iff, Ne, Context.declares_iff]
    exact fun hmem => h.2.2 id hmem id List.mem_cons_self rfl
  | .block body =>
    rw [Stmt.ids] at h
    rw [Stmt.isScoped]
    exact Stmt.areScoped_of_nodup body Γ h
  | .branch condition thenBranch elseBranch =>
    rw [Stmt.ids] at h
    rw [Stmt.isScoped, Bool.and_eq_true]
    exact ⟨thenBranch.isScoped_of_nodup Γ
        (h.sublist ((List.sublist_append_left _ _).append_left _)),
      Stmt.isScoped?_of_nodup elseBranch Γ
        (h.sublist ((List.sublist_append_right _ _).append_left _))⟩
  | .whileLoop name condition body | .doWhileLoop name body condition =>
    rw [Stmt.ids] at h
    rw [Stmt.isScoped]
    exact body.isScoped_of_nodup Γ h
  | .forLoop name init condition update body =>
    rw [Stmt.ids] at h
    rw [Stmt.isScoped, Bool.and_eq_true]
    refine ⟨Stmt.areScoped_of_nodup init Γ
      (h.sublist ((List.sublist_append_left _ _).append_left _)), body.isScoped_of_nodup _ ?_⟩
    rw [List.map_append, List.append_assoc]
    exact h.sublist (((Stmt.flatMap_declared_sublist init).append_right _).append_left _)
  | .expr _ | .breakLoop _ | .continueLoop _ | .returnValue _ | .construct _ _ =>
    rw [Stmt.isScoped] <;> exact nofun

/-- The same for statements one after the other. -/
theorem Stmt.areScoped_of_nodup (ss : List Stmt) (Γ : Context)
    (h : (Γ.map Prod.fst ++ Stmt.idsAll ss).Nodup) : Stmt.areScoped Γ ss = true := by
  match ss with
  | [] => rw [Stmt.areScoped]
  | s :: ss =>
    rw [Stmt.idsAll] at h
    rw [Stmt.areScoped, Bool.and_eq_true]
    refine ⟨s.isScoped_of_nodup Γ (h.sublist ((List.sublist_append_left _ _).append_left _)),
      Stmt.areScoped_of_nodup ss _ ?_⟩
    rw [List.map_append, List.append_assoc]
    exact h.sublist ((s.declared_sublist.append_right _).append_left _)

/-- The same for a statement that may be missing. -/
theorem Stmt.isScoped?_of_nodup (s : Option Stmt) (Γ : Context)
    (h : (Γ.map Prod.fst ++ Stmt.ids? s).Nodup) : Stmt.isScoped? Γ s = true := by
  match s with
  | none => rw [Stmt.isScoped?]
  | some s =>
    rw [Stmt.ids?] at h
    rw [Stmt.isScoped?]
    exact s.isScoped_of_nodup Γ h

end

/-! ### Frames that are recorded -/

namespace Assembler

/-- The frame is kept for the label: it is what the edges to the label agree on, or what
a branch to it carries. -/
def RecordsAt (a : Assembler) (l : Label) (f : Frame) : Prop :=
  (∃ state, a.labels[l.index]? = some state ∧ state.frame = some f) ∨
    ∃ (n : Nat) (i : Instruction), a.instructions[n]? = some i ∧ i.referent = .jump l f

/-- A frame that is recorded at an instruction is that of a label that stands there. -/
def FramesLabelled (a : Assembler) : Prop :=
  ∀ (n : Nat) (f : Frame), a.placedFrames[n]? = some f →
    ∃ (l : Nat) (state : LabelState), a.labels[l]? = some state ∧ state.placed = some n ∧
      state.frame = some f

/-- At the start no frame is recorded. -/
theorem framesLabelled_start (pool : ConstantPool) (entry : Frame) :
    (start pool entry).FramesLabelled := by
  intro n f h
  simp [start] at h

variable {a b : Assembler}

/-- A change to one label keeps the frames of labels that are placed. -/
theorem exists_placed_of_set {t : Nat} {state new : LabelState}
    (ht : a.labels[t]? = some state) (hlabels : b.labels = a.labels.setIfInBounds t new)
    (hnew : ∀ n, state.placed = some n → new.placed = some n ∧ new.frame = state.frame)
    {n : Nat} {f : Frame} (h : ∃ (l : Nat) (s : LabelState), a.labels[l]? = some s ∧
      s.placed = some n ∧ s.frame = some f) :
    ∃ (l : Nat) (s : LabelState), b.labels[l]? = some s ∧ s.placed = some n ∧
      s.frame = some f := by
  obtain ⟨l, s, hl, hp, hf⟩ := h
  rw [hlabels]
  by_cases heq : l = t
  · subst heq
    obtain rfl : s = state := Option.some.inj (hl.symm.trans ht)
    obtain ⟨hp', hf'⟩ := hnew n hp
    exact ⟨l, new, Array.getElem?_setIfInBounds_self_of_lt (Array.getElem?_eq_some_iff.1 ht).1,
      hp', hf'.trans hf⟩
  · exact ⟨l, s, (Array.getElem?_setIfInBounds_ne (Ne.symm heq)).trans hl, hp, hf⟩

/-- **Every operation keeps it that recorded frames are those of labels.** A frame is
recorded only when a label is placed, or joined to one that is there. -/
theorem FramesLabelled.advances {o : Operation} (h : a.FramesLabelled) (ho : Advances o a b) :
    b.FramesLabelled := by
  cases ho with
  | label limit =>
    intro n f hf
    obtain ⟨l, state, hl, hrest⟩ := h n f hf
    have hlt := (Array.getElem?_eq_some_iff.1 hl).1
    exact ⟨l, state, (Array.getElem?_push_lt hlt).trans (Array.getElem?_eq_getElem hlt ▸ hl), hrest⟩
  | constant | drop | push | killLocals | noteLocals | generalize => exact h
  | jumpBack hc hs hl hp ht ha =>
    refine fun n f hf => exists_placed_of_set hl rfl ?_ (h n f hf)
    exact fun n hn => ⟨hn, rfl⟩
  | jumpAhead hc hs hl hp hj =>
    refine fun n f hf => exists_placed_of_set hl rfl (fun n hn => ?_) (h n f hf)
    rw [hp] at hn
    cases hn
  | place hl hp hj =>
    rename_i label state frame
    intro n f hf
    have hold (hf : a.placedFrames[n]? = some f) :=
      exists_placed_of_set (b := a.settle label state frame) hl rfl
        (fun n hn => by rw [hp] at hn; cases hn) (h n f hf)
    rw [getElem?_placedFrames_settle] at hf
    split at hf
    · rename_i hn
      cases frame with
      | none => exact hold hf
      | some m =>
        cases hf
        exact ⟨label.index, _, Array.getElem?_setIfInBounds_self_of_lt
          (Array.getElem?_eq_some_iff.1 hl).1, congrArg some hn.symm, rfl⟩
    · exact hold hf

theorem FramesLabelled.course {G : Nat → Frame → Prop} (h : a.FramesLabelled)
    (hab : a.Course G b) : b.FramesLabelled := by
  induction hab with
  | refl => exact h
  | constants _ pool ih => exact ih
  | step _ ho _ ih => exact ih.advances ho

end Assembler

/-! ### Methods -/

namespace Site

variable {site : Site}

/-- How things are when a method starts. -/
def standing (site : Site) : Standing where
  context := site.method.context
  first := 0
  outer := []
  marks := []
  level := 0

/-- Nothing is expected anywhere yet. -/
def world : World := ⟨0, 0, fun _ => ⟨[], 0, none⟩⟩

/-- On entry the types of the parameters are known. -/
theorem suits_entry (site : Site) : site.entry.Suits site.base.length site.method.context := by
  rw [entry_eq]
  refine ⟨Nat.le_of_eq Context.length_locals, fun n id type t hn ht => .inr ?_⟩
  change (site.method.context.locals site.base)[site.base.length + n]? = some t at ht
  rw [Context.locals, List.getElem?_append_right (Nat.le_add_right _ _), Nat.add_sub_cancel_left,
    List.getElem?_map, hn] at ht
  exact (Option.some.inj ht).symm

/-- **On entry everything is as the declarations say**: the slots are those of the
parameters, and no label has been made. -/
theorem met_start {slots : LocalSlots} (pool : ConstantPool)
    (hslots : slots.Models site.base.length site.method.context 0 []) :
    site.standing.Met (slotDiscipline site.base.length) world slots
      (Assembler.start pool site.entry) where
  fits := hslots
  meets := {
    base_le := Nat.zero_le _
    limits := fun l state hl => by simp [Assembler.start] at hl
    framed := fun l state f _ hl => by simp [Assembler.start] at hl
    carried := fun n i l f _ hi => by simp [Assembler.start] at hi }
  current f hf := by
    cases hf
    exact site.suits_entry
  marks m hm := absurd hm List.not_mem_nil

/-- The point at which a method starts. -/
def startPoint (site : Site) (slots : LocalSlots) (pool : ConstantPool) : Point :=
  ⟨slots, Assembler.start pool site.entry⟩

/-- **Slots and frames agree throughout a method.**  At the end of every stretch of its
code the current frame agrees with the slots, so locals have their declared types; every
frame that is kept for a label agrees with the slots where the label was made; and every
frame that is recorded at an instruction is that of a label. -/
theorem frames_agree_with_slots (site : Site) (slots : LocalSlots) (pool : ConstantPool)
    (hthis : ¬ (site.method.isStatic = true ∧ site.method.isConstructor = true))
    (hdistinct : site.method.ids.Nodup) (hslots : site.slots = .ok slots) :
    (site.entry.Agrees slots ∧ site.entry.LoadsDeclared slots) ∧
    ∀ r, site.outline.Visits site (site.startPoint slots pool) r →
      (∀ f, r.2.code.current = some f → f.Agrees r.2.slots ∧ f.LoadsDeclared r.2.slots) ∧
      (∀ l f, r.2.code.RecordsAt l f → ∃ made, site.outline.Visits site
        (site.startPoint slots pool) made ∧ made.1.code.labels.size ≤ l.index ∧
          l.index < made.2.code.labels.size ∧ f.Agrees made.2.slots) ∧
      ∀ (n : Nat) (f : Frame), r.2.code.placedFrames[n]? = some f →
        ∃ l, r.2.code.position l = some n ∧ r.2.code.RecordsAt l f := by
  have hparameters : (site.method.context.map Prod.fst ++ Stmt.idsAll site.method.body).Nodup := by
    simpa [MethodDecl.ids, MethodDecl.context, Function.comp_def] using hdistinct
  have hmodels := models_slots (List.nodup_append.1 hparameters).1 hslots
  rw [← length_base hthis] at hmodels
  have hmet := met_start pool hmodels
  obtain ⟨w, hw, hvisits, -⟩ := site.journey site.standing false
    (fun h => absurd h Bool.false_ne_true) (.inl (flat_slotDiscipline _))
    (.inr (Stmt.areScoped_of_nodup _ _ hparameters)) world (site.startPoint slots pool) hmet
  have hentry := hmodels.agrees site.suits_entry
  refine ⟨⟨hentry, hentry.loadsDeclared⟩, fun r hr => ?_⟩
  obtain ⟨⟨Q, hQ, -⟩, htraces, hcourse⟩ := hvisits r hr
  refine ⟨fun f hf => ?_, fun l f hf => ?_, fun n f hf => ?_⟩
  · have hagrees := hQ.fits.agrees (hQ.current f hf)
    exact ⟨hagrees, hagrees.loadsDeclared⟩
  · have hlands : l.index < r.2.code.labels.size ∧
        (slotDiscipline site.base.length).Lands (w.landing l.index) f := by
      rcases hf with ⟨state, hl, hframe⟩ | ⟨n, i, hi, hreferent⟩
      · exact ⟨(Array.getElem?_eq_some_iff.1 hl).1,
          hQ.meets.framed l.index state f (hw.base ▸ Nat.zero_le _) hl hframe⟩
      · exact hQ.meets.carried n i l f (hw.start ▸ Nat.zero_le _) hi hreferent
    obtain ⟨made, hmade, hle, hlt⟩ := htraces l.index (Nat.zero_le _) hlands.1
    obtain ⟨⟨M, hM, hcontext⟩, -⟩ := hvisits made hmade
    refine ⟨made, hmade, hle, hlt, hM.fits.agrees ?_⟩
    rw [← hcontext l.index hle hlt]
    exact hlands.2
  · obtain ⟨l, state, hl, hplaced, hframe⟩ :=
      (Assembler.framesLabelled_start pool site.entry).course hcourse n f hf
    refine ⟨⟨l⟩, ?_, .inl ⟨state, hl, hframe⟩⟩
    unfold Assembler.position
    rw [hl]
    exact hplaced

end Site

/-- Three locals one after the other in one slot.  The second one is known about where the
loop is left, and nothing is known about the third. -/
def reuse : MethodDecl where
  name := ⟨"reuse", by decide⟩
  flags := Sample.publicStatic
  parameters := [⟨⟨0⟩, .int⟩]
  returns := none
  body :=
    [.block [Sample.zeroed 1],
     .whileLoop none (Sample.compare .gt (Sample.var 0 .int) (Sample.int 0))
       (.block
         [.declare ⟨2⟩ .float (some (Sample.int 1)),
          .branch (Sample.compare .eq (Sample.var 0 .int) (Sample.int 1)) (.breakLoop none) none]),
     .declare ⟨3⟩ .int none]

/-- The method in the sample class. -/
def reuseSite : Site := ⟨{}, Sample.counter Sample.counterName, reuse⟩

/-- Behind the loop the third local has the slot, and it cannot be loaded. -/
theorem reuseSite_agrees :
    (¬ (reuseSite.method.isStatic = true ∧ reuseSite.method.isConstructor = true) ∧
      reuseSite.method.ids.Nodup) ∧
    ∃ slots r f, reuseSite.slots = .ok slots ∧
      reuseSite.outline.Visits reuseSite (reuseSite.startPoint slots .empty) r ∧
      r.2.code.current = some f ∧ r.2.slots.lookup? ⟨3⟩ = some (1, .int) ∧
      f.locals = [.integer] ∧ r.2.code.labels.size = 3 ∧ f.Agrees r.2.slots ∧
      f.step 0 (.load .int 1) .none = .error (.invalidIndex 1) := by
  have hthis : ¬ (reuseSite.method.isStatic = true ∧ reuseSite.method.isConstructor = true) := by
    decide
  have hdistinct : reuseSite.method.ids.Nodup := by decide
  have hlower : reuseSite.slots.toOption.any (fun slots =>
      (outcome? (Stmt.lowerAll reuseSite [] reuse.body slots
        (Assembler.start .empty reuseSite.entry))).any fun out =>
          out.2.current.any (fun f => f.locals = [.integer]) && out.2.labels.size = 3 &&
            out.1.2.lookup? ⟨3⟩ = some (1, .int)) = true := by decide +kernel
  obtain ⟨slots, hslots, hlower⟩ := exists_of_toOption hlower
  obtain ⟨⟨⟨⟩, slots'⟩, a, hok, htest⟩ := exists_of_outcome hlower
  have hsuper : reuseSite.callsSuper = false := by decide
  have hstart : reuseSite.lowerSuper.Moves (reuseSite.startPoint slots .empty) ()
      (reuseSite.startPoint slots .empty) := by
    unfold Site.lowerSuper
    rw [hsuper]
    rfl
  have hmoves : (Stmt.lowerAll reuseSite [] reuse.body).Moves (reuseSite.startPoint slots .empty)
      () ⟨slots', a⟩ := hok
  obtain ⟨p, hp⟩ := Stmt.exists_visits_of_moves hmoves
  have hvisit : reuseSite.outline.Visits reuseSite (reuseSite.startPoint slots .empty)
      (p, ⟨slots', a⟩) :=
    Outline.visits_step.2 (.inr ⟨(), _, hstart, .inl hp⟩)
  simp only [Bool.and_eq_true, decide_eq_true_eq, Option.any_eq_true] at htest
  obtain ⟨⟨⟨f, hf, hlocals⟩, hlabels⟩, hlookup⟩ := htest
  obtain ⟨hagrees, hloads⟩ := ((reuseSite.frames_agree_with_slots slots .empty hthis hdistinct
    hslots).2 _ hvisit).1 f hf
  refine ⟨⟨hthis, hdistinct⟩, slots, _, f, hslots, hvisit, hf, hlookup, hlocals, hlabels, hagrees,
    ?_⟩
  rcases (hloads ⟨3⟩ 1 .int hlookup 0).1 with hload | hload
  · rw [Frame.step_load_unknown 0 _ _ (.inl (by rw [hlocals]; rfl))] at hload
    cases hload
  · exact hload

end ClassForge
