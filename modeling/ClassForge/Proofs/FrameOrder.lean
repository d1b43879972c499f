/-
# The order of frames

Specification, section 10.6, *frame merging*.

`Frame.accepts` compares what is expected of the locals and the stack with what
is there: the stacks are the same, and a slot of which something is expected
holds exactly that (`Frame.accepts_iff`).  So it is a preorder, and what drops
knowledge goes up in it:

| frame | accepts |
| --- | --- |
| without the locals from a slot on | the frame itself |
| what two edges agree on | the frame of either edge |

An instruction that runs in a frame runs in every frame that it accepts, and the
frames behind it are again in that order (`Frame.step_mono`).  This is what makes
one simulation of an instruction stand for every execution that reaches it.
-/

import ClassForge.Assembler

namespace ClassForge
namespace Frame

/-! ### Locals without trailing `top`s -/

theorem isPrefix_trim (locals : List FrameType) : trim locals <+: locals := by
  unfold trim
  rw [← List.reverse_suffix, List.reverse_reverse]
  exact List.dropWhile_suffix _

theorem getElem?_of_trim {locals : List FrameType} {n : Nat} {t : FrameType}
    (h : (trim locals)[n]? = some t) : locals[n]? = some t := by
  obtain ⟨rest, hrest⟩ := isPrefix_trim locals
  have hn : n < (trim locals).length := (List.getElem?_eq_some_iff.1 h).1
  rw [← hrest, List.getElem?_append_left hn]
  exact h

/-! ### The order -/

/-- Every slot of which something is expected holds exactly that. -/
def SlotsHold (expected held : List FrameType) : Prop :=
  ∀ (n : Nat) (t : FrameType), expected[n]? = some t → t = .top ∨ held[n]? = some t

theorem slotsHold_cons (t : FrameType) (ts us : List FrameType) :
    SlotsHold (t :: ts) us ↔ (t = .top ∨ us[0]? = some t) ∧ SlotsHold ts us.tail := by
  constructor
  · intro h
    refine ⟨h 0 t rfl, fun n x hx => ?_⟩
    rw [List.getElem?_tail]
    exact h (n + 1) x hx
  · rintro ⟨h₀, h⟩ (_ | n) x hx
    · cases hx
      exact h₀
    · have := h n x hx
      rwa [List.getElem?_tail] at this

/-- The check that is computed slot by slot is the statement about all slots: each holds
what is expected of it. -/
theorem acceptsLocals_iff (ts us : List FrameType) :
    acceptsLocals ts us = true ↔ SlotsHold ts us := by
  induction ts generalizing us with
  | nil => simp [acceptsLocals, SlotsHold]
  | cons t ts ih =>
    rw [slotsHold_cons]
    cases us with
    | nil =>
      rw [acceptsLocals, Bool.and_eq_true, decide_eq_true_iff, ih]
      simp
    | cons u us =>
      rw [acceptsLocals, Bool.and_eq_true, Bool.or_eq_true, decide_eq_true_iff,
        decide_eq_true_iff, ih]
      simp [eq_comm]

theorem accepts_iff (f g : Frame) :
    f.accepts g = true ↔ f.stack = g.stack ∧ SlotsHold f.locals g.locals := by
  rw [accepts, Bool.and_eq_true, decide_eq_true_iff, acceptsLocals_iff]

theorem accepts_refl (f : Frame) : f.accepts f = true :=
  (accepts_iff f f).2 ⟨rfl, fun _ _ h => .inr h⟩

theorem accepts_trans {f g h : Frame} (hfg : f.accepts g = true) (hgh : g.accepts h = true) :
    f.accepts h = true := by
  rw [accepts_iff] at *
  refine ⟨hfg.1.trans hgh.1, fun n t ht => ?_⟩
  rcases hfg.2 n t ht with htop | hg
  · exact .inl htop
  · exact hgh.2 n t hg

/-- **Locals out of scope are not missed.** -/
theorem killLocals_accepts (f : Frame) (first : Nat) : (f.killLocals first).accepts f = true := by
  refine (accepts_iff _ _).2 ⟨rfl, fun n t ht => .inr ?_⟩
  have htake := getElem?_of_trim ht
  rw [List.getElem?_take] at htake
  split at htake
  · exact htake
  · cases htake

/-- What two edges agree on about the slots is what both of them know. -/
theorem getElem?_zipWith_meet {ts us : List FrameType} {n : Nat} {t : FrameType}
    (h : (List.zipWith meet ts us)[n]? = some t) :
    t = .top ∨ (ts[n]? = some t ∧ us[n]? = some t) := by
  rw [List.getElem?_zipWith] at h
  split at h
  · rename_i a b ha hb
    cases h
    unfold meet
    split
    · rename_i hab
      subst hab
      exact .inr ⟨ha, hb⟩
    · exact .inl rfl
  · cases h

theorem merge_eq_some {f g m : Frame} (h : f.merge g = some m) :
    f.stack = g.stack ∧ m = ⟨trim (List.zipWith meet f.locals g.locals), f.stack⟩ := by
  unfold merge at h
  split at h
  · rename_i hstack
    exact ⟨hstack, (Option.some.inj h).symm⟩
  · cases h

/-- **What two edges agree on accepts both of them.** -/
theorem merge_accepts {f g m : Frame} (h : f.merge g = some m) :
    m.accepts f = true ∧ m.accepts g = true := by
  obtain ⟨hstack, rfl⟩ := merge_eq_some h
  refine ⟨(accepts_iff _ _).2 ⟨rfl, fun n t ht => ?_⟩,
    (accepts_iff _ _).2 ⟨hstack, fun n t ht => ?_⟩⟩
  · exact (getElem?_zipWith_meet (getElem?_of_trim ht)).imp_right And.left
  · exact (getElem?_zipWith_meet (getElem?_of_trim ht)).imp_right And.right

/-! ### Instructions respect the order -/

/-- A slot that is replaced. -/
theorem getElem?_setLocal (locals : List FrameType) (slot n : Nat) (t : FrameType) :
    (setLocal locals slot t)[n]? =
      if n = slot then some t
      else if n < locals.length then locals[n]?
      else if n < slot then some .top else none := by
  unfold setLocal
  have hlen : slot < (locals ++ List.replicate (slot + 1 - locals.length)
      (VerificationType.top : FrameType)).length := by
    rw [List.length_append, List.length_replicate]
    omega
  by_cases hn : n = slot
  · subst hn
    rw [List.getElem?_set_self hlen, if_pos rfl]
  · rw [List.getElem?_set_ne (Ne.symm hn), if_neg hn, List.getElem?_append]
    split
    · rfl
    · rw [List.getElem?_replicate]
      by_cases hs : n < slot
      · rw [if_pos (by omega), if_pos hs]
      · rw [if_neg (by omega), if_neg hs]

/-- Replacing the same slot keeps the order of the locals. -/
theorem setLocal_mono {ts us : List FrameType} (h : SlotsHold ts us) (slot : Nat)
    (new : FrameType) : SlotsHold (setLocal ts slot new) (setLocal us slot new) := by
  intro n t ht
  rw [getElem?_setLocal] at ht ⊢
  split at ht
  · rename_i hn
    rw [if_pos hn]
    exact .inr ht
  · rename_i hn
    rw [if_neg hn]
    split at ht
    · rcases h n t ht with htop | hu
      · exact .inl htop
      · rw [if_pos (List.getElem?_eq_some_iff.1 hu).1]
        exact .inr hu
    · split at ht <;> cases ht
      exact .inl rfl

/-- The construction of an object keeps the order of the locals. -/
theorem constructed_mono {ts us : List FrameType} (h : SlotsHold ts us) {receiver : FrameType}
    (hr : receiver ≠ .top) (new : FrameType) :
    SlotsHold (ts.map (constructed receiver new)) (us.map (constructed receiver new)) := by
  intro n t ht
  rw [List.getElem?_map, Option.map_eq_some_iff] at ht
  obtain ⟨old, hold, rfl⟩ := ht
  rcases h n old hold with rfl | hu
  · exact .inl (if_neg (Ne.symm hr))
  · rw [List.getElem?_map, hu]
    exact .inr rfl

/-- An outcome that stands for another one: if it is a frame, the other one is a
frame that it accepts. -/
def Covers (x y : Except StepFault Frame) : Prop :=
  ∀ f, x = .ok f → ∃ g, y = .ok g ∧ f.accepts g = true

theorem covers_error (e : StepFault) (y : Except StepFault Frame) : Covers (.error e) y :=
  fun _ h => nomatch h

theorem covers_ok {f g : Frame} (h : f.accepts g = true) : Covers (.ok f) (.ok g) := by
  rintro _ ⟨⟩
  exact ⟨g, rfl, h⟩

theorem covers_bind {α : Type} (x : Except StepFault α) {k l : α → Except StepFault Frame}
    (h : ∀ a, Covers (k a) (l a)) : Covers (x >>= k) (x >>= l) := by
  cases x with
  | error e => exact covers_error e _
  | ok a => exact h a

/-- The effects that look at the stack alone do the same whatever the locals
are; loads, stores, increments and constructor calls also depend on them. -/
theorem step_covers (L M : List FrameType) (S : Stack) (h : SlotsHold L M)
    (id : Nat) (i : Instruction) (types : OperandTypes) :
    Covers (step ⟨L, S⟩ id i types) (step ⟨M, S⟩ id i types) := by
  have hstack : ∀ s : Stack, Covers (.ok ⟨L, s⟩) (.ok ⟨M, s⟩) := fun s =>
    covers_ok ((accepts_iff _ _).2 ⟨rfl, h⟩)
  unfold step
  cases i.opcode.effect with
  | loadLocal kind =>
    refine covers_bind _ fun slot => ?_
    cases hL : L[slot.toNat]? with
    | none => exact covers_error _ _
    | some t =>
      by_cases htop : t = .top
      · subst htop
        exact covers_error _ _
      · have hM : M[slot.toNat]? = some t := (h _ _ hL).resolve_left htop
        rw [hM]
        cases t with
        | top => exact absurd rfl htop
        | _ =>
          dsimp only
          split
          · exact hstack _
          · exact covers_error _ _
  | storeLocal kind =>
    refine covers_bind _ fun slot => covers_bind _ fun popped => ?_
    have hstore : ∀ t, Covers (.ok ⟨setLocal L slot.toNat t, popped.2⟩)
        (.ok ⟨setLocal M slot.toNat t, popped.2⟩) := fun t =>
      covers_ok ((accepts_iff _ _).2 ⟨rfl, setLocal_mono h slot.toNat t⟩)
    cases types with
    | value declared =>
      simp only
      split
      · exact hstore declared
      · exact covers_error _ _
    | _ => exact hstore popped.1
  | incrementLocal =>
    refine covers_bind _ fun slot => ?_
    simp only
    split
    · rename_i hint
      rw [if_pos ((h _ _ hint).resolve_left (by simp))]
      exact hstack S
    · exact covers_error _ _
  | invokeSpecial =>
    cases types with
    | constructor arguments type =>
      refine covers_bind _ fun below => covers_bind _ fun popped => ?_
      obtain ⟨receiver, rest⟩ := popped
      cases receiver with
      | uninitializedThis =>
        exact covers_ok ((accepts_iff _ _).2 ⟨rfl, constructed_mono h (by simp) _⟩)
      | uninitialized origin =>
        exact covers_ok ((accepts_iff _ _).2 ⟨rfl, constructed_mono h (by simp) _⟩)
      | _ => exact covers_error _ _
    | _ => exact covers_bind _ fun s => hstack s
  | _ =>
    -- what is left only takes types off the stack and puts types on it
    dsimp only
    repeat' first
      | exact hstack _
      | exact covers_error _ _
      | refine covers_bind _ fun _ => ?_
      | split

/-- **An instruction respects the order of frames.**  If it runs in a frame, it
runs in every frame that this one accepts, and the same holds of the frames
behind it. -/
theorem step_mono {f g f' : Frame} (h : f.accepts g = true) {id : Nat} {i : Instruction}
    {types : OperandTypes} (hstep : f.step id i types = .ok f') :
    ∃ g', g.step id i types = .ok g' ∧ f'.accepts g' = true := by
  obtain ⟨L, S⟩ := f
  obtain ⟨M, T⟩ := g
  obtain ⟨rfl, hlocals⟩ := (accepts_iff _ _).1 h
  exact step_covers L M S hlocals id i types f' hstep

end Frame

theorem LabelState.restrict_accepts (s : LabelState) (f : Frame) :
    (s.restrict f).accepts f = true := by
  unfold LabelState.restrict
  split
  · exact f.accepts_refl
  · exact f.killLocals_accepts _

end ClassForge
