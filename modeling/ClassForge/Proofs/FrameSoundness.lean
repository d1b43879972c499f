/-
# Frames hold on every execution path

Specification, sections 4.3 and 4.5: a frame is what holds at its offset.

The assembler keeps one frame per point, while executions of the finished body
loop and meet in any order.  The frames are sound nevertheless: on every path
from the entry, each instruction runs in the frame that the path arrives with,
and a frame that the body records accepts that frame (`Body.arrives_accepted`).

| at a point | what the assembler keeps accepts |
| --- | --- |
| an instruction | the frame behind the one above it, and of every branch to it |
| a label that is not yet placed | the frame of every branch to it so far |
| the current point | the frame behind the last instruction |

This is `Assembler.Sound`.  Every operation only goes up in the order of frames,
so it keeps these (`Sound.advances`), and an instruction that runs in a frame
runs in every frame that this one accepts.
-/

import ClassForge.Proofs.Operation

namespace ClassForge

namespace Operation

/-- The types given beside the instruction that an operation adds, unless it is
dropped. -/
def operandTypes (a : Assembler) : Operation → List OperandTypes
  | .push _ types => if a.isReachable then [types] else []
  | .branch .. => if a.isReachable then [.none] else []
  | _ => []

/-- The types given beside the instructions that operations add, one after the
other. -/
def allOperandTypes : Assembler → List Operation → List OperandTypes
  | _, [] => []
  | a, o :: os =>
    o.operandTypes a ++
      match o.run a with
      | .ok _ b => allOperandTypes b os
      | .error .. => []

/-- The frame at the instruction that an operation adds, unless it is dropped. -/
def addedFrames (a : Assembler) : Operation → List Frame
  | .push .. | .branch .. => a.current.toList
  | _ => []

theorem adds_nothing {a : Assembler} (hc : a.current = none) (o : Operation) :
    o.operandTypes a = [] ∧ o.addedFrames a = [] := by
  cases o <;> simp [operandTypes, addedFrames, Assembler.isReachable, hc]

theorem push_adds {a : Assembler} {f : Frame} (hc : a.current = some f) (i : Instruction)
    (types : OperandTypes) :
    (push i types).operandTypes a = [types] ∧ (push i types).addedFrames a = [f] := by
  simp [operandTypes, addedFrames, Assembler.isReachable, hc]

theorem branch_adds {a : Assembler} {f : Frame} (hc : a.current = some f) (op : Opcode)
    (target : Label) :
    (branch op target).operandTypes a = [.none] ∧ (branch op target).addedFrames a = [f] := by
  simp [operandTypes, addedFrames, Assembler.isReachable, hc]

/-- Does the operation keep the types that instructions yield? -/
def keepsTypes : Operation → Bool
  | .generalize _ => false
  | _ => true

end Operation

/-- The instructions that control can arrive at, each with the frame that one path
from the entry arrives with.  `types` are the types given beside the
instructions. -/
inductive Body.Arrives (b : Body) (types : List OperandTypes) : Nat → Frame → Prop where
  | entry : b.Arrives types 0 b.entry
  | next {n : Nat} {f f' : Frame} {i : Instruction} {t : OperandTypes}
    (h : b.Arrives types n f) (hi : b.instructions[n]? = some i) (ht : types[n]? = some t)
    (hs : f.step n i t = .ok f') (hu : i.opcode.effect.isUnconditional = false) :
    b.Arrives types (n + 1) f'
  | jump {n m : Nat} {f f' : Frame} {i : Instruction} {t : OperandTypes} {target : Label}
    (h : b.Arrives types n f) (hi : b.instructions[n]? = some i) (ht : types[n]? = some t)
    (hs : f.step n i t = .ok f') (hb : i.opcode.effect.isBranch = true)
    (hl : i.target? = some target) (hm : b.labels[target.index]? = some m) :
    b.Arrives types m f'

namespace Assembler

/-- The frames at the instructions, and at the current point. -/
def points (a : Assembler) (frames : List Frame) : List Frame := frames ++ a.current.toList

/-- Control may arrive at a point with the given frame. -/
def Admits (a : Assembler) (frames : List Frame) (n : Nat) (f : Frame) : Prop :=
  (∃ g, (a.points frames)[n]? = some g ∧ g.accepts f = true) ∧
    ∀ there, a.placedFrames[n]? = some there → there.accepts f = true

/-- Control may arrive at a label in the given state with the given frame. -/
def AdmitsAt (a : Assembler) (frames : List Frame) (state : LabelState) (f : Frame) : Prop :=
  match state.placed with
  | some n => a.Admits frames n f
  | none => ∃ g, state.frame = some g ∧ g.accepts f = true

/-- A branch may go to a label with the given frame. -/
def AdmitsBranch (a : Assembler) (frames : List Frame) (target : Label) (f : Frame) : Prop :=
  ∃ state, a.labels[target.index]? = some state ∧ state.jumpedTo = true ∧
    a.AdmitsAt frames state f

/-- What the frames `frames` at the instructions have to do with them: each
instruction runs in its frame, and wherever control goes from there, the frame
behind the instruction is accepted. -/
structure Sound (a : Assembler) (types : List OperandTypes) (frames : List Frame) : Prop where
  types_length : types.length = a.instructions.size
  frames_length : frames.length = a.instructions.size
  entry : a.Admits frames 0 a.entry
  placed : ∀ (n : Nat) (there : Frame), a.placedFrames[n]? = some there →
    ∃ g, (a.points frames)[n]? = some g ∧ g.accepts there = true
  runs : ∀ (n : Nat) (i : Instruction), a.instructions[n]? = some i →
    ∃ t f f', types[n]? = some t ∧ frames[n]? = some f ∧ f.step n i t = .ok f' ∧
      (i.opcode.effect.isUnconditional = false → a.Admits frames (n + 1) f') ∧
      (i.opcode.effect.isBranch = true →
        ∃ target, i.target? = some target ∧ a.AdmitsBranch frames target f')

variable {a b : Assembler} {types : List OperandTypes} {frames frames' : List Frame}

theorem sound_start (pool : ConstantPool) (entry : Frame) : (start pool entry).Sound [] [] where
  types_length := rfl
  frames_length := rfl
  entry := ⟨⟨entry, rfl, entry.accepts_refl⟩, fun there h => by simp [start] at h⟩
  placed n there h := by simp [start] at h
  runs n i h := by simp [start] at h

theorem Admits.mono {n : Nat} {f g : Frame} (h : a.Admits frames n f) (hfg : f.accepts g = true) :
    a.Admits frames n g := by
  obtain ⟨⟨p, hp, hpf⟩, hplaced⟩ := h
  exact ⟨⟨p, hp, Frame.accepts_trans hpf hfg⟩, fun there ht =>
    Frame.accepts_trans (hplaced there ht) hfg⟩

theorem admitsAt_placed {state : LabelState} {n : Nat} (h : state.placed = some n) {f : Frame} :
    a.AdmitsAt frames state f ↔ a.Admits frames n f := by
  rw [AdmitsAt, h]

theorem admitsAt_unplaced {state : LabelState} (h : state.placed = none) {f : Frame} :
    a.AdmitsAt frames state f ↔ ∃ g, state.frame = some g ∧ g.accepts f = true := by
  rw [AdmitsAt, h]

/-- A label that admits a frame admits every frame that knows more. -/
theorem AdmitsAt.mono {state : LabelState} {f g : Frame} (h : a.AdmitsAt frames state f)
    (hfg : f.accepts g = true) : a.AdmitsAt frames state g := by
  unfold AdmitsAt at *
  split at h
  · exact h.mono hfg
  · obtain ⟨p, hp, hpf⟩ := h
    exact ⟨p, hp, Frame.accepts_trans hpf hfg⟩

/-- What may arrive at a point or at a label before may arrive there after. -/
structure Keeps (a : Assembler) (frames : List Frame) (b : Assembler) (frames' : List Frame) :
    Prop where
  points : ∀ n f, a.Admits frames n f → b.Admits frames' n f
  labels : ∀ target f, a.AdmitsBranch frames target f → b.AdmitsBranch frames' target f

/-- Frames only go up, and so does what is recorded at a point. -/
theorem admits_of_points
    (hpoints : ∀ (n : Nat) (g : Frame), (a.points frames)[n]? = some g →
      ∃ g', (b.points frames')[n]? = some g' ∧ g'.accepts g = true)
    (hplaced : ∀ (n : Nat) (there : Frame), b.placedFrames[n]? = some there →
      a.placedFrames[n]? = some there ∨
        ∀ g, (a.points frames)[n]? = some g → there.accepts g = true)
    (n : Nat) (f : Frame) (h : a.Admits frames n f) : b.Admits frames' n f := by
  obtain ⟨⟨g, hg, hgf⟩, hold⟩ := h
  obtain ⟨g', hg', hgg'⟩ := hpoints n g hg
  refine ⟨⟨g', hg', Frame.accepts_trans hgg' hgf⟩, fun there ht => ?_⟩
  rcases hplaced n there ht with hsame | hnew
  · exact hold there hsame
  · exact Frame.accepts_trans (hnew g hg) hgf

/-- The same labels, at points that admit at least as much. -/
theorem keeps_of_labels (hlabels : b.labels = a.labels)
    (hpoints : ∀ n f, a.Admits frames n f → b.Admits frames' n f) : Keeps a frames b frames' where
  points := hpoints
  labels target f := by
    rintro ⟨state, hs, hj, h⟩
    refine ⟨state, hlabels ▸ hs, hj, ?_⟩
    unfold AdmitsAt at *
    split at h
    · exact hpoints _ _ h
    · exact h

/-! ### Operations that add no instruction -/

/-- The frame at the current point only goes up. -/
theorem points_mono (frames : List Frame)
    (h : ∀ f, a.current = some f → ∃ f', b.current = some f' ∧ f'.accepts f = true)
    (n : Nat) (g : Frame) (hg : (a.points frames)[n]? = some g) :
    ∃ g', (b.points frames)[n]? = some g' ∧ g'.accepts g = true := by
  unfold points at *
  rw [List.getElem?_append] at *
  split
  · rename_i hn
    rw [if_pos hn] at hg
    exact ⟨g, hg, g.accepts_refl⟩
  · rename_i hn
    rw [if_neg hn] at hg
    cases hc : a.current with
    | none =>
      rw [hc] at hg
      cases hg
    | some f =>
      obtain ⟨f', hf', haccepts⟩ := h f hc
      rw [hc] at hg
      obtain ⟨hlt, rfl⟩ := List.getElem?_eq_some_iff.1 hg
      rw [hf']
      have hzero : n - frames.length = 0 := by simpa using hlt
      simp only [hzero, Option.toList_some, List.getElem_cons_zero]
      exact ⟨f', rfl, haccepts⟩

/-- Nothing is added, and nothing that could arrive is refused. -/
theorem Sound.of_keeps (hs : a.Sound types frames) (hk : Keeps a frames b frames)
    (hinstructions : b.instructions = a.instructions) (hentry : b.entry = a.entry)
    (hplaced : ∀ (n : Nat) (there : Frame), b.placedFrames[n]? = some there →
      ∃ g, (b.points frames)[n]? = some g ∧ g.accepts there = true) : b.Sound types frames where
  types_length := hinstructions ▸ hs.types_length
  frames_length := hinstructions ▸ hs.frames_length
  entry := hentry ▸ hk.points _ _ hs.entry
  placed := hplaced
  runs n i hi := by
    obtain ⟨t, f, f', ht, hf, hstep, hnext, hjump⟩ := hs.runs n i (hinstructions ▸ hi)
    refine ⟨t, f, f', ht, hf, hstep, fun hu => hk.points _ _ (hnext hu), fun hb => ?_⟩
    obtain ⟨target, htarget, hadmits⟩ := hjump hb
    exact ⟨target, htarget, hk.labels _ _ hadmits⟩

/-- Where frames only go up, those that are recorded stay accepted. -/
theorem Sound.placed_mono (hs : a.Sound types frames)
    (hplaced : b.placedFrames = a.placedFrames)
    (hpoints : ∀ (n : Nat) (g : Frame), (a.points frames)[n]? = some g →
      ∃ g', (b.points frames')[n]? = some g' ∧ g'.accepts g = true)
    (n : Nat) (there : Frame) (h : b.placedFrames[n]? = some there) :
    ∃ g, (b.points frames')[n]? = some g ∧ g.accepts there = true := by
  obtain ⟨g, hg, haccepts⟩ := hs.placed n there (hplaced ▸ h)
  obtain ⟨g', hg', hgg'⟩ := hpoints n g hg
  exact ⟨g', hg', Frame.accepts_trans hgg' haccepts⟩

/-- The frame at the current point may be made weaker. -/
theorem Sound.weaken (hs : a.Sound types frames) (hinstructions : b.instructions = a.instructions)
    (hentry : b.entry = a.entry) (hlabels : b.labels = a.labels)
    (hplaced : b.placedFrames = a.placedFrames)
    (hcurrent : ∀ f, a.current = some f → ∃ f', b.current = some f' ∧ f'.accepts f = true) :
    b.Sound types frames := by
  have hpoints := points_mono frames hcurrent
  refine hs.of_keeps (keeps_of_labels hlabels fun n f => ?_) hinstructions hentry
    (hs.placed_mono hplaced hpoints)
  exact admits_of_points hpoints (fun n there h => .inl (hplaced ▸ h)) n f

/-- A new label admits nothing yet. -/
theorem Sound.label (hs : a.Sound types frames) (limit : Option Nat) :
    { a with labels := a.labels.push { limit } }.Sound types frames := by
  refine hs.of_keeps ⟨fun n f h => h, ?_⟩ rfl rfl hs.placed
  rintro target f ⟨state, hstate, hj, h⟩
  refine ⟨state, ?_, hj, h⟩
  have hlt := (Array.getElem?_eq_some_iff.1 hstate).1
  rw [Array.getElem?_push, if_neg (by omega)]
  exact hstate

theorem getElem?_points_size (h : frames.length = b.instructions.size) :
    (b.points frames)[b.instructions.size]? = b.current := by
  unfold points
  rw [← h, List.getElem?_append_right Nat.le.refl, Nat.sub_self]
  cases b.current <;> rfl

/-- The labels other than the one that is changed admit what they did. -/
theorem keeps_of_set {target : Label} {old new : LabelState}
    (hpoints : ∀ n f, a.Admits frames n f → b.Admits frames' n f)
    (hold : a.labels[target.index]? = some old)
    (hlabels : b.labels = a.labels.setIfInBounds target.index new)
    (hj : old.jumpedTo = true → new.jumpedTo = true)
    (hnew : ∀ f, old.jumpedTo = true → a.AdmitsAt frames old f → b.AdmitsAt frames' new f) :
    Keeps a frames b frames' where
  points := hpoints
  labels l f := by
    rintro ⟨state, hstate, hjumped, h⟩
    unfold AdmitsBranch
    rw [hlabels, Array.getElem?_setIfInBounds]
    by_cases hl : target.index = l.index
    · rw [if_pos hl, if_pos (hl ▸ (Array.getElem?_eq_some_iff.1 hold).1)]
      rw [← hl, hold] at hstate
      cases hstate
      exact ⟨new, rfl, hj hjumped, hnew f hjumped h⟩
    · rw [if_neg hl]
      refine ⟨state, hstate, hjumped, ?_⟩
      unfold AdmitsAt at *
      split at h
      · exact hpoints _ _ h
      · exact h

/-- The frames that are recorded once a label is placed. -/
theorem getElem?_placedFrames_settle (a : Assembler) (label : Label) (state : LabelState)
    (frame : Option Frame) (n : Nat) :
    (a.settle label state frame).placedFrames[n]? =
      if n = a.instructions.size then frame.or a.placedFrames[n]? else a.placedFrames[n]? := by
  unfold Assembler.settle
  cases frame with
  | none => simp
  | some m =>
    dsimp only
    rw [Std.TreeMap.getElem?_insert]
    simp only [Nat.compare_eq_eq, eq_comm (a := n), Option.some_or]

/-- The frame of a label that is placed accepts the code above and all branches to
it so far. -/
theorem Sound.settle (hs : a.Sound types frames) {label : Label} {state : LabelState}
    {frame : Option Frame} (hl : a.labels[label.index]? = some state)
    (hp : state.placed = none) (hj : Joins (a.current.map state.restrict) state.frame frame) :
    (a.settle label state frame).Sound types frames := by
  have hcurrent : ∀ f, a.current = some f → ∃ m, frame = some m ∧ m.accepts f = true := by
    intro f hf
    obtain ⟨m, hm, haccepts⟩ := hj.accepts_left (f := state.restrict f) (by rw [hf]; rfl)
    exact ⟨m, hm, Frame.accepts_trans haccepts (state.restrict_accepts f)⟩
  have hpoints := points_mono (b := a.settle label state frame) frames hcurrent
  have hadmits : ∀ n f, a.Admits frames n f → (a.settle label state frame).Admits frames n f := by
    refine admits_of_points hpoints fun n there h => ?_
    rw [getElem?_placedFrames_settle] at h
    split at h
    · rename_i hn
      cases frame with
      | none => exact .inl h
      | some m =>
        refine .inr fun g hg => ?_
        rw [hn, getElem?_points_size hs.frames_length] at hg
        obtain ⟨m', hm, haccepts⟩ := hcurrent g hg
        cases hm
        cases h
        exact haccepts
    · exact .inl h
  have hsize := getElem?_points_size (b := a.settle label state frame) hs.frames_length
  refine hs.of_keeps (keeps_of_set hadmits hl rfl id fun f _ hf => ?_) rfl rfl fun n there h => ?_
  · obtain ⟨g, hg, hgf⟩ := (admitsAt_unplaced hp).1 hf
    obtain ⟨m, hm, haccepts⟩ := hj.accepts_right hg
    have hmf := Frame.accepts_trans haccepts hgf
    refine ⟨⟨m, hsize.trans hm, hmf⟩, fun there h => ?_⟩
    rw [getElem?_placedFrames_settle, if_pos rfl, hm] at h
    cases h
    exact hmf
  · rw [getElem?_placedFrames_settle] at h
    have hold : a.placedFrames[n]? = some there →
        ∃ g, ((a.settle label state frame).points frames)[n]? = some g ∧
          g.accepts there = true := by
      intro hold
      obtain ⟨g, hg, haccepts⟩ := hs.placed n there hold
      obtain ⟨g', hg', hgg'⟩ := hpoints n g hg
      exact ⟨g', hg', Frame.accepts_trans hgg' haccepts⟩
    split at h
    · rename_i hn
      cases frame with
      | none => exact hold h
      | some m =>
        cases h
        exact ⟨there, hn ▸ hsize, there.accepts_refl⟩
    · exact hold h

/-! ### Operations that add an instruction -/

variable {f next : Frame} {i : Instruction} {t : OperandTypes}

/-- The current point becomes that of the new instruction. -/
theorem points_concat (hc : a.current = some f) (n : Nat) (g : Frame)
    (hg : (a.points frames)[n]? = some g) :
    ∃ g', (b.points (frames ++ [f]))[n]? = some g' ∧ g'.accepts g = true := by
  unfold points at *
  rw [hc, Option.toList_some] at hg
  refine ⟨g, ?_, g.accepts_refl⟩
  rw [List.getElem?_append_left (List.getElem?_eq_some_iff.1 hg).1]
  exact hg

theorem admits_concat (hc : a.current = some f) (hplaced : b.placedFrames = a.placedFrames)
    (n : Nat) (g : Frame) (h : a.Admits frames n g) : b.Admits (frames ++ [f]) n g :=
  admits_of_points (points_concat hc) (fun _ _ ht => .inl (hplaced ▸ ht)) n g h

/-- The frame behind a new instruction is admitted at the current point. -/
theorem Sound.admits_next (hs : a.Sound types frames)
    (hsize : b.instructions.size = a.instructions.size + 1)
    (hplaced : b.placedFrames = a.placedFrames) (hcurrent : b.current = some next) :
    b.Admits (frames ++ [f]) (a.instructions.size + 1) next := by
  constructor
  · refine ⟨next, ?_, next.accepts_refl⟩
    rw [← hsize, getElem?_points_size (by simp [hsize, hs.frames_length]), hcurrent]
  · intro there ht
    obtain ⟨g, hg, -⟩ := hs.placed _ there (hplaced ▸ ht)
    have hlt := (List.getElem?_eq_some_iff.1 hg).1
    have hone : a.current.toList.length ≤ 1 := by cases a.current <;> simp
    rw [points, List.length_append, hs.frames_length] at hlt
    omega

/-- A new instruction that runs in the current frame. -/
theorem Sound.concat (hs : a.Sound types frames) (hc : a.current = some f)
    (hstep : f.step a.instructions.size i t = .ok next)
    (hk : Keeps a frames b (frames ++ [f]))
    (hinstructions : b.instructions = a.instructions.push i) (hentry : b.entry = a.entry)
    (hplaced : b.placedFrames = a.placedFrames)
    (hcurrent : i.opcode.effect.isUnconditional = false → b.current = some next)
    (hjump : i.opcode.effect.isBranch = true →
      ∃ target, i.target? = some target ∧ b.AdmitsBranch (frames ++ [f]) target next) :
    b.Sound (types ++ [t]) (frames ++ [f]) where
  types_length := by simp [hinstructions, hs.types_length]
  frames_length := by simp [hinstructions, hs.frames_length]
  entry := hentry ▸ hk.points _ _ hs.entry
  placed := hs.placed_mono hplaced (points_concat hc)
  runs n j hj := by
    rw [hinstructions, Array.getElem?_push] at hj
    split at hj
    · rename_i hn
      subst hn
      cases hj
      refine ⟨t, f, next, ?_, ?_, hstep, fun hu => ?_, hjump⟩
      · rw [← hs.types_length, List.getElem?_concat_length]
      · rw [← hs.frames_length, List.getElem?_concat_length]
      · exact hs.admits_next (by simp [hinstructions]) hplaced (hcurrent hu)
    · obtain ⟨u, g, g', hu, hg, hstep, hnext, hjump⟩ := hs.runs n j hj
      refine ⟨u, g, g', ?_, ?_, hstep, fun hu => hk.points _ _ (hnext hu), fun hb => ?_⟩
      · rw [List.getElem?_append_left (List.getElem?_eq_some_iff.1 hu).1]
        exact hu
      · rw [List.getElem?_append_left (List.getElem?_eq_some_iff.1 hg).1]
        exact hg
      · obtain ⟨target, htarget, hadmits⟩ := hjump hb
        exact ⟨target, htarget, hk.labels _ _ hadmits⟩

theorem step_branch (f g : Frame) (n : Nat) (op : Opcode) (target : Label) (t : OperandTypes) :
    f.step n (.branch op target g) t = f.step n (.branch op target .empty) t := rfl

/-- A branch whose label admits the frame behind it. -/
theorem Sound.pushJump (hs : a.Sound types frames) {op : Opcode} {target : Label}
    {old new : LabelState} (hc : a.current = some f)
    (hstep : f.step a.instructions.size (.branch op target .empty) .none = .ok next)
    (hold : a.labels[target.index]? = some old) (hj : new.jumpedTo = true)
    (hb : b = pushJump op target next (old.restrict next)
      { a with current := some next, labels := a.labels.setIfInBounds target.index new })
    (hkeep : ∀ g, a.AdmitsAt frames old g → b.AdmitsAt (frames ++ [f]) new g)
    (hadmits : b.AdmitsAt (frames ++ [f]) new next) :
    b.Sound (types ++ [.none]) (frames ++ [f]) := by
  have hlabels : b.labels = a.labels.setIfInBounds target.index new := by rw [hb]; rfl
  have hplaced : b.placedFrames = a.placedFrames := by rw [hb]; rfl
  have hk : Keeps a frames b (frames ++ [f]) :=
    keeps_of_set (admits_concat hc hplaced) hold hlabels (fun _ => hj) fun g _ => hkeep g
  refine hs.concat (i := .branch op target (old.restrict next)) hc (step_branch .. ▸ hstep) hk
    (by rw [hb]; rfl) (by rw [hb]; rfl) hplaced (fun hu => ?_) fun _ => ?_
  · have hgoto : op.effect ≠ .goto := by
      intro hgoto
      rw [show (Instruction.branch op target _).opcode = op from rfl, hgoto] at hu
      cases hu
    rw [hb]
    exact if_neg hgoto
  · refine ⟨target, rfl, new, ?_, hj, hadmits⟩
    rw [hlabels]
    exact Array.getElem?_setIfInBounds_self_of_lt (Array.getElem?_eq_some_iff.1 hold).1

/-- **What one operation keeps.**  The frames are sound after every operation that
keeps the types of values, with the frame of a new instruction among them. -/
theorem Sound.advances (hs : a.Sound types frames) {o : Operation} (ho : o.keepsTypes = true)
    (h : Advances o a b) : b.Sound (types ++ o.operandTypes a) (frames ++ o.addedFrames a) := by
  have hsame (htypes : o.operandTypes a = []) (hframes : o.addedFrames a = [])
      (hb : b.Sound types frames) :
      b.Sound (types ++ o.operandTypes a) (frames ++ o.addedFrames a) := by
    rwa [htypes, hframes, List.append_nil, List.append_nil]
  cases h with
  | label limit => exact hsame rfl rfl (hs.label limit)
  | constant =>
    exact hsame rfl rfl (hs.weaken rfl rfl rfl rfl fun f hf => ⟨f, hf, f.accepts_refl⟩)
  | noteLocals =>
    exact hsame rfl rfl (hs.weaken rfl rfl rfl rfl fun f hf => ⟨f, hf, f.accepts_refl⟩)
  | killLocals first =>
    refine hsame rfl rfl (hs.weaken rfl rfl rfl rfl fun f hf => ?_)
    exact ⟨f.killLocals first, by simp only [hf, Option.map_some], f.killLocals_accepts first⟩
  | drop hneeds hc =>
    obtain ⟨htypes, hframes⟩ := o.adds_nothing hc
    exact hsame htypes hframes hs
  | generalize => cases ho
  | place hl hp hj => exact hsame rfl rfl (hs.settle hl hp hj)
  | @push i t _ f next hc hi hstep =>
    rw [(Operation.push_adds hc i t).1, (Operation.push_adds hc i t).2]
    refine hs.concat hc hstep (keeps_of_labels rfl (admits_concat hc rfl)) rfl rfl rfl
      (fun hu => by simp [hu]) fun hb => ?_
    rw [hi] at hb
    cases hb
  | @jumpBack op target _ f next there state index hc hstep hl hp hthere haccepts =>
    rw [(Operation.branch_adds hc op target).1, (Operation.branch_adds hc op target).2]
    refine hs.pushJump hc hstep hl rfl rfl (fun g hg => ?_) ?_
    · refine (admitsAt_placed (n := index) ?_).2 ?_
      · exact hp
      · refine admits_concat hc ?_ _ _ ((admitsAt_placed hp).1 hg)
        rfl
    · have hnext := Frame.accepts_trans haccepts (state.restrict_accepts next)
      obtain ⟨g, hg, hgthere⟩ := hs.placed index there hthere
      have hadmits : a.Admits frames index next :=
        ⟨⟨g, hg, Frame.accepts_trans hgthere hnext⟩, fun there' h' => by
          rw [hthere] at h'
          cases h'
          exact hnext⟩
      refine (admitsAt_placed (n := index) ?_).2 ?_
      · exact hp
      · refine admits_concat hc ?_ _ _ hadmits
        rfl
  | @jumpAhead op target _ f next there state hc hstep hl hp hjoin =>
    rw [(Operation.branch_adds hc op target).1, (Operation.branch_adds hc op target).2]
    refine hs.pushJump hc hstep hl rfl rfl (fun g hg => ?_) ?_
    · obtain ⟨h, hh, hhg⟩ := (admitsAt_unplaced hp).1 hg
      obtain ⟨m, hm, hmh⟩ := hjoin.accepts_left hh
      refine (admitsAt_unplaced ?_).2 ⟨m, hm, Frame.accepts_trans hmh hhg⟩
      exact hp
    · obtain ⟨m, hm, haccepts⟩ := hjoin.accepts_right rfl
      have hnext := Frame.accepts_trans haccepts (state.restrict_accepts next)
      refine (admitsAt_unplaced ?_).2 ⟨m, hm, hnext⟩
      exact hp

end Assembler

/-- An invariant that also follows the types and the frames of the instructions holds
wherever operations lead. -/
theorem Operation.runAll_induct_frames
    {P : Assembler → List OperandTypes → List Frame → Prop} {os : List Operation}
    {a b : Assembler} {types : List OperandTypes} {frames : List Frame}
    (hrun : runAll os a = .ok () b) (ha : P a types frames)
    (hstep : ∀ o ∈ kept a os, ∀ x y ts fs, Advances o x y → P x ts fs →
      P y (ts ++ o.operandTypes x) (fs ++ o.addedFrames x)) :
    ∃ more, P b (types ++ allOperandTypes a os) (frames ++ more) := by
  induction os generalizing a types frames with
  | nil =>
    cases hrun
    exact ⟨[], by simpa [allOperandTypes] using ha⟩
  | cons o os ih =>
    obtain ⟨c, ho, hrest⟩ := runAll_cons.1 hrun
    unfold allOperandTypes
    rw [run_eq_ok.2 ho]
    rcases kept_cons ho os with ⟨rfl, hcurrent, hkept⟩ | hkept
    · rw [(adds_nothing hcurrent o).1]
      exact ih hrest ha (hkept ▸ hstep)
    · rw [hkept] at hstep
      have hc := hstep o List.mem_cons_self a c types frames ho ha
      obtain ⟨rest, hb⟩ := ih hrest hc fun p hp => hstep p (List.mem_cons_of_mem o hp)
      refine ⟨o.addedFrames a ++ rest, ?_⟩
      rw [← List.append_assoc, ← List.append_assoc]
      exact hb

/-- **A sequence of operations keeps the frames sound.** -/
theorem Assembler.Sound.runAll {a b : Assembler} {types : List OperandTypes}
    {frames : List Frame} {os : List Operation} (hs : a.Sound types frames)
    (hos : ∀ o ∈ os, o.keepsTypes = true) (h : Operation.runAll os a = .ok () b) :
    ∃ more, b.Sound (types ++ Operation.allOperandTypes a os) (frames ++ more) :=
  Operation.runAll_induct_frames h hs fun o ho _ _ _ _ hstep hx =>
    hx.advances (hos o (Operation.mem_of_mem_kept ho)) hstep

/-! ### Paths through the finished body -/

namespace Body

open Assembler

variable {a : Assembler} {b : Body} {types : List OperandTypes} {frames : List Frame}

/-- An instruction runs in every frame that is admitted at it, and where control
goes from there, the frame behind it is admitted. -/
theorem runs_of_admits (hs : a.Sound types frames) {n : Nat} {f : Frame} {i : Instruction}
    (hi : a.instructions[n]? = some i) (hf : a.Admits frames n f) :
    ∃ t f', types[n]? = some t ∧ f.step n i t = .ok f' ∧
      (i.opcode.effect.isUnconditional = false → a.Admits frames (n + 1) f') ∧
      (i.opcode.effect.isBranch = true →
        ∃ target, i.target? = some target ∧ a.AdmitsBranch frames target f') := by
  obtain ⟨t, g, g', ht, hg, hstep, hnext, hjump⟩ := hs.runs n i hi
  obtain ⟨⟨p, hp, hpf⟩, -⟩ := hf
  rw [points, List.getElem?_append_left (List.getElem?_eq_some_iff.1 hg).1, hg] at hp
  cases hp
  obtain ⟨f', hf', haccepts⟩ := Frame.step_mono hpf hstep
  refine ⟨t, f', ht, hf', fun hu => (hnext hu).mono haccepts, fun hb => ?_⟩
  obtain ⟨target, htarget, state, hstate, hj, hadmits⟩ := hjump hb
  exact ⟨target, htarget, state, hstate, hj, hadmits.mono haccepts⟩

/-- In a finished body a branch goes to an instruction, where its frame is
admitted. -/
theorem admits_target (hb : a.finish = .ok b) {target : Label} {f : Frame}
    (h : a.AdmitsBranch frames target f) :
    ∃ m, b.labels[target.index]? = some m ∧ m < a.instructions.size ∧ a.Admits frames m f := by
  obtain ⟨-, hdescribes, -⟩ := finish_eq_ok hb
  obtain ⟨state, hstate, hj, hadmits⟩ := h
  have hmem : state ∈ a.labels.toList := Array.mem_toList_iff.2 (Array.mem_of_getElem? hstate)
  obtain ⟨m, there, hm, hlt, -⟩ := hdescribes.branched state hmem hj
  refine ⟨m, ?_, hlt, (admitsAt_placed hm).1 hadmits⟩
  rw [hdescribes.positions, Array.getElem?_toList, hstate]
  exact hm

/-- A frame that a path arrives with is admitted where it arrives. -/
theorem Arrives.admits (hs : a.Sound types frames) (hb : a.finish = .ok b) {n : Nat} {f : Frame}
    (h : b.Arrives types n f) : a.Admits frames n f := by
  obtain ⟨-, -, hinstructions, hentry, -⟩ := finish_eq_ok hb
  induction h with
  | entry => exact hentry ▸ hs.entry
  | next _ hi ht hstep hu ih =>
    obtain ⟨t, f', ht', hstep', hnext, -⟩ := runs_of_admits hs (hinstructions ▸ hi) ih
    rw [ht] at ht'
    cases ht'
    rw [hstep] at hstep'
    cases hstep'
    exact hnext hu
  | jump _ hi ht hstep hbranch hl hm ih =>
    obtain ⟨t, f', ht', hstep', -, hjump⟩ := runs_of_admits hs (hinstructions ▸ hi) ih
    rw [ht] at ht'
    cases ht'
    rw [hstep] at hstep'
    cases hstep'
    obtain ⟨target, htarget, hadmits⟩ := hjump hbranch
    rw [hl] at htarget
    cases htarget
    obtain ⟨m, hm', -, hm'admits⟩ := admits_target hb hadmits
    rw [hm] at hm'
    cases hm'
    exact hm'admits

/-- **Frames hold on every execution path.**  Take any operations that succeed, do
not make types more general and end in a finished body.  Whatever path control
takes from the entry, it arrives at an instruction, which runs in the frame that
the path arrives with; if it is a branch, its label is placed; and the frame that
the body records there accepts that frame. -/
theorem arrives_accepted (pool : ConstantPool) (entry : Frame) (os : List Operation)
    (a : Assembler) (b : Body) (hos : ∀ o ∈ os, o.keepsTypes = true)
    (hrun : Operation.runAll os (start pool entry) = .ok () a) (hb : a.finish = .ok b)
    (n : Nat) (f : Frame)
    (h : b.Arrives (Operation.allOperandTypes (start pool entry) os) n f) :
    (∃ i t f', b.instructions[n]? = some i ∧
      (Operation.allOperandTypes (start pool entry) os)[n]? = some t ∧ f.step n i t = .ok f' ∧
      (i.opcode.effect.isBranch = true →
        ∃ target m, i.target? = some target ∧ b.labels[target.index]? = some m)) ∧
    ∀ there, b.frames[n]? = some there → there.accepts f = true := by
  obtain ⟨frames, hs⟩ := (sound_start pool entry).runAll hos hrun
  rw [List.nil_append, List.nil_append] at hs
  obtain ⟨hc, hdescribes, hinstructions, -⟩ := finish_eq_ok hb
  have hf := h.admits hs hb
  obtain ⟨⟨p, hp, hpf⟩, hplaced⟩ := hf
  refine ⟨?_, fun there ht => hplaced there (hdescribes.frames n there ht).1⟩
  -- control does not arrive behind the last instruction, since nothing is current there
  have hlt : n < a.instructions.size := by
    have := (List.getElem?_eq_some_iff.1 hp).1
    rwa [points, hc, Option.toList_none, List.append_nil, hs.frames_length] at this
  have hi : a.instructions[n]? = some a.instructions[n] := Array.getElem?_eq_getElem hlt
  obtain ⟨t, f', ht, hstep, -, hjump⟩ := runs_of_admits hs hi (h.admits hs hb)
  refine ⟨a.instructions[n], t, f', by rwa [hinstructions], ht, hstep, fun hbranch => ?_⟩
  obtain ⟨target, htarget, hadmits⟩ := hjump hbranch
  obtain ⟨m, hm, -⟩ := admits_target hb hadmits
  exact ⟨target, m, htarget, hm⟩

theorem exists_finish {os : List Operation} {start : Assembler} {p : Body → Bool}
    (h : (outcome? (Operation.runAll os start)).any (fun r => r.2.finish.toOption.any p) = true) :
    ∃ a b, Operation.runAll os start = .ok () a ∧ a.finish = .ok b ∧ p b = true := by
  obtain ⟨_, a, ha, h⟩ := exists_of_outcome h
  obtain ⟨b, hb, h⟩ := exists_of_toOption h
  exact ⟨a, b, ha, hb, h⟩

/-- A loop that counts its parameter down to zero. -/
def countdown : List Operation :=
  [.label none, .label none, .place ⟨0⟩, .push (.load .int 0) .none, .branch .ifeq ⟨1⟩,
    .push (.increment 0 (-1)) .none, .branch .goto ⟨0⟩, .place ⟨1⟩,
    .push (.simple .returnVoid) .none]

/-- The frame of one integer local. -/
def counterFrame : Frame := ⟨[.integer], []⟩

/-- **A loop that counts down is assembled as expected**: the branch back finds the frame of
its label, and the one ahead leaves the loop. -/
theorem countdown_finished :
    ∃ a b, Operation.runAll countdown (start .empty counterFrame) = .ok () a ∧
      a.finish = .ok b ∧ b.entry = counterFrame ∧
      b.instructions = #[.load .int 0, .branch .ifeq ⟨1⟩ counterFrame, .increment 0 (-1),
        .branch .goto ⟨0⟩ counterFrame, .simple .returnVoid] ∧
      b.labels[0]? = some 0 ∧ b.frames[0]? = some counterFrame := by
  have h : (outcome? (Operation.runAll countdown (start .empty counterFrame))).any (fun r =>
      r.2.finish.toOption.any fun b => decide (b.entry = counterFrame ∧
        b.instructions = #[.load .int 0, .branch .ifeq ⟨1⟩ counterFrame, .increment 0 (-1),
          .branch .goto ⟨0⟩ counterFrame, .simple .returnVoid] ∧
        b.labels[0]? = some 0 ∧ b.frames[0]? = some counterFrame)) = true := by decide +kernel
  obtain ⟨a, b, ha, hb, h⟩ := exists_finish h
  exact ⟨a, b, ha, hb, of_decide_eq_true h⟩

/-- Once round the loop, the frame that is recorded at its head accepts the one that
control arrives with, and the first instruction runs in it. -/
theorem countdown_arrives_accepted :
    ∃ a b, (∀ o ∈ countdown, o.keepsTypes = true) ∧
      Operation.runAll countdown (start .empty counterFrame) = .ok () a ∧ a.finish = .ok b ∧
      b.Arrives (Operation.allOperandTypes (start .empty counterFrame) countdown) 0 counterFrame ∧
      (∃ i t f', b.instructions[0]? = some i ∧
        (Operation.allOperandTypes (start .empty counterFrame) countdown)[0]? = some t ∧
        counterFrame.step 0 i t = .ok f' ∧
        (i.opcode.effect.isBranch = true →
          ∃ target m, i.target? = some target ∧ b.labels[target.index]? = some m)) ∧
      b.frames[0]? = some counterFrame ∧ counterFrame.accepts counterFrame = true := by
  obtain ⟨a, b, ha, hb, hentry, hinstructions, hlabel, hframe⟩ := countdown_finished
  have htypes : Operation.allOperandTypes (start .empty counterFrame) countdown =
      [.none, .none, .none, .none, .none] := by decide +kernel
  have hpath : b.Arrives (Operation.allOperandTypes (start .empty counterFrame) countdown) 0
      counterFrame := by
    -- once round the loop
    rw [htypes]
    have h₀ : b.Arrives [.none, .none, .none, .none, .none] 0 counterFrame := hentry ▸ .entry
    have h₁ := h₀.next (by rw [hinstructions]; rfl) rfl rfl rfl
    have h₂ := h₁.next (by rw [hinstructions]; rfl) rfl rfl rfl
    have h₃ := h₂.next (by rw [hinstructions]; rfl) rfl rfl rfl
    exact h₃.jump (by rw [hinstructions]; rfl) rfl rfl rfl rfl hlabel
  have hos : ∀ o ∈ countdown, o.keepsTypes = true := by decide
  obtain ⟨hruns, haccepts⟩ := arrives_accepted _ _ _ a b hos ha hb 0 _ hpath
  exact ⟨a, b, hos, ha, hb, hpath, hruns, hframe, haccepts _ hframe⟩

end Body
end ClassForge
