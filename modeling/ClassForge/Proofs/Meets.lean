/-
# What the edges to a label agree on

Specification, section 10.6, *frame merging*.

`Frame.accepts` orders the frames by what they know, and `Frame.merge` is the
greatest lower bound in that order: it accepts both frames, and whatever accepts
both accepts it (`Frame.accepts_merge`).  The order identifies frames that differ
in the `top`s at the end of their locals only, so on frames without those it is
antisymmetric (`Frame.Trimmed.eq_of_accepts`), and the laws of `merge` follow from
the bound alone, never from its definition:

| law | for |
| --- | --- |
| commutative, associative | all frames, also those that do not meet |
| idempotent | frames without `top`s at the end |

Hence any number of frames meet in one way (`Frame.mergeAll_perm`).  The frame
that an assembler knows of a label is what the edges to it so far agree on
(`Operation.gathered_of_runAll`), whichever of them came first and whether they are
branches or the code above.
-/

import ClassForge.Proofs.Revival

namespace ClassForge
namespace Frame

variable {a b f g m : Frame} {fs : List Frame}

/-! ### Locals without `top`s at the end -/

/-- The last local of the frame, if any, is known. -/
def Trimmed (f : Frame) : Prop := f.locals.getLast? ≠ some .top

instance (f : Frame) : Decidable f.Trimmed := inferInstanceAs (Decidable (_ ≠ _))

/-- Trimmed locals end in something known, if there are any. -/
theorem getLast?_trim (ts : List FrameType) : (trim ts).getLast? ≠ some .top := by
  intro h
  unfold trim at h
  rw [List.getLast?_reverse] at h
  have hnot := List.head?_dropWhile_not (fun t : FrameType => decide (t = .top)) ts.reverse
  rw [h] at hnot
  simp at hnot

/-- Only `top`s are left off by trimming. -/
theorem eq_trim_append (ts : List FrameType) :
    ∃ tops : List FrameType, ts = trim ts ++ tops ∧ ∀ t ∈ tops, t = .top := by
  refine ⟨(ts.reverse.takeWhile (· = .top)).reverse, ?_, fun t ht => ?_⟩
  · unfold trim
    rw [← List.reverse_append, List.takeWhile_append_dropWhile, List.reverse_reverse]
  · have htake := List.all_eq_true.1 List.all_takeWhile t (List.mem_reverse.1 ht)
    simpa using htake

/-- What is known of a slot is known after trimming, and nothing else. -/
theorem getElem?_trim {ts : List FrameType} {n : Nat} {t : FrameType} (ht : t ≠ .top) :
    (trim ts)[n]? = some t ↔ ts[n]? = some t := by
  refine ⟨getElem?_of_trim, fun h => ?_⟩
  obtain ⟨tops, heq, htops⟩ := eq_trim_append ts
  rw [heq, List.getElem?_append] at h
  split at h
  · exact h
  · exact absurd (htops t (List.mem_of_getElem? h)) ht

/-! ### The greatest lower bound -/

/-- **What is known where two edges meet is what both of them know.** -/
theorem getElem?_merge (h : f.merge g = some m) {n : Nat} {t : FrameType} (ht : t ≠ .top) :
    m.locals[n]? = some t ↔ f.locals[n]? = some t ∧ g.locals[n]? = some t := by
  obtain ⟨-, rfl⟩ := merge_eq_some h
  rw [getElem?_trim ht]
  constructor
  · intro hn
    exact (getElem?_zipWith_meet hn).resolve_left ht
  · rintro ⟨hf, hg⟩
    rw [List.getElem?_zipWith, hf, hg]
    exact congrArg some (if_pos rfl)

theorem merge_eq_none_iff : f.merge g = none ↔ f.stack ≠ g.stack := by
  unfold merge
  split <;> simp_all

theorem exists_merge (h : f.stack = g.stack) : ∃ m, f.merge g = some m :=
  ⟨_, if_pos h⟩

theorem Trimmed.of_merge (h : f.merge g = some m) : m.Trimmed := by
  obtain ⟨-, rfl⟩ := merge_eq_some h
  exact getLast?_trim _

/-- **Whatever accepts two edges accepts the frame where they meet.** -/
theorem accepts_merge (h : a.merge b = some m) (ha : f.accepts a = true) (hb : f.accepts b = true) :
    f.accepts m = true := by
  rw [accepts_iff] at ha hb ⊢
  have hstack : m.stack = a.stack := by
    obtain ⟨-, rfl⟩ := merge_eq_some h
    rfl
  refine ⟨ha.1.trans hstack.symm, fun n t hn => ?_⟩
  by_cases ht : t = .top
  · exact .inl ht
  · exact .inr ((getElem?_merge h ht).2
      ⟨(ha.2 n t hn).resolve_left ht, (hb.2 n t hn).resolve_left ht⟩)

/-- A frame whose last local is known has no more locals than one that it accepts. -/
theorem Trimmed.length_le (hf : f.Trimmed) (h : f.accepts g = true) :
    f.locals.length ≤ g.locals.length := by
  cases hlast : f.locals.getLast? with
  | none => simp [List.getLast?_eq_none_iff.1 hlast]
  | some t =>
    have ht : t ≠ .top := fun heq => hf (heq ▸ hlast)
    rw [List.getLast?_eq_getElem?] at hlast
    have hg := (((accepts_iff f g).1 h).2 _ t hlast).resolve_left ht
    have := (List.getElem?_eq_some_iff.1 hg).1
    omega

/-- **The order is antisymmetric on frames without `top`s at the end.** With such `top`s two
frames could accept each other and differ in length. -/
theorem Trimmed.eq_of_accepts (hf : f.Trimmed) (hg : g.Trimmed) (hfg : f.accepts g = true)
    (hgf : g.accepts f = true) : f = g := by
  have hlength : f.locals.length = g.locals.length :=
    Nat.le_antisymm (hf.length_le hfg) (hg.length_le hgf)
  obtain ⟨hstack, hfg⟩ := (accepts_iff f g).1 hfg
  obtain ⟨-, hgf⟩ := (accepts_iff g f).1 hgf
  have hlocals : f.locals = g.locals := by
    refine List.ext_getElem hlength fun n hn hn' => ?_
    have hl := List.getElem?_eq_getElem hn
    have hr := List.getElem?_eq_getElem hn'
    -- Each of the two is `top` or known to the other frame.
    rcases hfg n _ hl with htop | hknown
    · rcases hgf n _ hr with htop' | hknown'
      · rw [htop, htop']
      · exact Option.some.inj (hl.symm.trans hknown')
    · exact Option.some.inj (hknown.symm.trans hr)
  cases f
  cases g
  cases hstack
  cases hlocals
  rfl

/-- `m` is the greatest lower bound of `a` and `b` in the order of frames. -/
structure IsMeet (a b m : Frame) : Prop where
  left : m.accepts a = true
  right : m.accepts b = true
  greatest : ∀ f : Frame, f.accepts a = true → f.accepts b = true → f.accepts m = true

theorem isMeet_of_merge (h : a.merge b = some m) : IsMeet a b m where
  left := (merge_accepts h).1
  right := (merge_accepts h).2
  greatest _ := accepts_merge h

/-! ### The laws of meeting -/

/-- A meeting is determined by its bound. -/
theorem eq_of_bounds {c d n : Frame} (hm : a.merge b = some m) (hn : c.merge d = some n)
    (hma : m.accepts c = true) (hmb : m.accepts d = true) (hnc : n.accepts a = true)
    (hnd : n.accepts b = true) : m = n :=
  (Trimmed.of_merge hm).eq_of_accepts (.of_merge hn) (accepts_merge hn hma hmb)
    (accepts_merge hm hnc hnd)

/-- It does not matter which of two edges comes first. -/
theorem merge_comm (a b : Frame) : a.merge b = b.merge a := by
  by_cases h : a.stack = b.stack
  · obtain ⟨m, hm⟩ := exists_merge h
    obtain ⟨n, hn⟩ := exists_merge h.symm
    have ⟨hma, hmb⟩ := merge_accepts hm
    have ⟨hnb, hna⟩ := merge_accepts hn
    rw [hm, hn, eq_of_bounds hm hn hmb hma hna hnb]
  · rw [merge_eq_none_iff.2 h, merge_eq_none_iff.2 (Ne.symm h)]

theorem stack_merge (h : a.merge b = some m) : m.stack = a.stack := by
  obtain ⟨-, rfl⟩ := merge_eq_some h
  rfl

/-- It does not matter which of three edges meet first, nor which pair fails to meet. -/
theorem merge_assoc (a b c : Frame) :
    (a.merge b).bind (·.merge c) = (b.merge c).bind a.merge := by
  by_cases hab : a.stack = b.stack
  · obtain ⟨m, hm⟩ := exists_merge hab
    by_cases hbc : b.stack = c.stack
    · obtain ⟨n, hn⟩ := exists_merge hbc
      obtain ⟨x, hx⟩ := exists_merge ((stack_merge hm).trans (hab.trans hbc))
      obtain ⟨y, hy⟩ := exists_merge (hab.trans (stack_merge hn).symm)
      have ⟨hma, hmb⟩ := merge_accepts hm
      have ⟨hnb, hnc⟩ := merge_accepts hn
      have ⟨hxm, hxc⟩ := merge_accepts hx
      have ⟨hya, hyn⟩ := merge_accepts hy
      -- Both sides are the greatest frame that accepts all three.
      have hxy : x = y := eq_of_bounds hx hy (accepts_trans hxm hma)
        (accepts_merge hn (accepts_trans hxm hmb) hxc)
        (accepts_merge hm hya (accepts_trans hyn hnb)) (accepts_trans hyn hnc)
      rw [hm, hn, Option.bind_some, Option.bind_some, hx, hy, hxy]
    · rw [hm, Option.bind_some, merge_eq_none_iff.2 hbc, Option.bind_none, merge_eq_none_iff,
        stack_merge hm, hab]
      exact hbc
  · rw [merge_eq_none_iff.2 hab, Option.bind_none]
    cases hn : b.merge c with
    | none => rfl
    | some n =>
      rw [Option.bind_some, eq_comm, merge_eq_none_iff, stack_merge hn]
      exact hab

theorem Trimmed.merge_self (h : a.Trimmed) : a.merge a = some a := by
  obtain ⟨m, hm⟩ := exists_merge (rfl : a.stack = a.stack)
  rw [hm, (Trimmed.of_merge hm).eq_of_accepts h (merge_accepts hm).1
    (accepts_merge hm a.accepts_refl a.accepts_refl)]

theorem merge_right_comm (a b c : Frame) :
    (a.merge b).bind (·.merge c) = (a.merge c).bind (·.merge b) := by
  rw [merge_assoc, merge_comm b c, ← merge_assoc]

/-! ### Any number of edges -/

/-- What any number of edges agree on, one after the other; none without any edge
or if their stacks differ. -/
def mergeAll : List Frame → Option Frame
  | [] => none
  | f :: fs => fs.foldlM merge f

theorem mergeAll_cons_cons (f g : Frame) (fs : List Frame) :
    mergeAll (f :: g :: fs) = (f.merge g).bind (fs.foldlM merge ·) := rfl

/-- One more edge. -/
theorem mergeAll_concat (h : mergeAll fs = some f) (g : Frame) :
    mergeAll (fs ++ [g]) = f.merge g := by
  cases fs with
  | nil => cases h
  | cons f₀ fs =>
    have hfold : fs.foldlM merge f₀ = some f := h
    show (fs ++ [g]).foldlM merge f₀ = _
    rw [List.foldlM_append, hfold]
    exact bind_pure (f.merge g)

/-- The order of the later edges does not matter. -/
theorem foldlM_merge_perm {gs : List Frame} (h : fs.Perm gs) (f : Frame) :
    fs.foldlM merge f = gs.foldlM merge f := by
  induction h generalizing f with
  | nil => rfl
  | cons g _ ih =>
    rw [List.foldlM_cons, List.foldlM_cons]
    exact bind_congr fun m => ih m
  | swap a b fs =>
    simp only [List.foldlM_cons]
    rw [← bind_assoc, ← bind_assoc]
    exact congrArg (· >>= _) (merge_right_comm f b a)
  | trans _ _ ih₁ ih₂ => exact (ih₁ f).trans (ih₂ f)

/-- **Any number of edges meet in one way** -/
theorem mergeAll_perm {gs : List Frame} (h : fs.Perm gs) : mergeAll fs = mergeAll gs := by
  induction h with
  | nil => rfl
  | cons f h _ => exact foldlM_merge_perm h f
  | swap a b fs => rw [mergeAll_cons_cons, mergeAll_cons_cons, merge_comm]
  | trans _ _ ih₁ ih₂ => exact ih₁.trans ih₂

/-- What is known where the given edges meet: nothing without any, and what they
agree on otherwise. -/
def Gathered (fs : List Frame) (known : Option Frame) : Prop :=
  mergeAll fs = known ∧ (fs ≠ [] → known.isSome = true)

theorem gathered_nil : Gathered [] none := ⟨rfl, fun h => absurd rfl h⟩

/-- One more edge joins those that are there. -/
theorem Gathered.concat {known there : Option Frame} (h : Gathered fs known)
    (hj : Joins known (some f) there) : Gathered (fs ++ [f]) there := by
  obtain ⟨hmerge, hsome⟩ := h
  cases hj with
  | right =>
    have hnil : fs = [] := Decidable.byContradiction fun hne =>
      absurd (hsome hne) Bool.false_ne_true
    subst hnil
    exact ⟨rfl, fun _ => rfl⟩
  | both hm => exact ⟨(mergeAll_concat hmerge f).trans hm, fun _ => rfl⟩

end Frame

/-- Both edges have the same part in what is known where they join. -/
theorem Joins.symm {x y z : Option Frame} (h : Joins x y z) : Joins y x z := by
  cases h with
  | right =>
    cases y with
    | none => exact .right none
    | some g => exact .left g
  | left f => exact .right (some f)
  | both hm => exact .both ((Frame.merge_comm _ _).trans hm)

/-! ### The edges of a run -/

namespace Assembler

/-- The frame that is known of a label, if any. -/
def frameAt (a : Assembler) (l : Label) : Option Frame := a.labels[l.index]?.bind (·.frame)

variable {a b : Assembler} {l target : Label}

/-- What is known of a label when the state of one is replaced. -/
theorem frameAt_set {old new : LabelState} (hold : a.labels[target.index]? = some old)
    (h : b.labels = a.labels.setIfInBounds target.index new) (l : Label) :
    b.frameAt l = if target = l then new.frame else a.frameAt l := by
  unfold frameAt
  rw [h]
  split
  · rename_i heq
    rw [← heq, getElem?_setLabel hold, Option.bind_some]
  · rename_i hne
    rw [Array.getElem?_setIfInBounds_ne fun heq => hne (congrArg Label.mk heq)]

/-- **A branch that is refused leaves what is known of the labels as it was.** -/
theorem frameAt_of_branch_error {op : Opcode} {e : Fault}
    (h : Assembler.branch op target a = .error e b) (l : Label) : b.frameAt l = a.frameAt l := by
  cases Operation.refuses_of_branch h with
  | unchanged => rfl
  | frame => rfl
  | mark hc hl next =>
    rw [frameAt_set hl rfl]
    split
    · rename_i heq
      rw [← heq, frameAt, hl, Option.bind_some]
    · rfl

end Assembler

namespace Operation

variable {state : LabelState}

/-- The edge that an operation adds to a label that is not yet placed: a branch
comes with the frame behind it, and the label itself with the code above. -/
def arrival (l : Label) (a : Assembler) : Operation → Option Frame
  | .branch op target =>
    if target = l then
      a.labels[l.index]?.bind fun state =>
        if state.placed.isSome then none
        else
          a.current.bind fun f =>
            (f.step a.instructions.size (.branch op target .empty) .none).toOption.map
              state.restrict
    else none
  | .place here =>
    if here = l then a.labels[l.index]?.bind fun state => a.current.map state.restrict else none
  | _ => none

/-- The edges that operations add to a label, one after the other. -/
def arrivals (l : Label) : Assembler → List Operation → List Frame
  | _, [] => []
  | a, o :: os =>
    (o.arrival l a).toList ++
      match o.run a with
      | .ok _ b => arrivals l b os
      | .error .. => []

variable {a b : Assembler} {o : Operation} {l : Label}

theorem arrivals_cons (h : Advances o a b) (os : List Operation) :
    arrivals l a (o :: os) = (o.arrival l a).toList ++ arrivals l b os := by
  rw [arrivals, run_eq_ok.2 h]

/-- Where control cannot be, what is dropped adds no edge. -/
theorem arrival_of_unreachable (ho : o.needsControl = true) (hc : a.current = none) :
    o.arrival l a = none := by
  cases o with
  | push i types => rfl
  | generalize type => rfl
  | branch op target =>
    rw [arrival, hc]
    split
    · cases a.labels[l.index]? with
      | none => rfl
      | some state => exact ite_self none
    · rfl
  | _ => cases ho

/-- A branch back adds no edge: its label is settled. -/
theorem arrival_jumpBack {op : Opcode} {target : Label} {index : Nat}
    (hl : a.labels[target.index]? = some state) (hp : state.placed = some index) :
    (branch op target).arrival l a = none := by
  rw [arrival]
  split
  · rename_i heq
    rw [← heq, hl, Option.bind_some, hp]
    rfl
  · rfl

theorem arrival_jumpAhead {op : Opcode} {target : Label} {f next : Frame} (hc : a.current = some f)
    (hs : f.step a.instructions.size (.branch op target .empty) .none = .ok next)
    (hl : a.labels[target.index]? = some state) (hp : state.placed = none) :
    (branch op target).arrival target a = some (state.restrict next) := by
  rw [arrival, if_pos rfl, hl, Option.bind_some, hp, hc, Option.bind_some, hs]
  rfl

theorem arrival_place {here : Label} (hl : a.labels[here.index]? = some state) :
    (place here).arrival here a = a.current.map state.restrict := by
  rw [arrival, if_pos rfl, hl, Option.bind_some]

/-- **An operation adds its edge to what is known of a label**, and nothing else
does. -/
theorem gathered_of_advances {fs : List Frame} (h : Advances o a b)
    (hfs : Frame.Gathered fs (a.frameAt l)) :
    Frame.Gathered (fs ++ (o.arrival l a).toList) (b.frameAt l) := by
  -- What does not concern the label adds no edge and keeps what is known of it.
  have hkeep : o.arrival l a = none → b.frameAt l = a.frameAt l →
      Frame.Gathered (fs ++ (o.arrival l a).toList) (b.frameAt l) := fun ho hb => by
    rw [ho, hb, Option.toList_none, List.append_nil]
    exact hfs
  cases h with
  | label limit =>
    refine hkeep rfl ?_
    unfold Assembler.frameAt
    rw [Array.getElem?_push]
    split
    · rename_i heq
      rw [heq, Array.getElem?_eq_none Nat.le.refl]
      rfl
    · rfl
  | constant hi => exact hkeep rfl rfl
  | drop ho hc => exact hkeep (arrival_of_unreachable ho hc) rfl
  | push hc hi hs => exact hkeep rfl rfl
  | killLocals first => exact hkeep rfl rfl
  | noteLocals count => exact hkeep rfl rfl
  | generalize hc hg => exact hkeep rfl rfl
  | jumpBack hc hs hl hp ht ha =>
    refine hkeep (arrival_jumpBack hl hp) ?_
    rw [Assembler.frameAt_set hl rfl]
    split
    · rename_i heq
      rw [← heq, Assembler.frameAt, hl, Option.bind_some]
    · rfl
  | @jumpAhead op target _ _ _ _ state hc hs hl hp hj =>
    by_cases heq : target = l
    · subst heq
      rw [arrival_jumpAhead hc hs hl hp, Assembler.frameAt_set hl rfl, if_pos rfl]
      rw [Assembler.frameAt, hl, Option.bind_some] at hfs
      exact hfs.concat hj
    · refine hkeep (if_neg heq) ?_
      rw [Assembler.frameAt_set hl rfl, if_neg heq]
  | @place here _ state frame hl hp hj =>
    by_cases heq : here = l
    · subst heq
      rw [arrival_place hl, Assembler.frameAt_set hl rfl, if_pos rfl]
      rw [Assembler.frameAt, hl, Option.bind_some] at hfs
      -- The code above, if control is there, is one more edge.
      cases hc : a.current.map state.restrict with
      | none =>
        rw [hc] at hj
        cases hj
        rw [Option.toList_none, List.append_nil]
        exact hfs
      | some above =>
        rw [hc] at hj
        exact hfs.concat hj.symm
    · refine hkeep (if_neg heq) ?_
      rw [Assembler.frameAt_set hl rfl, if_neg heq]

/-- **What is known of a label is what the edges to it agree on.** -/
theorem gathered_of_runAll {fs : List Frame} {os : List Operation} (h : runAll os a = .ok () b)
    (hfs : Frame.Gathered fs (a.frameAt l)) :
    Frame.Gathered (fs ++ arrivals l a os) (b.frameAt l) := by
  induction os generalizing a fs with
  | nil =>
    cases h
    rwa [arrivals, List.append_nil]
  | cons o os ih =>
    obtain ⟨x, hx, h⟩ := runAll_cons.1 h
    rw [arrivals_cons hx, ← List.append_assoc]
    exact ih h (gathered_of_advances hx hfs)

end Operation

namespace Assembler

/-- Operations from the start of a method body lead here, and the given edges to a
label are among them, in this order. -/
def ReachedBy (a : Assembler) (l : Label) (edges : List Frame) : Prop :=
  ∃ (pool : ConstantPool) (entry : Frame) (os : List Operation),
    Operation.runAll os (start pool entry) = .ok () a ∧
      Operation.arrivals l (start pool entry) os = edges

variable {a b : Assembler} {l l' : Label} {edges edges' : List Frame}

theorem ReachedBy.frameAt_eq (h : a.ReachedBy l edges) : a.frameAt l = Frame.mergeAll edges := by
  obtain ⟨pool, entry, os, hrun, rfl⟩ := h
  have hstart : (start pool entry).frameAt l = none := by simp [frameAt, start]
  have h := Operation.gathered_of_runAll hrun (hstart ▸ Frame.gathered_nil)
  exact h.1.symm

/-- **The order of the edges does not matter**: labels that are reached by the same edges,
in any order, have the same frame. -/
theorem ReachedBy.frameAt_perm (ha : a.ReachedBy l edges) (hb : b.ReachedBy l' edges')
    (h : edges.Perm edges') : a.frameAt l = b.frameAt l' := by
  rw [ha.frameAt_eq, hb.frameAt_eq, Frame.mergeAll_perm h]

/-- The frame that is known of a label when it is placed is recorded there, and the
code goes on with it. -/
theorem recorded_of_place (h : Assembler.place l a = .ok () b) :
    b.current = b.frameAt l ∧
      ∀ f, b.frameAt l = some f → b.placedFrames[a.instructions.size]? = some f := by
  cases Operation.run_place_iff.1 h with
  | drop ho => cases ho
  | @place _ _ state frame hl hp hj =>
    have hframe : (a.settle l state frame).frameAt l = frame := by
      rw [frameAt_set hl rfl, if_pos rfl]
    rw [hframe]
    refine ⟨rfl, fun f hf => ?_⟩
    subst hf
    exact Std.TreeMap.getElem?_insert_self

end Assembler

/-- **Frames meet in their greatest lower bound, and so do the edges to a label.**
The order is transitive, meeting is commutative, associative and idempotent, and it
fails for different stacks only, which leaves what is known of the labels as it was.
So the frame that is recorded where a label is placed is the same for every order of
the branches to it and the code above. -/
theorem edges_meet (a b c : Frame) :
    (∀ m, a.merge b = some m → Frame.IsMeet a b m ∧ m.Trimmed) ∧
      (a.accepts b = true → b.accepts c = true → a.accepts c = true) ∧
      a.merge b = b.merge a ∧
      (a.merge b).bind (·.merge c) = (b.merge c).bind a.merge ∧
      (a.Trimmed → a.merge a = some a) ∧
      (a.merge b = none ↔ a.stack ≠ b.stack) ∧
      (∀ (op : Opcode) (target l : Label) (e : Fault) (x y : Assembler),
        Assembler.branch op target x = .error e y → y.frameAt l = x.frameAt l) ∧
      (∀ (l : Label) (x y : Assembler), Assembler.place l x = .ok () y →
        y.current = y.frameAt l ∧
          ∀ f, y.frameAt l = some f → y.placedFrames[x.instructions.size]? = some f) ∧
      (∀ (l l' : Label) (edges edges' : List Frame) (x y : Assembler), x.ReachedBy l edges →
        y.ReachedBy l' edges' → edges.Perm edges' →
        x.frameAt l = Frame.mergeAll edges ∧ x.frameAt l = y.frameAt l') :=
  ⟨fun _ h => ⟨Frame.isMeet_of_merge h, .of_merge h⟩, Frame.accepts_trans, Frame.merge_comm a b,
    Frame.merge_assoc a b c, Frame.Trimmed.merge_self, Frame.merge_eq_none_iff,
    fun _ _ l _ _ _ h => Assembler.frameAt_of_branch_error h l,
    fun _ _ _ => Assembler.recorded_of_place,
    fun _ _ _ _ _ _ hx hy h => ⟨hx.frameAt_eq, hx.frameAt_perm hy h⟩⟩

/-- Frames that know different things of three slots, one of which has a fourth. -/
def threeEdges : List Frame :=
  [⟨[.integer, .float, .integer, .float], []⟩, ⟨[.integer, .integer, .integer], []⟩,
    ⟨[.float, .integer, .integer], []⟩]

/-- Two branches and the code above lead to a label, in the order of `threeEdges`. -/
def edgesDown : List Operation :=
  [.label none, .push (.simple .iconst0) .none, .branch .ifeq ⟨0⟩, .killLocals 3,
    .push (.simple .iconst0) .none, .push (.store .int 1) .none, .push (.simple .iconst0) .none,
    .branch .ifeq ⟨0⟩, .push (.simple .fconst0) .none, .push (.store .float 0) .none,
    .place ⟨0⟩]

/-- The same edges the other way round: the code above comes with what the first
branch came with. -/
def edgesUp : List Operation :=
  [.label none, .push (.simple .iconst0) .none, .branch .ifeq ⟨0⟩,
    .push (.simple .iconst0) .none, .push (.store .int 0) .none, .push (.simple .iconst0) .none,
    .branch .ifeq ⟨0⟩, .push (.simple .fconst0) .none, .push (.store .float 1) .none,
    .push (.simple .fconst0) .none, .push (.store .float 3) .none, .place ⟨0⟩]

/-- Both ways the third slot is all that is known at the label. -/
theorem threeEdges_meet :
    ∃ x y : Assembler, x.ReachedBy ⟨0⟩ threeEdges ∧ y.ReachedBy ⟨0⟩ threeEdges.reverse ∧
      x.frameAt ⟨0⟩ = some ⟨[.top, .top, .integer], []⟩ ∧ x.frameAt ⟨0⟩ = y.frameAt ⟨0⟩ := by
  have hx : (outcome? (Operation.runAll edgesDown
      (.start .empty ⟨[.integer, .float, .integer, .float], []⟩))).any (fun _ => decide (
        Operation.arrivals ⟨0⟩ (.start .empty ⟨[.integer, .float, .integer, .float], []⟩)
          edgesDown = threeEdges)) = true := by decide +kernel
  have hy : (outcome? (Operation.runAll edgesUp
      (.start .empty ⟨[.float, .integer, .integer], []⟩))).any (fun _ => decide (
        Operation.arrivals ⟨0⟩ (.start .empty ⟨[.float, .integer, .integer], []⟩)
          edgesUp = threeEdges.reverse)) = true := by decide +kernel
  obtain ⟨_, x, hrun, hx⟩ := exists_of_outcome hx
  obtain ⟨_, y, hrun', hy⟩ := exists_of_outcome hy
  have hx : x.ReachedBy ⟨0⟩ threeEdges := ⟨_, _, _, hrun, of_decide_eq_true hx⟩
  have hy : y.ReachedBy ⟨0⟩ threeEdges.reverse := ⟨_, _, _, hrun', of_decide_eq_true hy⟩
  obtain ⟨-, -, -, -, -, -, -, -, hedges⟩ := edges_meet .empty .empty .empty
  obtain ⟨hmerge, heq⟩ := hedges ⟨0⟩ ⟨0⟩ _ _ x y hx hy (List.reverse_perm threeEdges).symm
  exact ⟨x, y, hx, hy, hmerge.trans (by decide), heq⟩

end ClassForge
