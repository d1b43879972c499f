/-
# What an instruction does to a frame

An instruction takes some values off the stack and puts others on it; what lies
below stays where it is.  `Instruction.takes` and `Instruction.gives` count them,
and `Frame.Effects` says all that an instruction can do to a frame:

| instruction | locals | stack |
| --- | --- | --- |
| a store | one of them is replaced | one value less |
| a constructor call | every copy of the object is constructed | arguments and object less |
| any other | stay | `takes` values are replaced by `gives` values |

A new type on the stack is that of a constant, was seen before, or is given beside
the instruction; only a `new` brings an object that is not yet constructed.

An instruction that runs in a frame does one of these (`Frame.effects_of_step`), so
what instructions keep is shown case by case, without another look at `Frame.step`.
-/

import ClassForge.Proofs.FrameSizes

namespace ClassForge

/-! ### Counting values -/

/-- Is the instruction a store? -/
def Effect.isStore : Effect → Bool
  | .storeLocal _ => true
  | _ => false

namespace OperandTypes

/-- How many arguments a call pops. -/
def arguments : OperandTypes → Nat
  | .call arguments _ | .constructor arguments _ => arguments
  | .none | .value _ => 0

/-- The types of what the instruction yields, as far as they are given beside it. -/
def types : OperandTypes → List FrameType
  | .value type => [type]
  | .call _ returns => returns.toList
  | .none | .constructor .. => []

/-- What a store makes of the type of the value: the declared type of the slot, if it is
given. -/
def stored (types : OperandTypes) (value : FrameType) : FrameType :=
  match types with
  | .value declared => declared
  | _ => value

end OperandTypes

namespace Effect

/-- How many values an instruction takes off the stack, given its operand bytes and the
types beside it. -/
def takes (e : Effect) (operands : Bytes) (types : OperandTypes) : Nat :=
  match e with
  | .nop | .goto | .exit | .pushInt | .pushFloat | .pushNull | .pushConstant | .loadLocal _
  | .incrementLocal | .newObject | .getStatic => 0
  | .storeLocal _ | .pop | .dup | .intUnary | .floatUnary | .intToFloat | .floatToInt
  | .arrayLength | .newPrimitiveArray | .newReferenceArray | .putStatic | .getField | .checkCast
  | .instanceOf | .ifZero | .ifNull | .exitWith _ => 1
  | .pop2 | .dupX1 | .dup2 | .swap | .intBinary | .floatBinary | .floatCompare | .arrayLoad _
  | .putField | .ifCompare => 2
  | .dupX2 | .arrayStore _ => 3
  | .newMultiArray => (operands[2]?.map UInt8.toNat).getD 0
  | .invoke | .invokeSpecial => types.arguments + 1
  | .invokeStatic => types.arguments

/-- How many values an instruction puts on the stack. -/
def gives (e : Effect) (types : OperandTypes) : Nat :=
  match e with
  | .nop | .goto | .exit | .incrementLocal | .storeLocal _ | .pop | .pop2 | .putStatic
  | .putField | .arrayStore _ | .ifZero | .ifNull | .ifCompare | .exitWith _ => 0
  | .pushInt | .pushFloat | .pushNull | .pushConstant | .loadLocal _ | .newObject | .getStatic
  | .intUnary | .floatUnary | .intToFloat | .floatToInt | .arrayLength | .newPrimitiveArray
  | .newReferenceArray | .newMultiArray | .getField | .checkCast | .instanceOf | .intBinary
  | .floatBinary | .floatCompare | .arrayLoad _ => 1
  | .dup | .swap => 2
  | .dupX1 => 3
  | .dupX2 | .dup2 => 4
  | .invoke | .invokeSpecial | .invokeStatic => types.types.length

/-- A branch pushes nothing and stores nothing. -/
theorem gives_of_isBranch {e : Effect} (h : e.isBranch = true) :
    e.isStore = false ∧ e.gives .none = 0 := by
  cases e with
  | goto | ifZero | ifCompare | ifNull => exact ⟨rfl, rfl⟩
  | _ => cases h

/-- No instruction leaves more than two values more than it takes. -/
theorem gives_le (e : Effect) (operands : Bytes) (types : OperandTypes) :
    e.gives types ≤ e.takes operands types + 2 := by
  -- a call leaves one value at most
  have htypes : types.types.length ≤ 1 := by
    cases types with
    | call arguments returns => cases returns <;> simp [OperandTypes.types]
    | _ => simp [OperandTypes.types]
  cases e <;> simp only [gives, takes] <;> omega

end Effect

namespace Instruction

/-- How many values the instruction takes off the stack.  What is copied or swapped is
taken off and put back. -/
def takes (i : Instruction) (types : OperandTypes) : Nat := i.opcode.effect.takes i.operands types

/-- How many values the instruction puts on the stack. -/
def gives (i : Instruction) (types : OperandTypes) : Nat := i.opcode.effect.gives types

end Instruction

/-! ### Effects -/

/-- Is it known what the type stands for, without a look at the instructions? -/
def VerificationType.isKnown {C U : Type} : VerificationType C U → Bool
  | .uninitialized _ => false
  | _ => true

namespace Frame

variable {r : FrameType × Stack} {S : Stack} {kind : ValueKind}

/-- Where the type of a value comes from that an instruction puts on the stack. -/
inductive Source (n : Nat) (i : Instruction) (types : OperandTypes) (f : Frame)
    (taken : Stack) (t : FrameType) : Prop where
  | known (h : t.isKnown = true)
  | taken (h : t ∈ taken)
  | loaded (h : t ∈ f.locals)
  | given (h : t ∈ types.types)
  | new (h : t = .uninitialized n) (hi : i.opcode.effect = .newObject)

/-- What the instruction with the number `n` can make of a frame. -/
inductive Effects (n : Nat) (i : Instruction) (types : OperandTypes) (f : Frame) :
    Frame → Prop where
  | work {taken given rest : Stack} (hi : i.opcode.effect.isStore = false)
    (htaken : taken.length = i.takes types) (hgiven : given.length = i.gives types)
    (hf : f.stack = taken ++ rest) (hsource : ∀ t ∈ given, Source n i types f taken t) :
    Effects n i types f ⟨f.locals, given ++ rest⟩
  | store {kind : ValueKind} {slot : UInt16} {value : FrameType} {rest : Stack}
    (hi : i.opcode.effect = .storeLocal kind) (hslot : i.slot? = some slot)
    (hf : f.stack = value :: rest) :
    Effects n i types f ⟨setLocal f.locals slot.toNat (types.stored value), rest⟩
  | construct {taken rest : Stack} {receiver : FrameType} {type : RefType}
    (hi : i.opcode.effect = .invokeSpecial) (htypes : types = .constructor taken.length type)
    (hf : f.stack = taken ++ receiver :: rest)
    (hreceiver : receiver = .uninitializedThis ∨ ∃ origin, receiver = .uninitialized origin) :
    Effects n i types f
      ⟨f.locals.map (constructed receiver (.object type)),
        rest.map (constructed receiver (.object type))⟩

/-! ### Values that are taken off the stack

What is known of a frame from which values could be taken. -/

theorem ok_of_bind {α β : Type} {x : Except StepFault α} {k : α → Except StepFault β} {w : β}
    (h : (x >>= k) = .ok w) : ∃ v, x = .ok v ∧ k v = .ok w := by
  cases x with
  | error e => cases h
  | ok v => exact ⟨v, rfl, h⟩

/-- A value that was popped was on top. -/
theorem pop_eq_ok (h : pop S = .ok r) : S = r.1 :: r.2 := by
  cases S with
  | nil => cases h
  | cons t rest =>
    cases h
    rfl

/-- A value that was popped as one of some kind was on top. -/
theorem popKind_eq_ok (h : popKind kind S = .ok r) : S = r.1 :: r.2 := by
  cases S with
  | nil => cases h
  | cons t rest =>
    rw [popKind] at h
    split at h
    · cases h
      rfl
    · cases h

/-- A value that was popped as one of some kind is of this kind. -/
theorem hasKind_of_popKind (h : popKind kind S = .ok r) : hasKind r.1 kind = true := by
  cases S with
  | nil => cases h
  | cons t rest =>
    rw [popKind] at h
    split at h
    · rename_i ht
      cases h
      exact ht
    · cases h

/-- As many values as were popped lay on top of what is left. -/
theorem popMany_eq_ok {count : Nat} {rest : Stack} (h : popMany count S = .ok rest) :
    ∃ taken, taken.length = count ∧ S = taken ++ rest := by
  induction count generalizing S with
  | zero =>
    cases h
    exact ⟨[], rfl, rfl⟩
  | succ count ih =>
    cases S with
    | nil => cases h
    | cons t S =>
      obtain ⟨taken, rfl, rfl⟩ := ih h
      exact ⟨t :: taken, rfl, rfl⟩

/-- As many integers as were popped lay on top of what is left. -/
theorem popInts_eq_ok {count : Nat} {rest : Stack} (h : popInts count S = .ok rest) :
    ∃ taken, taken.length = count ∧ S = taken ++ rest := by
  induction count generalizing S with
  | zero =>
    cases h
    exact ⟨[], rfl, rfl⟩
  | succ count ih =>
    obtain ⟨r, hpop, h⟩ := ok_of_bind h
    obtain ⟨taken, rfl, hrest⟩ := ih h
    exact ⟨r.1 :: taken, rfl, by rw [popKind_eq_ok hpop, hrest]; rfl⟩

/-- What is produced is given beside the instruction. -/
theorem produced_eq_ok {types : OperandTypes} {t : FrameType} (h : produced types = .ok t) :
    t ∈ types.types := by
  cases types with
  | value type =>
    cases h
    exact List.mem_singleton_self t
  | _ => cases h

/-- A call takes its arguments and its receiver, and gives what it returns. -/
theorem call_eq_ok {types : OperandTypes} {hasReceiver : Bool} {S' : Stack}
    (h : call types hasReceiver S = .ok S') :
    ∃ taken rest, S = taken ++ rest ∧ taken.length = types.arguments + hasReceiver.toNat ∧
      S' = types.types ++ rest := by
  cases types with
  | call arguments returns =>
    rw [call] at h
    obtain ⟨below, hmany, hbelow⟩ := ok_of_bind h
    obtain ⟨taken, hlength, rfl⟩ := popMany_eq_ok hmany
    cases hasReceiver with
    | false =>
      cases hbelow
      exact ⟨taken, below, rfl, hlength, rfl⟩
    | true =>
      rw [if_pos rfl] at hbelow
      obtain ⟨r, hpop, hreturns⟩ := ok_of_bind hbelow
      cases hreturns
      refine ⟨taken ++ [r.1], r.2, ?_, ?_, rfl⟩
      · rw [popKind_eq_ok hpop, List.append_assoc]
        rfl
      · rw [List.length_append, hlength]
        rfl
  | _ => cases h

/-- What an array holds is known. -/
theorem isKnown_of_elementType {array t : FrameType} (h : elementType kind array = .ok t) :
    t.isKnown = true := by
  unfold elementType at h
  repeat' split at h
  all_goals first | cases h; rfl | cases h

/-! ### Instructions have effects

An instruction `Acts` as its effect says, whatever the frame: the parts of a step are put together
as the step itself is. -/

/-- An outcome that is an effect of the instruction, unless it is a fault. -/
def Acts (n : Nat) (i : Instruction) (types : OperandTypes) (f : Frame)
    (x : Except StepFault Frame) : Prop :=
  ∀ g, x = .ok g → Effects n i types f g

section Acts

variable {n : Nat} {i : Instruction} {types : OperandTypes} {f : Frame}
  {e : Effect} {a : FrameType × Stack} {G : Stack}

theorem acts_error (e : StepFault) : Acts n i types f (.error e) := fun _ h => nomatch h

theorem acts_ok {g : Frame} (h : Effects n i types f g) : Acts n i types f (.ok g) := by
  rintro _ ⟨⟩
  exact h

theorem acts_bind {α : Type} {x : Except StepFault α} {k : α → Except StepFault Frame}
    (h : ∀ v, x = .ok v → Acts n i types f (k v)) : Acts n i types f (x >>= k) := by
  intro g hg
  obtain ⟨v, hv, hg⟩ := ok_of_bind hg
  exact h v hv g hg

/-- Some values are replaced by others. -/
theorem acts_work {T R : Stack} (he : i.opcode.effect = e) (hi : e.isStore = false)
    (htaken : T.length = e.takes i.operands types) (hgiven : G.length = e.gives types)
    (hf : f.stack = T ++ R) (hsource : ∀ t ∈ G, Source n i types f T t) :
    Acts n i types f (.ok { f with stack := G ++ R }) := by
  subst he
  exact acts_ok (.work hi htaken hgiven hf hsource)

theorem acts_one (he : i.opcode.effect = e) (hi : e.isStore = false)
    (htaken : e.takes i.operands types = 1) (hgiven : G.length = e.gives types)
    (ha : f.stack = a.1 :: a.2) (hsource : ∀ t ∈ G, Source n i types f [a.1] t) :
    Acts n i types f (.ok { f with stack := G ++ a.2 }) :=
  acts_work (T := [a.1]) he hi htaken.symm hgiven ha hsource

theorem acts_two {b : FrameType × Stack} (he : i.opcode.effect = e) (hi : e.isStore = false)
    (htaken : e.takes i.operands types = 2) (hgiven : G.length = e.gives types)
    (ha : f.stack = a.1 :: a.2) (hb : a.2 = b.1 :: b.2)
    (hsource : ∀ t ∈ G, Source n i types f [a.1, b.1] t) :
    Acts n i types f (.ok { f with stack := G ++ b.2 }) :=
  acts_work (T := [a.1, b.1]) he hi htaken.symm hgiven (by rw [ha, hb]; rfl) hsource

theorem acts_three {b c : FrameType × Stack} (he : i.opcode.effect = e) (hi : e.isStore = false)
    (htaken : e.takes i.operands types = 3) (hgiven : G.length = e.gives types)
    (ha : f.stack = a.1 :: a.2) (hb : a.2 = b.1 :: b.2) (hc : b.2 = c.1 :: c.2)
    (hsource : ∀ t ∈ G, Source n i types f [a.1, b.1, c.1] t) :
    Acts n i types f (.ok { f with stack := G ++ c.2 }) :=
  acts_work (T := [a.1, b.1, c.1]) he hi htaken.symm hgiven (by rw [ha, hb, hc]; rfl) hsource

theorem acts_call {hasReceiver : Bool} (he : i.opcode.effect = e) (hi : e.isStore = false)
    (htaken : e.takes i.operands types = types.arguments + hasReceiver.toNat)
    (hgiven : e.gives types = types.types.length) :
    Acts n i types f (do
      let stack ← call types hasReceiver f.stack
      return { f with stack }) := by
  refine acts_bind fun S hS => ?_
  obtain ⟨taken, rest, hf, hlength, rfl⟩ := call_eq_ok hS
  exact acts_work he hi (hlength.trans htaken.symm) hgiven.symm hf fun t ht => .given ht

end Acts

/-- **A step has one of the effects.** This is the one place where every instruction is
looked at; what instructions keep is shown from here on for the effects. -/
theorem acts_step (n : Nat) (i : Instruction) (types : OperandTypes) (f : Frame) :
    Acts n i types f (f.step n i types) := by
  have hnone {taken : Stack} : ∀ u ∈ [], Source n i types f taken u :=
    fun u hu => absurd hu List.not_mem_nil
  have hknown {taken : Stack} {t : FrameType} (ht : t.isKnown = true) :
      ∀ u ∈ [t], Source n i types f taken u :=
    fun u hu => .known (List.mem_singleton.1 hu ▸ ht)
  have hgiven {taken : Stack} {t : FrameType} (ht : produced types = .ok t) :
      ∀ u ∈ [t], Source n i types f taken u :=
    fun u hu => .given (List.mem_singleton.1 hu ▸ produced_eq_ok ht)
  unfold step
  cases heffect : i.opcode.effect with
  | nop | goto | exit => exact acts_work (T := []) (G := []) heffect rfl rfl rfl rfl hnone
  | pushInt | pushFloat | pushNull =>
    exact acts_work (T := []) (G := [_]) heffect rfl rfl rfl rfl (hknown rfl)
  | pushConstant | getStatic =>
    refine acts_bind fun t ht => ?_
    exact acts_work (T := []) (G := [t]) heffect rfl rfl rfl rfl (hgiven ht)
  | newObject =>
    exact acts_work (T := []) (G := [_]) heffect rfl rfl rfl rfl fun t ht =>
      .new (List.mem_singleton.1 ht) heffect
  | loadLocal kind =>
    refine acts_bind fun slot _ => ?_
    split
    · exact acts_error _
    · exact acts_error _
    · rename_i t _ ht
      split
      · exact acts_work (T := []) (G := [t]) heffect rfl rfl rfl rfl fun u hu =>
          .loaded (List.mem_singleton.1 hu ▸ List.mem_of_getElem? ht)
      · exact acts_error _
  | incrementLocal =>
    refine acts_bind fun slot _ => ?_
    split
    · exact acts_work (T := []) (G := []) heffect rfl rfl rfl rfl hnone
    · exact acts_error _
  | storeLocal kind =>
    refine acts_bind fun slot hslot => acts_bind fun r hr => ?_
    have hstore : Acts n i types f
        (.ok ⟨setLocal f.locals slot.toNat (types.stored r.1), r.2⟩) :=
      acts_ok (.store heffect (slot?_of_slotOf hslot) (popKind_eq_ok hr))
    cases types with
    | value declared =>
      dsimp only
      split
      · exact hstore
      · exact acts_error _
    | _ => exact hstore
  | pop | putStatic =>
    exact acts_bind fun a ha => acts_one (G := []) heffect rfl rfl rfl (pop_eq_ok ha) hnone
  | pop2 =>
    exact acts_bind fun a ha => acts_bind fun b hb =>
      acts_two (G := []) heffect rfl rfl rfl (pop_eq_ok ha) (pop_eq_ok hb) hnone
  | dup =>
    exact acts_bind fun a ha => acts_one (G := [a.1, a.1]) heffect rfl rfl rfl (pop_eq_ok ha)
      fun t ht => .taken (by simpa using ht)
  | dupX1 =>
    exact acts_bind fun a ha => acts_bind fun b hb => acts_two (G := [a.1, b.1, a.1]) heffect
      rfl rfl rfl (pop_eq_ok ha) (pop_eq_ok hb) fun t ht => .taken (by grind)
  | dup2 =>
    exact acts_bind fun a ha => acts_bind fun b hb => acts_two (G := [a.1, b.1, a.1, b.1])
      heffect rfl rfl rfl (pop_eq_ok ha) (pop_eq_ok hb) fun t ht => .taken (by grind)
  | swap =>
    exact acts_bind fun a ha => acts_bind fun b hb => acts_two (G := [b.1, a.1]) heffect
      rfl rfl rfl (pop_eq_ok ha) (pop_eq_ok hb) fun t ht => .taken (by grind)
  | dupX2 =>
    exact acts_bind fun a ha => acts_bind fun b hb => acts_bind fun c hc =>
      acts_three (G := [a.1, b.1, c.1, a.1]) heffect rfl rfl rfl (pop_eq_ok ha) (pop_eq_ok hb)
        (pop_eq_ok hc) fun t ht => .taken (by grind)
  | intBinary | floatBinary | floatCompare =>
    exact acts_bind fun a ha => acts_bind fun b hb => acts_two (G := [_]) heffect rfl rfl rfl
      (popKind_eq_ok ha) (popKind_eq_ok hb) (hknown rfl)
  | intUnary | floatUnary | intToFloat | floatToInt | arrayLength | instanceOf =>
    exact acts_bind fun a ha => acts_one (G := [_]) heffect rfl rfl rfl (popKind_eq_ok ha)
      (hknown rfl)
  | arrayLoad kind =>
    exact acts_bind fun a ha => acts_bind fun b hb => acts_bind fun t ht =>
      acts_two (G := [t]) heffect rfl rfl rfl (popKind_eq_ok ha) (popKind_eq_ok hb)
        (hknown (isKnown_of_elementType ht))
  | arrayStore kind =>
    exact acts_bind fun a ha => acts_bind fun b hb => acts_bind fun c hc =>
      acts_three (G := []) heffect rfl rfl rfl (popKind_eq_ok ha) (popKind_eq_ok hb)
        (popKind_eq_ok hc) hnone
  | newPrimitiveArray =>
    refine acts_bind fun a ha => ?_
    dsimp only
    split
    · exact acts_one (G := [_]) heffect rfl rfl rfl (popKind_eq_ok ha) (hknown rfl)
    · exact acts_error _
  | newReferenceArray | getField | checkCast =>
    exact acts_bind fun a ha => acts_bind fun t ht =>
      acts_one (G := [t]) heffect rfl rfl rfl (popKind_eq_ok ha) (hgiven ht)
  | newMultiArray =>
    dsimp only
    split
    · exact acts_error _
    · rename_i dimensions hdimensions
      refine acts_bind fun S hS => acts_bind fun t ht => ?_
      obtain ⟨taken, hlength, hf⟩ := popInts_eq_ok hS
      refine acts_work (G := [t]) heffect rfl ?_ rfl hf (hgiven ht)
      rw [hlength, Effect.takes, hdimensions]
      rfl
  | putField =>
    exact acts_bind fun a ha => acts_bind fun b hb => acts_two (G := []) heffect rfl rfl rfl
      (pop_eq_ok ha) (popKind_eq_ok hb) hnone
  | invoke => exact acts_call heffect rfl rfl rfl
  | invokeStatic => exact acts_call heffect rfl rfl rfl
  | invokeSpecial =>
    cases types with
    | constructor arguments type =>
      refine acts_bind fun below hbelow => acts_bind fun r hr => ?_
      obtain ⟨taken, rfl, hf⟩ := popMany_eq_ok hbelow
      obtain ⟨receiver, rest⟩ := r
      rw [pop_eq_ok hr] at hf
      cases receiver with
      | uninitializedThis => exact acts_ok (.construct heffect rfl hf (.inl rfl))
      | uninitialized origin => exact acts_ok (.construct heffect rfl hf (.inr ⟨origin, rfl⟩))
      | _ => exact acts_error _
    | _ => exact acts_call heffect rfl rfl rfl
  | ifZero | ifNull | exitWith =>
    exact acts_bind fun a ha => acts_one (G := []) heffect rfl rfl rfl (popKind_eq_ok ha) hnone
  | ifCompare =>
    refine acts_bind fun a ha => acts_bind fun b hb => ?_
    dsimp only
    split
    · exact acts_two (G := []) heffect rfl rfl rfl (pop_eq_ok ha) (pop_eq_ok hb) hnone
    · exact acts_error _

/-- **An instruction that runs has its effect.** -/
theorem effects_of_step {f g : Frame} {n : Nat} {i : Instruction} {types : OperandTypes}
    (h : f.step n i types = .ok g) : Effects n i types f g :=
  acts_step n i types f g h

end Frame
end ClassForge
