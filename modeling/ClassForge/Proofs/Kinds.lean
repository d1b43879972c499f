/-
# The kinds of operands

Specification, section 4.3: the arity table of the stack effects.

An instruction works on values of certain kinds, which lie on the stack, top first, or in
the slot that it uses:

| opcodes | values on the stack | slot |
| --- | --- | --- |
| constants, `getstatic`, `new`, `goto`, `return` | | |
| loads | | the kind of the load |
| stores | the kind of the store | |
| `iinc` | | an integer |
| `pop`, `dup` … `swap` | one to three of any kind | |
| arithmetic, conversions, `ifeq` … `ifle`, returns | one or two of the kind of the opcode | |
| `xaload` | integer, reference | |
| `xastore` | the kind of the element, integer, reference | |
| `arraylength`, `getfield`, casts, `ifnull`, `ifnonnull` | reference | |
| `newarray`, `anewarray`, `multianewarray` | an integer for each dimension | |
| `if_icmpxx`, `if_acmpxx` | two integers, two references | |

What the others pop depends on a descriptor, which a frame does not see.

`Frame.step` looks at the effect of an opcode and not at the opcode itself.  Every effect
asks for what its opcodes ask for (`Opcode.allowed_eq`), except one: the comparisons of
integers and those of references share an effect, which lets two values of either kind pass.
So an instruction that runs has found the kinds that its opcode asks for, or is a comparison
that has found those of the other one (`Frame.operands_found`).
-/

import ClassForge.Proofs.StackEffect

namespace ClassForge

/-! ### What opcodes ask for -/

namespace Opcode

/-- Does a descriptor say what the instruction pops? -/
def byDescriptor : Opcode → Bool
  | .putstatic | .putfield | .invokevirtual | .invokespecial | .invokestatic
  | .invokeinterface => true
  | _ => false

/-- The kinds of the values that an instruction pops, top first; none where any value will
do.  The third operand byte of `multianewarray` is the number of dimensions. -/
def popped (op : Opcode) (operands : Bytes) : List (Option ValueKind) :=
  match op with
  | .istore | .istore0 | .istore1 | .istore2 | .istore3 | .ineg | .i2f | .ifeq | .ifne | .iflt
  | .ifge | .ifgt | .ifle | .ireturn | .newarray | .anewarray => [some .int]
  | .fstore | .fstore0 | .fstore1 | .fstore2 | .fstore3 | .fneg | .f2i | .freturn =>
    [some .float]
  | .astore | .astore0 | .astore1 | .astore2 | .astore3 | .areturn | .getfield | .arraylength
  | .checkcast | .instanceof | .ifnull | .ifnonnull => [some .reference]
  | .iadd | .isub | .imul | .idiv | .irem | .ishl | .ishr | .iushr | .iand | .ior | .ixor
  | .ifIcmpeq | .ifIcmpne | .ifIcmplt | .ifIcmpge | .ifIcmpgt | .ifIcmple =>
    [some .int, some .int]
  | .fadd | .fsub | .fmul | .fdiv | .frem | .fcmpl | .fcmpg => [some .float, some .float]
  | .ifAcmpeq | .ifAcmpne => [some .reference, some .reference]
  | .iaload | .faload | .aaload | .baload => [some .int, some .reference]
  | .iastore | .bastore => [some .int, some .int, some .reference]
  | .fastore => [some .float, some .int, some .reference]
  | .aastore => [some .reference, some .int, some .reference]
  | .pop | .dup => [none]
  | .pop2 | .dupX1 | .dup2 | .swap => [none, none]
  | .dupX2 => [none, none, none]
  | .multianewarray => List.replicate ((operands[2]?.map UInt8.toNat).getD 0) (some .int)
  | _ => []

/-- The kind of the value in the slot that an instruction reads. -/
def slotKind : Opcode → Option ValueKind
  | .iload | .iload0 | .iload1 | .iload2 | .iload3 | .iinc => some .int
  | .fload | .fload0 | .fload1 | .fload2 | .fload3 => some .float
  | .aload | .aload0 | .aload1 | .aload2 | .aload3 => some .reference
  | _ => none

/-- Does the instruction compare two values? -/
def isComparison : Opcode → Bool
  | .ifIcmpeq | .ifIcmpne | .ifIcmplt | .ifIcmpge | .ifIcmpgt | .ifIcmple | .ifAcmpeq
  | .ifAcmpne => true
  | _ => false

/-- The kinds with which an instruction passes: those that its opcode asks for and, for a
comparison, those that a comparison of the other kind asks for. -/
def allowed (op : Opcode) (operands : Bytes) : List (List (Option ValueKind)) :=
  if op.isComparison then [[some .int, some .int], [some .reference, some .reference]]
  else [op.popped operands]

theorem popped_mem_allowed (op : Opcode) (operands : Bytes) :
    op.popped operands ∈ op.allowed operands := by
  unfold allowed
  split
  · rename_i hcomparison
    -- integers are listed first, references second
    cases op <;> first
      | exact absurd hcomparison (by decide)
      | exact List.mem_cons_self
      | exact List.mem_cons_of_mem _ (List.mem_singleton_self _)
  · exact List.mem_singleton_self _

end Opcode

/-- The slot that the instruction stores to. -/
def Instruction.storedSlot? (i : Instruction) : Option UInt16 :=
  if i.opcode.effect.isStore then i.slot? else none

namespace Effect

/-- The kinds with which an effect is possible. -/
def allowed (e : Effect) (operands : Bytes) : List (List (Option ValueKind)) :=
  match e with
  | .nop | .goto | .exit | .pushInt | .pushFloat | .pushNull | .pushConstant | .loadLocal _
  | .incrementLocal | .newObject | .getStatic => [[]]
  | .storeLocal kind | .exitWith kind => [[some kind]]
  | .intUnary | .intToFloat | .newPrimitiveArray | .newReferenceArray | .ifZero => [[some .int]]
  | .floatUnary | .floatToInt => [[some .float]]
  | .arrayLength | .getField | .checkCast | .instanceOf | .ifNull => [[some .reference]]
  | .intBinary => [[some .int, some .int]]
  | .floatBinary | .floatCompare => [[some .float, some .float]]
  | .arrayLoad _ => [[some .int, some .reference]]
  | .arrayStore kind => [[some kind, some .int, some .reference]]
  | .ifCompare => [[some .int, some .int], [some .reference, some .reference]]
  | .pop | .dup => [[none]]
  | .pop2 | .dupX1 | .dup2 | .swap => [[none, none]]
  | .dupX2 => [[none, none, none]]
  | .newMultiArray => [List.replicate ((operands[2]?.map UInt8.toNat).getD 0) (some .int)]
  | .putStatic | .putField | .invoke | .invokeSpecial | .invokeStatic => []

/-- The kind of the value in the slot that an effect reads. -/
def slotKind : Effect → Option ValueKind
  | .loadLocal kind => some kind
  | .incrementLocal => some .int
  | _ => none

end Effect

namespace Opcode

/-- **An opcode allows just the operands that its effect allows** -/
theorem allowed_eq {op : Opcode} (h : op.byDescriptor = false) (operands : Bytes) :
    op.allowed operands = op.effect.allowed operands := by
  cases op <;> first | rfl | exact absurd h (by decide)

theorem slotKind_eq (op : Opcode) : op.slotKind = op.effect.slotKind := by cases op <;> rfl

theorem effect_ne_invokeSpecial {op : Opcode} (h : op.byDescriptor = false) :
    op.effect ≠ .invokeSpecial := by
  cases op <;> first | decide | exact absurd h (by decide)

end Opcode

namespace Frame

variable {f g : Frame} {i : Instruction} {kinds : List (Option ValueKind)} {n : Nat}
  {types : OperandTypes} {S : Stack} {kind : ValueKind}

/-! ### Values that are taken off the stack -/

/-- Are the values as many as are asked for, each of the kind that is asked for? -/
def answers : List (Option ValueKind) → Stack → Bool
  | [], [] => true
  | kind :: kinds, t :: ts => kind.all (hasKind t) && answers kinds ts
  | _, _ => false

/-- The values on top of the stack are those that are asked for. -/
def Offers (S : Stack) (kinds : List (Option ValueKind)) : Prop :=
  ∃ taken rest, S = taken ++ rest ∧ answers kinds taken = true

/-- Values that answer are as many as asked for. -/
theorem length_of_answers {ts : Stack} (h : answers kinds ts = true) :
    ts.length = kinds.length := by
  fun_induction answers kinds ts with
  | case1 => rfl
  | case2 kind kinds t ts ih =>
    have hrest := (Bool.and_eq_true_iff.1 h).2
    simp [ih hrest]
  | case3 => cases h

/-- Where no more values lie on the stack than are asked for, they are all taken. -/
theorem answers_of_offers (hlength : S.length = kinds.length) (h : Offers S kinds) :
    answers kinds S = true := by
  obtain ⟨taken, rest, rfl, htaken⟩ := h
  have hrest : rest.length = 0 := by
    have htotal := length_of_answers htaken
    rw [List.length_append] at hlength
    omega
  rw [List.length_eq_zero_iff.1 hrest, List.append_nil]
  exact htaken

theorem offers_nil (S : Stack) : Offers S [] := ⟨[], S, rfl, rfl⟩

/-- A value of the kind on top of a stack that offers the others. -/
theorem Offers.cons {t : FrameType} {kind : Option ValueKind} (h : Offers S kinds)
    (ht : kind.all (hasKind t) = true) :
    Offers (t :: S) (kind :: kinds) := by
  obtain ⟨taken, rest, rfl, htaken⟩ := h
  refine ⟨t :: taken, rest, rfl, ?_⟩
  rw [answers, ht, htaken]
  rfl

theorem Offers.of_pop {r : FrameType × Stack} (h : pop S = .ok r) (hrest : Offers r.2 kinds) :
    Offers S (none :: kinds) := by
  rw [pop_eq_ok h]
  exact hrest.cons rfl

theorem Offers.of_popKind {r : FrameType × Stack} (h : popKind kind S = .ok r)
    (hrest : Offers r.2 kinds) :
    Offers S (some kind :: kinds) := by
  rw [popKind_eq_ok h]
  exact hrest.cons (hasKind_of_popKind h)

/-- Integers that were popped were all offered. -/
theorem offers_of_popInts {count : Nat} {rest : Stack} (h : popInts count S = .ok rest) :
    Offers S (List.replicate count (some .int)) := by
  induction count generalizing S with
  | zero => exact offers_nil S
  | succ count ih =>
    obtain ⟨r, hpop, h⟩ := ok_of_bind h
    exact .of_popKind hpop (ih h)

/-- Two values that can be compared are two integers or two references. -/
theorem offers_of_comparable {a b : FrameType} (rest : Stack) (h : comparable a b = true) :
    ∃ kinds ∈ Effect.ifCompare.allowed [], Offers (a :: b :: rest) kinds := by
  have hpair (kind : ValueKind) (ha : hasKind a kind = true) (hb : hasKind b kind = true) :
      Offers (a :: b :: rest) [some kind, some kind] := by
    have hbelow : Offers (b :: rest) [some kind] := (offers_nil rest).cons (by exact hb)
    exact hbelow.cons (by exact ha)
  unfold comparable at h
  simp only [Bool.or_eq_true, Bool.and_eq_true] at h
  rcases h with ⟨ha, hb⟩ | ⟨ha, hb⟩
  · exact ⟨_, List.mem_cons_of_mem _ (List.mem_singleton_self _), hpair .reference ha hb⟩
  · exact ⟨_, List.mem_cons_self, hpair .int ha hb⟩

/-- **An instruction that runs has found values of the kinds that its effect allows.**
They lie on top of the stack in this order, so that no opcode is used for values of
another kind. -/
theorem offers_of_step (hi : i.opcode.byDescriptor = false) (h : f.step n i types = .ok g) :
    ∃ kinds ∈ i.opcode.effect.allowed i.operands, Offers f.stack kinds := by
  have hone {kinds : List (Option ValueKind)} (hkinds : Offers f.stack kinds) :
      ∃ ks ∈ [kinds], Offers f.stack ks := ⟨kinds, List.mem_singleton_self kinds, hkinds⟩
  have hopcode := Opcode.allowed_eq hi i.operands
  unfold step at h
  cases heffect : i.opcode.effect with
  | nop | goto | exit | pushInt | pushFloat | pushNull | pushConstant | loadLocal
  | incrementLocal | newObject | getStatic => exact hone (offers_nil _)
  | pop | dup =>
    rw [heffect] at h
    obtain ⟨a, ha, -⟩ := ok_of_bind h
    exact hone (.of_pop ha (offers_nil _))
  | pop2 | dupX1 | dup2 | swap =>
    rw [heffect] at h
    obtain ⟨a, ha, h⟩ := ok_of_bind h
    obtain ⟨b, hb, -⟩ := ok_of_bind h
    exact hone (.of_pop ha (.of_pop hb (offers_nil _)))
  | dupX2 =>
    rw [heffect] at h
    obtain ⟨a, ha, h⟩ := ok_of_bind h
    obtain ⟨b, hb, h⟩ := ok_of_bind h
    obtain ⟨c, hc, -⟩ := ok_of_bind h
    exact hone (.of_pop ha (.of_pop hb (.of_pop hc (offers_nil _))))
  | intUnary | floatUnary | intToFloat | floatToInt | arrayLength | newPrimitiveArray
  | newReferenceArray | getField | checkCast | instanceOf | ifZero | ifNull | exitWith =>
    rw [heffect] at h
    obtain ⟨a, ha, -⟩ := ok_of_bind h
    exact hone (.of_popKind ha (offers_nil _))
  | storeLocal kind =>
    rw [heffect] at h
    obtain ⟨slot, -, h⟩ := ok_of_bind h
    obtain ⟨a, ha, -⟩ := ok_of_bind h
    exact hone (.of_popKind ha (offers_nil _))
  | intBinary | floatBinary | floatCompare | arrayLoad =>
    rw [heffect] at h
    obtain ⟨a, ha, h⟩ := ok_of_bind h
    obtain ⟨b, hb, -⟩ := ok_of_bind h
    exact hone (.of_popKind ha (.of_popKind hb (offers_nil _)))
  | arrayStore kind =>
    rw [heffect] at h
    obtain ⟨a, ha, h⟩ := ok_of_bind h
    obtain ⟨b, hb, h⟩ := ok_of_bind h
    obtain ⟨c, hc, -⟩ := ok_of_bind h
    exact hone (.of_popKind ha (.of_popKind hb (.of_popKind hc (offers_nil _))))
  | ifCompare =>
    rw [heffect] at h
    obtain ⟨a, ha, h⟩ := ok_of_bind h
    obtain ⟨b, hb, h⟩ := ok_of_bind h
    dsimp only at h
    split at h
    · rename_i hcomparable
      rw [pop_eq_ok ha, pop_eq_ok hb]
      exact offers_of_comparable b.2 hcomparable
    · cases h
  | newMultiArray =>
    rw [heffect] at h
    dsimp only at h
    split at h
    · cases h
    · rename_i dimensions hdimensions
      obtain ⟨rest, hrest, -⟩ := ok_of_bind h
      refine hone ?_
      rw [hdimensions]
      exact offers_of_popInts hrest
  | putStatic | putField | invoke | invokeSpecial | invokeStatic =>
    -- an opcode with one of these effects has operands by descriptor: no kinds are allowed
    rw [heffect] at hopcode
    have hmem := Opcode.popped_mem_allowed i.opcode i.operands
    rw [hopcode] at hmem
    cases hmem

/-- The values that are asked for are those that the instruction takes. -/
theorem length_of_allowed {e : Effect} {operands : Bytes} (h : kinds ∈ e.allowed operands) :
    kinds.length = e.takes operands types := by
  cases e <;> simp only [Effect.allowed, List.mem_cons, List.not_mem_nil, or_false] at h
  case ifCompare => rcases h with rfl | rfl <;> rfl
  case newMultiArray =>
    subst h
    exact List.length_replicate
  all_goals
    subst h
    rfl

/-! ### Slots -/

/-- **An instruction that runs has found a value of its kind in the slot that it reads.**
For an increment this is an integer, for a load the kind of its opcode. -/
theorem hasKind_of_slot (h : f.step n i types = .ok g)
    (hkind : i.opcode.effect.slotKind = some kind) :
    ∃ slot t, i.slot? = some slot ∧ f.locals[slot.toNat]? = some t ∧ hasKind t kind = true := by
  unfold step at h
  cases heffect : i.opcode.effect with
  | loadLocal k =>
    rw [heffect] at h hkind
    cases hkind
    obtain ⟨slot, hslot, h⟩ := ok_of_bind h
    split at h
    · cases h
    · cases h
    · rename_i t _ ht
      split at h
      · rename_i hk
        exact ⟨slot, t, slot?_of_slotOf hslot, ht, hk⟩
      · cases h
  | incrementLocal =>
    rw [heffect] at h hkind
    cases hkind
    obtain ⟨slot, hslot, h⟩ := ok_of_bind h
    split at h
    · rename_i ht
      exact ⟨slot, .integer, slot?_of_slotOf hslot, ht, rfl⟩
    · cases h
  | _ =>
    rw [heffect] at hkind
    cases hkind

/-- **A store leaves a value of its kind in the slot.** -/
theorem hasKind_stored {value : FrameType} {rest : Stack} (h : f.step n i types = .ok g)
    (hi : i.opcode.effect = .storeLocal kind) (hf : f.stack = value :: rest) :
    hasKind (types.stored value) kind = true := by
  unfold step at h
  rw [hi] at h
  obtain ⟨slot, -, h⟩ := ok_of_bind h
  obtain ⟨r, hr, h⟩ := ok_of_bind h
  have hvalue := hasKind_of_popKind hr
  rw [popKind_eq_ok hr] at hf
  obtain ⟨rfl, -⟩ := List.cons.inj hf
  cases types with
  | value declared =>
    dsimp only at h
    split at h
    · rename_i hdeclared
      exact hdeclared
    · cases h
  | _ => exact hvalue

/-- The type of a slot; a slot that is not listed is `top`. -/
def slotType (f : Frame) (slot : Nat) : FrameType := f.locals[slot]?.getD .top

/-- A store leaves the other slots as they are. -/
theorem slotType_setLocal {locals : List FrameType} {T : Stack} {slot : Nat} {t : FrameType}
    (h : n ≠ slot) : slotType ⟨setLocal locals slot t, S⟩ n = slotType ⟨locals, T⟩ n := by
  unfold slotType
  rw [getElem?_setLocal, if_neg h]
  split
  · rfl
  · rename_i hn
    rw [List.getElem?_eq_none (Nat.le_of_not_lt hn)]
    split <;> rfl

/-! ### Instructions that run -/

/-- **An instruction runs only on operands of the right kinds.**  Take any instruction whose
operands do not depend on a descriptor, and any frame in which it runs.  On top of the stack
are the values that its opcode asks for, in that order, and these alone are replaced; only a
comparison also passes with two values of the other kind.  The slot that it reads holds a
value of its kind.  Every slot but the one that it stores to has the type that it had, and
without a store the locals are the same. -/
theorem operands_found {f g : Frame} {n : Nat} {i : Instruction} {types : OperandTypes}
    (hi : i.opcode.byDescriptor = false) (h : f.step n i types = .ok g) :
    (∃ taken given rest, f.stack = taken ++ rest ∧ g.stack = given ++ rest ∧
      given.length = i.gives types ∧
      ∃ kinds ∈ i.opcode.allowed i.operands, answers kinds taken = true) ∧
    (∀ kind, i.opcode.slotKind = some kind → ∃ slot t, i.slot? = some slot ∧
      f.locals[slot.toNat]? = some t ∧ hasKind t kind = true) ∧
    (∀ m, (∀ slot, i.storedSlot? = some slot → m ≠ slot.toNat) → g.slotType m = f.slotType m) ∧
    (i.storedSlot? = none → g.locals = f.locals) := by
  obtain ⟨kinds, hkinds, taken, rest, hstack, hanswers⟩ := offers_of_step hi h
  have hlength : taken.length = i.takes types :=
    (length_of_answers hanswers).trans (length_of_allowed hkinds)
  rw [← Opcode.allowed_eq hi] at hkinds
  have hslot (kind : ValueKind) (hkind : i.opcode.slotKind = some kind) :=
    hasKind_of_slot h ((Opcode.slotKind_eq i.opcode).symm.trans hkind)
  cases effects_of_step h with
  | @work _ given _ _ htaken hgiven hf _ =>
    -- the values that are taken are as many as are asked for
    obtain ⟨rfl, rfl⟩ := List.append_inj (hstack.symm.trans hf) (hlength.trans htaken.symm)
    exact ⟨⟨taken, given, rest, hf, rfl, hgiven, kinds, hkinds, hanswers⟩, hslot,
      fun _ _ => rfl, fun _ => rfl⟩
  | @store kind slot value below heffect hslot' hf =>
    have htakes : i.takes types = [value].length := by
      rw [Instruction.takes, heffect]
      rfl
    obtain ⟨rfl, rfl⟩ := List.append_inj (hstack.symm.trans (hf : _ = [value] ++ below))
      (hlength.trans htakes)
    have hstored : i.storedSlot? = some slot := by
      rw [Instruction.storedSlot?, heffect, hslot']
      rfl
    have hgives : 0 = i.gives types := by
      rw [Instruction.gives, heffect]
      rfl
    refine ⟨⟨[value], [], rest, hf, rfl, hgives, kinds, hkinds, hanswers⟩, hslot,
      fun m hm => slotType_setLocal (hm slot hstored), fun hnone => ?_⟩
    rw [hstored] at hnone
    cases hnone
  | construct heffect => exact absurd heffect (Opcode.effect_ne_invokeSpecial hi)

/-- An integer is stored in an array, and a float in a slot beyond the last one; what lies
below on the stack stays where it is. -/
theorem operands_found_in_stores :
    (∃ taken given rest,
      [.integer, .integer, .object (.array 0 (.base .int)), .null] = taken ++ rest ∧
      [.null] = given ++ rest ∧ given.length = 0 ∧
      ∃ kinds ∈ [[some .int, some .int, some .reference]], answers kinds taken = true) ∧
    ∀ m, (∀ slot, (Instruction.store .float 3).storedSlot? = some slot → m ≠ slot.toNat) →
      slotType ⟨[.integer, .top, .top, .float], [.null]⟩ m =
        slotType ⟨[.integer], [.float, .null]⟩ m := by
  have harray : step ⟨[], [.integer, .integer, .object (.array 0 (.base .int)), .null]⟩ 0
      (.simple .iastore) .none = .ok ⟨[], [.null]⟩ := rfl
  have hslot : step ⟨[.integer], [.float, .null]⟩ 0 (.store .float 3) .none =
      .ok ⟨[.integer, .top, .top, .float], [.null]⟩ := rfl
  exact ⟨(operands_found rfl harray).1, (operands_found rfl hslot).2.2.1⟩

/-- **Comparisons do not tell their kinds apart**: a comparison of integers runs on two
references, and a comparison of references on two integers. -/
theorem comparisons_confused :
    (step ⟨[], [.null, .null]⟩ 0 (.branch .ifIcmpeq ⟨0⟩ ⟨[], []⟩) .none = .ok ⟨[], []⟩ ∧
      ¬ Offers [.null, .null] (Opcode.popped .ifIcmpeq [0, 0])) ∧
    (step ⟨[], [.integer, .integer]⟩ 0 (.branch .ifAcmpeq ⟨0⟩ ⟨[], []⟩) .none = .ok ⟨[], []⟩ ∧
      ¬ Offers [.integer, .integer] (Opcode.popped .ifAcmpeq [0, 0])) :=
  ⟨⟨rfl, fun h => absurd (answers_of_offers rfl h) (by decide)⟩,
    ⟨rfl, fun h => absurd (answers_of_offers rfl h) (by decide)⟩⟩

end Frame
end ClassForge
