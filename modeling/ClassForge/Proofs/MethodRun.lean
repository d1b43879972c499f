/-
# Methods run as they mean

Specification, section 4.6: the code of a method does what its statements say.

A static method over integers and truth values is compiled to bytes that do what
its statements mean (`Site.bytes_return_result`).  Three steps lead there:

| machine | addresses | why it returns |
| --- | --- | --- |
| the statements | none | by assumption |
| the instructions of the body | their numbers | `Site.Assembles.returns` |
| the bytes of the code | their offsets | `Body.Resolved.returns` |

The second step lays the instructions out; each of them does the same at its
offset, and a branch goes to the offset of the instruction at its label.
-/

import ClassForge.Proofs.Portability
import ClassForge.Proofs.StatementRun
import ClassForge.Sample

namespace ClassForge

open Machine

/-! ### From numbers to offsets -/

theorem Machine.exec_congr_branch {op : Opcode} (h : op.effect.isBranch = true) (k : Constants)
    (wide wide' : Bool) (operands operands' : Bytes) (m : Memory) :
    exec k op wide operands m = exec k op wide' operands' m := by
  cases op <;> first | rfl | cases h

namespace Body

variable {a : Assembler} {b c : Body} {length : Nat} {k : Constants}

/-- The instruction at an offset does what the instruction with its number does. -/
theorem Filled.exec_eq {origin : Nat} {i j : Instruction} (h : Filled b origin i j)
    (hi : i.Labelled) (m : Memory) :
    exec k j.opcode j.wide j.operands m = exec k i.opcode i.wide i.operands m := by
  cases h with
  | plain => rfl
  | branch ht =>
    have hbranch : i.opcode.effect.isBranch = true := by rw [← hi.target, ht]; rfl
    exact exec_congr_branch hbranch k _ _ _ _ m

/-- An instruction is found at its offset, and the next one behind it. -/
theorem Resolved.fetch (h : b.Resolved c length) (hfinish : a.finish = .ok b)
    (hlabelled : ∀ i ∈ a.instructions, i.Labelled) {n : Nat} {i : Fetched}
    (hi : a.fetch n = some i) :
    ∃ j, fetchItem (Instruction.itemsAt 0 c.instructions.toList)
        (Instruction.offsetOf b.instructions.toList n) = some j ∧
      (∀ m, exec k j.opcode j.wide j.operands m = exec k i.opcode i.wide i.operands m) ∧
      j.next = Instruction.offsetOf b.instructions.toList i.next ∧
      j.destination = i.destination.map (Instruction.offsetOf b.instructions.toList) := by
  obtain ⟨-, hdescribes, hinstructions, -⟩ := Assembler.finish_eq_ok hfinish
  have hb : ∀ i ∈ b.instructions, i.Labelled := hinstructions ▸ hlabelled
  obtain ⟨i, hn, rfl⟩ := Option.map_eq_some_iff.1 hi
  have hn' : b.instructions[n]? = some i := by rw [hinstructions, hn]
  have hi : i.Labelled := hlabelled i (Array.mem_of_getElem? hn)
  obtain ⟨j, hj, hfilled⟩ := h.filled n i hn'
  have hfind := Instruction.find?_itemsAt 0 c.instructions.toList
    (by rw [Array.getElem?_toList]; exact hj)
  rw [Nat.zero_add, h.offsetOf_eq hb] at hfind
  have hfetch : fetchItem (Instruction.itemsAt 0 c.instructions.toList)
      (Instruction.offsetOf b.instructions.toList n) =
        some ⟨j.opcode, j.wide, j.operands, Instruction.offsetOf b.instructions.toList n + j.size,
          (j.item (Instruction.offsetOf b.instructions.toList n)).destination?⟩ := by
    unfold fetchItem
    rw [hfind]
    rfl
  refine ⟨_, hfetch, hfilled.exec_eq hi, ?_, ?_⟩
  · dsimp only
    rw [Instruction.offsetOf_succ (by rw [Array.getElem?_toList]; exact hn'), hfilled.size hi]
  · refine (hfilled.destination? hi).trans (congrArg (Option.map _ <| i.target?.bind ·) ?_)
    funext target
    rw [hdescribes.positions, Array.getElem?_toList]
    rfl

/-- One instruction does at its offset what it does at its number. -/
theorem Resolved.step (h : b.Resolved c length) (hfinish : a.finish = .ok b)
    (hlabelled : ∀ i ∈ a.instructions, i.Labelled) {x y : Config} (hstep : Step a.fetch k x y) :
    Step (fetchItem (Instruction.itemsAt 0 c.instructions.toList)) k
      ⟨Instruction.offsetOf b.instructions.toList x.pc, x.memory⟩
      ⟨Instruction.offsetOf b.instructions.toList y.pc, y.memory⟩ := by
  cases hstep with
  | go hi hexec =>
    obtain ⟨j, hj, hsame, hnext, -⟩ := h.fetch (k := k) hfinish hlabelled hi
    rw [← hnext]
    exact .go hj (by rw [hsame]; exact hexec)
  | jump hi hexec hn =>
    obtain ⟨j, hj, hsame, -, hdestination⟩ := h.fetch (k := k) hfinish hlabelled hi
    exact .jump hj (by rw [hsame]; exact hexec) (by rw [hdestination, hn]; rfl)

/-- **The bytes return what the instructions return.** -/
theorem Resolved.returns (h : b.Resolved c length) (hfinish : a.finish = .ok b)
    (hlabelled : ∀ i ∈ a.instructions, i.Labelled) {x : Config} {v : Option Int32}
    (hreturns : Returns a.fetch k x v) :
    Returns (fetchItem (Instruction.itemsAt 0 c.instructions.toList)) k
      ⟨Instruction.offsetOf b.instructions.toList x.pc, x.memory⟩ v := by
  induction hreturns with
  | leave hi hexec =>
    obtain ⟨j, hj, hsame, -⟩ := h.fetch (k := k) hfinish hlabelled hi
    exact .leave hj (by rw [hsame]; exact hexec)
  | step hstep _ ih => exact .step (h.step hfinish hlabelled hstep) ih

end Body

/-! ### The code of a method -/

/-- A static method with code over integers and truth values: all its locals are in
scope where they are used, each is declared with a value, and locals in scope
together are different. -/
structure MethodDecl.Integral (m : MethodDecl) : Prop where
  isStatic : m.isStatic = true
  hasCode : m.isAbstract = false
  parameters : ∀ p ∈ m.parameters, p.type.isIntegral = true
  distinct : (m.parameters.map Parameter.id).Nodup
  returns : ∀ t ∈ m.returns, t.isIntegral = true
  areScoped : Stmt.areScoped m.context m.body = true
  areIntegral : Stmt.areIntegral m.returns.isSome m.context m.body = true

/-- The integers among the constants of a class. -/
def ConstantPool.integers (q : ConstantPool) : Constants := fun index =>
  match q.get? index with
  | some (.integer v) => some v
  | _ => none

/-- The code of a finished body, in a class that has its constants. -/
def Whole.ofFinished {a : Assembler} {b : Body} {q : ConstantPool} (hfinish : a.finish = .ok b)
    (hpool : a.pool.Grows q) : Whole where
  assembler := a
  constants := q.integers
  placed n state hstate hjumped := by
    obtain ⟨-, hdescribes, -⟩ := Assembler.finish_eq_ok hfinish
    have hmem : state ∈ a.labels.toList := Array.mem_toList_iff.2 (Array.mem_of_getElem? hstate)
    obtain ⟨index, -, hplaced, -⟩ := hdescribes.branched state hmem hjumped
    exact ⟨index, hplaced⟩
  integers index v hv := by
    unfold ConstantPool.integers
    rw [hpool index _ hv]

/-- The slots hold the arguments. -/
def Machine.Memory.ofArguments (arguments : List Value) : Memory where
  locals n := arguments[n]?.map Value.bits
  stack := []

/-- The arguments are the values of the parameters. -/
theorem agrees_ofArguments {ps : List Parameter} {arguments : List Value}
    (hdistinct : (ps.map Parameter.id).Nodup) (hlength : arguments.length = ps.length) :
    Agrees (ps.map fun p => (p.id, p.type)) (Store.ofArguments ps arguments)
      (Memory.ofArguments arguments).locals := by
  induction ps generalizing arguments with
  | nil => exact fun n id type hn => nomatch hn
  | cons p ps ih =>
    obtain ⟨hnew, hdistinct⟩ := List.nodup_cons.1 hdistinct
    obtain ⟨v, vs, rfl⟩ := List.exists_cons_of_length_eq_add_one hlength
    intro n id type hn
    cases n with
    | zero =>
      cases hn
      exact ⟨v, if_pos rfl, rfl⟩
    | succ n =>
      rw [List.map_cons, List.getElem?_cons_succ] at hn
      obtain ⟨w, hw, hlocals⟩ := ih hdistinct (Nat.succ.inj hlength) n id type hn
      have hid : id ≠ p.id := by
        rintro rfl
        obtain ⟨p', hp', heq⟩ := List.mem_map.1 (List.mem_of_getElem? hn)
        exact hnew (List.mem_map.2 ⟨p', hp', congrArg Prod.fst heq⟩)
      exact ⟨w, (if_neg hid).trans hw, hlocals⟩

namespace Site

open Lowering

variable {W : Whole} {site : Site} {P : LocalSlots → Prop} {e : Control}

/-- A static method makes no implicit call. -/
theorem goes_lowerSuper (hstatic : site.method.isStatic = true) :
    Goes W P P site.lowerSuper e e := by
  unfold lowerSuper
  split
  · refine Goes.never fun slots a v slots' b _ h => ?_
    obtain ⟨_, _, _, hthis, -⟩ := Lowering.bind_eq_ok h
    unfold loadThis at hthis
    rw [if_pos hstatic] at hthis
    cases hthis
  · exact goes_pure ()

/-- Control that comes to the end of the method leaves it without a value. -/
theorem goes_lowerEnd {Γ : Context} {σ : Store} :
    Goes W P P site.lowerEnd (.here (Holds Γ σ [])) (.left none) where
  tracks := site.within_lowerEnd.emits.tracks P
  goes c slots a v slots' b hP h hgrows ha := by
    have hreach : isReachable slots a = .ok (true, slots) a := by
      unfold isReachable
      rw [ha.1]
    unfold lowerEnd at h
    rw [Lowering.bind_of_ok hreach] at h
    cases hresult : site.method.returns with
    | none =>
      rw [hresult] at h
      exact goes_exitVoid.goes c slots a v slots' b hP h hgrows ha
    | some type =>
      rw [hresult] at h
      cases h

/-- Counting the slots at the end of a method leaves the run where it is. -/
theorem goes_lowerSlots : Goes W P (fun _ => True) lowerSlots e e where
  tracks slots a v slots' b _ h :=
    ⟨(emits_lowerSlots slots a v slots' b h).1.built, trivial⟩
  goes c slots a v slots' b _ h _ ha := by
    cases h
    exact ha.of_eq (b := { a with maxLocals := max a.maxLocals slots.max })
      (.of_advances (.noteLocals slots.max a)) rfl id

/-- **The code of a method returns its result.** From the arguments in the first slots it
comes to an exit with the value that the statements have, or with none. -/
theorem goes_lower (hmethod : site.method.Integral) {fuel : Nat} {arguments : List Value}
    {v : Option Value} (hresult : site.method.result? fuel arguments = some v) :
    Goes W (·.Models 0 site.method.context 0 []) (fun _ => True) site.lower
      (.here (Holds site.method.context (Store.ofArguments site.method.parameters arguments) []))
      (.left (v.map Value.bits)) := by
  have hΓ : ∀ entry ∈ site.method.context, entry.2.isIntegral = true := by
    intro entry hentry
    obtain ⟨p, hp, rfl⟩ := List.mem_map.1 hentry
    exact hmethod.parameters p hp
  unfold MethodDecl.result? at hresult
  refine (goes_lowerSuper hmethod.isStatic).bind fun _ => ?_
  split at hresult
  · rename_i σ v' hrun
    cases hresult
    refine (Stmt.goesAll hmethod.returns _ hΓ hmethod.areScoped hmethod.areIntegral
      hrun).bind fun _ => ?_
    have hend := site.within_lowerEnd.emits.tracks
    exact (Goes.away (e := .left _) (hend _) trivial).bind fun _ => goes_lowerSlots
  · rename_i σ hrun
    cases hresult
    refine (Stmt.goesAll hmethod.returns _ hΓ hmethod.areScoped hmethod.areIntegral
      hrun).bind fun _ => ?_
    exact goes_lowerEnd.bind fun _ => goes_lowerSlots
  · cases hresult

/-- **The instructions of a method return its result**, with the arguments in the
first slots. -/
theorem Assembles.returns {a : Assembler} {b : Body} {q : ConstantPool}
    (h : site.Assembles a b) (hpool : a.pool.Grows q) (hmethod : site.method.Integral)
    {fuel : Nat} {arguments : List Value} {v : Option Value}
    (hlength : arguments.length = site.method.parameters.length)
    (hresult : site.method.result? fuel arguments = some v) :
    Returns a.fetch q.integers ⟨0, .ofArguments arguments⟩ (v.map Value.bits) := by
  obtain ⟨pool, slots, slots', hslots, hlower, hfinish⟩ := h
  have hdistinct : (site.method.context.map Prod.fst).Nodup := by
    rw [MethodDecl.context, List.map_map]
    exact hmethod.distinct
  have hmodels := models_slots hdistinct hslots
  rw [if_pos hmethod.isStatic] at hmodels
  have hgoes := goes_lower (W := Whole.ofFinished hfinish hpool) hmethod hresult
  refine hgoes.goes ⟨0, .ofArguments arguments⟩ slots _ () slots' a hmodels hlower (.refl a) ?_
  exact ⟨rfl, _, ⟨agrees_ofArguments hmethod.distinct hlength, rfl⟩, .refl _⟩

end Site

/-! ### The bytes of a method -/

/-- **Compiled methods do what they mean.**  If a static method over integers and
truth values is compiled, and the method returns `v` for some arguments, then the
bytes of its code, run from their start with the arguments in the first slots,
return `v` and nothing else.  `q` are the constants of the finished class. -/
theorem Site.bytes_return_result {site : Site} (hmethod : site.method.Integral)
    {pool pool' q : ConstantPool} {info : MethodInfo}
    (hcompile : site.compile pool = .ok info pool') (hq : pool'.Grows q) {fuel : Nat}
    {arguments : List Value} {v : Option Value}
    (hlength : arguments.length = site.method.parameters.length)
    (hresult : site.method.result? fuel arguments = some v) :
    ∃ label code items, info.attributes = [⟨label, CodeAttribute.write code⟩] ∧
      q.get? label = some (.utf8 CodeAttribute.label) ∧
      Disassembly.items code.code = .ok items ∧
      ∀ w, Returns (fetchItem items) q.integers ⟨0, .ofArguments arguments⟩ w ↔
        w = v.map Value.bits := by
  obtain ⟨-, hyields⟩ := site.yields_compile hmethod.hasCode pool info pool' hcompile
  obtain ⟨a, b, c, length, code, entry, frames, hassembles, hpool, hresolved, hstored, hinfo⟩ :=
    hyields q hq
  obtain ⟨label, hattributes, hlabel⟩ := hinfo.attributes
  obtain ⟨pool₀, hbuilt⟩ := hassembles.built
  obtain ⟨-, -, -, -, -, hfinish⟩ := id hassembles
  have hb : ∀ i ∈ b.instructions, i.Labelled := by
    rw [(Assembler.finish_eq_ok hfinish).2.2.1]
    exact hbuilt.labelled
  refine ⟨label, code, Instruction.itemsAt 0 c.instructions.toList, hattributes, hlabel, ?_,
    fun w => ?_⟩
  · rw [hstored.bytes]
    exact hresolved.items hb
  · have hreturns := hassembles.returns hpool hmethod hlength hresult
    have hbytes := hresolved.returns hfinish hbuilt.labelled hreturns
    rw [Instruction.offsetOf_zero] at hbytes
    exact ⟨fun hw => hw.unique hbytes, fun hw => hw ▸ hbytes⟩

/-- Adds up the odd numbers up to its parameter: the even ones are left out by going
on with the loop. -/
def oddSum : MethodDecl where
  name := ⟨"oddSum", by decide⟩
  flags := Sample.publicStatic
  parameters := [⟨⟨0⟩, .int⟩]
  returns := some .int
  body :=
    [Sample.zeroed 1,
     .forLoop (some "count") [] (some (Sample.compare .gt (Sample.var 0 .int) (Sample.int 0)))
       [.increment (Sample.var 0 .int) true true (some .int)]
       (.block
         [.branch (Sample.compare .eq
              (.binary .rem (Sample.var 0 .int) (Sample.int 2) (some .int)) (Sample.int 0))
            (.continueLoop (some "count")) none,
          .expr (.compound .add (Sample.var 1 .int) (Sample.var 0 .int) (some .int))]),
     .returnValue (some (Sample.var 1 .int))]

/-- The method in the sample class. -/
def oddSumSite : Site := ⟨{}, Sample.counter Sample.counterName, oddSum⟩

theorem oddSum_integral : oddSum.Integral where
  isStatic := by decide
  hasCode := by decide
  parameters := by decide
  distinct := by decide
  returns := by decide
  areScoped := by decide
  areIntegral := by decide

/-- The bytes of the loop return nine for five. -/
theorem oddSum_bytes_return :
    oddSum.Integral ∧ oddSum.result? 10 [.int 5] = some (some (.int 9)) ∧
    ∃ info q, oddSumSite.compile .empty = .ok info q ∧
      ∃ label code items, info.attributes = [⟨label, CodeAttribute.write code⟩] ∧
        q.get? label = some (.utf8 CodeAttribute.label) ∧
        Disassembly.items code.code = .ok items ∧
        ∀ w, Returns (fetchItem items) q.integers ⟨0, .ofArguments [.int 5]⟩ w ↔ w = some 9 := by
  have hresult : oddSum.result? 10 [.int 5] = some (some (.int 9)) := by decide +kernel
  have hcontained : oddSumSite.isSelfContained = true := by decide +kernel
  obtain ⟨info, q, hcompile, -⟩ := Site.compile_of_isSelfContained hcontained
    oddSum_integral.hasCode (p := .empty) (by decide)
  exact ⟨oddSum_integral, hresult, info, q, hcompile,
    Site.bytes_return_result oddSum_integral hcompile (.refl q) rfl hresult⟩

end ClassForge
