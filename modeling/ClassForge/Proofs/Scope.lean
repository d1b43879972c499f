/-
# Slots follow the scopes

Specification, section 4.2: slots are taken and given back with the blocks.

The locals in scope, in the order of their declarations, are a `Context`.  The
compiler keeps them in a map with a stack of open blocks, but the slot of a
local is just its place in the context, behind the slots that are reserved
(`LocalSlots.Models`):

| step | the context |
| --- | --- |
| a declaration | gets one local more at its end |
| a block is opened | stays |
| a block is left | is what it was when the block was opened |

So locals that are in scope together never share a slot, and blocks side by side
use the same slots.  The code of a statement whose declarations are new
(`Stmt.isScoped`) is made with the slots of the context at that point
(`Stmt.tracks`).
-/

import ClassForge.Proofs.Orderly

namespace ClassForge

variable {id : LocalId}

/-- The locals in scope with their declared types, in the order of their
declarations. -/
abbrev Context := List (LocalId × FieldType)

/-- Is the local in scope? -/
def Context.declares (Γ : Context) (id : LocalId) : Bool := Γ.any fun entry => entry.1 = id

theorem Context.declares_iff {Γ : Context} : Γ.declares id = true ↔ id ∈ Γ.map Prod.fst := by
  simp [Context.declares]

theorem Context.declares_of_getElem? {Γ : Context} {n : Nat} {type : FieldType}
    (h : Γ[n]? = some (id, type)) : Γ.declares id = true :=
  Context.declares_iff.2 (List.mem_map.2 ⟨(id, type), List.mem_of_getElem? h, rfl⟩)

/-- The local that a statement puts into the scope of the statements behind it. -/
def Stmt.declared : Stmt → Context
  | .declare id type _ => [(id, type)]
  | _ => []

mutual

/-- Are the declarations in a statement new, so that locals in scope together are
not the same? -/
def Stmt.isScoped (Γ : Context) (s : Stmt) : Bool :=
  match s with
  | .declare id _ _ => !Γ.declares id
  | .block body => Stmt.areScoped Γ body
  | .branch _ thenBranch elseBranch => thenBranch.isScoped Γ && Stmt.isScoped? Γ elseBranch
  | .whileLoop _ _ body | .doWhileLoop _ body _ => body.isScoped Γ
  | .forLoop _ init _ _ body =>
    Stmt.areScoped Γ init && body.isScoped (Γ ++ init.flatMap Stmt.declared)
  | _ => true

/-- Are the declarations in statements one after the other new?  A local is in scope
from its declaration on. -/
def Stmt.areScoped (Γ : Context) (ss : List Stmt) : Bool :=
  match ss with
  | [] => true
  | s :: ss => s.isScoped Γ && Stmt.areScoped (Γ ++ s.declared) ss

/-- Are the declarations in a statement new, unless it is missing? -/
def Stmt.isScoped? (Γ : Context) (s : Option Stmt) : Bool :=
  match s with
  | none => true
  | some s => s.isScoped Γ

end

theorem LocalId.index_inj {other : LocalId} : id.index = other.index ↔ id = other :=
  ⟨fun h => congrArg LocalId.mk h, fun h => congrArg LocalId.index h⟩

namespace LocalSlots

variable {s' : LocalSlots}

/-- The locals of a context are found at their places in it. -/
def Finds (s : LocalSlots) (reserved : Nat) (Γ : Context) : Prop :=
  ∀ (n : Nat) (id : LocalId) (type : FieldType), Γ[n]? = some (id, type) →
    s.lookup? id = some (UInt16.ofNat (reserved + n), type)

/-- The slots that are taken are those of a context.  `first` is the number of
locals that were in scope when the innermost block was opened, and `outer` are
the blocks around it. -/
structure Models (s : LocalSlots) (reserved : Nat) (Γ : Context) (first : Nat)
    (outer : List Scope) : Prop where
  scopes : s.scopes = ⟨reserved + first, ((Γ.drop first).map Prod.fst).reverse⟩ :: outer
  next : s.next = reserved + Γ.length
  bounded : reserved + Γ.length ≤ 65536
  first_le : first ≤ Γ.length
  distinct : (Γ.map Prod.fst).Nodup
  finds : s.Finds reserved Γ
  found : ∀ id, s.lookup? id ≠ none → id ∈ Γ.map Prod.fst

variable {s : LocalSlots} {reserved first : Nat} {Γ : Context} {outer : List Scope}

/-- Nothing is in scope at first. -/
theorem models_start (h : reserved ≤ 65536) : (start reserved).Models reserved [] 0 [] where
  scopes := rfl
  next := rfl
  bounded := h
  first_le := Nat.le.refl
  distinct := List.nodup_nil
  finds n id type hn := nomatch hn
  found id h := by simp [start, lookup?] at h

/-- What a declaration adds. -/
theorem lookup?_declare {id : LocalId} {type : FieldType} {slot : UInt16}
    (h : declare id type s = .ok slot s') :
    slot = UInt16.ofNat s.next ∧ s.next < 65536 ∧ s'.scopes = record id s.scopes ∧
      s'.next = s.next + 1 ∧
      ∀ other, s'.lookup? other = if id = other then some (slot, type) else s.lookup? other := by
  unfold declare at h
  split at h
  · cases h
  · rename_i hnext
    cases h
    refine ⟨rfl, Nat.lt_of_not_le hnext, rfl, rfl, fun other => ?_⟩
    unfold lookup?
    rw [Std.TreeMap.getElem?_insert]
    simp only [Nat.compare_eq_eq, LocalId.index_inj]

/-- **A declaration takes the next place of the context.** The slot that it gets is the
number of slots before it, and there was one left. -/
theorem Models.declare (hs : s.Models reserved Γ first outer) {id : LocalId} {type : FieldType}
    {slot : UInt16} (hid : id ∉ Γ.map Prod.fst) (h : LocalSlots.declare id type s = .ok slot s') :
    slot = UInt16.ofNat (reserved + Γ.length) ∧ reserved + Γ.length < 65536 ∧
      s'.Models reserved (Γ ++ [(id, type)]) first outer := by
  obtain ⟨rfl, hnext, hscopes, hnext', hlookup⟩ := lookup?_declare h
  rw [hs.next] at *
  refine ⟨rfl, hnext, ?_⟩
  constructor
  · rw [hscopes, hs.scopes, List.drop_append_of_le_length hs.first_le]
    simp [record]
  · rw [hnext', List.length_append, List.length_singleton, Nat.add_assoc]
  · rw [List.length_append, List.length_singleton]
    omega
  · rw [List.length_append]
    have := hs.first_le
    omega
  · rw [List.map_append, List.nodup_append]
    refine ⟨hs.distinct, by simp, fun a ha b hb hab => ?_⟩
    rw [List.map_singleton, List.mem_singleton] at hb
    rw [hab, hb] at ha
    exact hid ha
  · intro n other t hn
    rw [hlookup]
    rw [List.getElem?_append] at hn
    split at hn
    · rw [if_neg]
      · exact hs.finds n other t hn
      · rintro rfl
        exact hid (List.mem_map.2 ⟨_, List.mem_of_getElem? hn, rfl⟩)
    · obtain ⟨hlt, heq⟩ := List.getElem?_eq_some_iff.1 hn
      have hlen : n = Γ.length := by
        rw [List.length_singleton] at hlt
        omega
      subst hlen
      simp only [Nat.sub_self, List.getElem_cons_zero, Prod.mk.injEq] at heq
      rw [if_pos heq.1, heq.2]
  · intro other hother
    rw [hlookup] at hother
    rw [List.map_append, List.mem_append]
    split at hother
    · rename_i heq
      exact .inr (by simp [heq])
    · exact .inl (hs.found other hother)

/-- **Opening a block changes no slot.** -/
theorem Models.enter (hs : s.Models reserved Γ first outer) :
    s.enter.Models reserved Γ Γ.length s.scopes where
  scopes := by
    unfold LocalSlots.enter
    simp [hs.next]
  next := hs.next
  bounded := hs.bounded
  first_le := Nat.le.refl
  distinct := hs.distinct
  finds := hs.finds
  found := hs.found

/-- The locals that are left when some go out of scope. -/
theorem getElem?_foldl_erase (slots : Std.TreeMap Nat (UInt16 × FieldType))
    (ids : List LocalId) (id : LocalId) :
    (ids.foldl (fun slots id => slots.erase id.index) slots)[id.index]? =
      if id ∈ ids then none else slots[id.index]? := by
  induction ids generalizing slots with
  | nil => simp
  | cons other ids ih =>
    rw [List.foldl_cons, ih, Std.TreeMap.getElem?_erase]
    simp only [Nat.compare_eq_eq, LocalId.index_inj]
    by_cases h : id = other
    · simp [h]
    · simp [h, Ne.symm h]

/-- What is left when a block is left. -/
theorem lookup?_exit {scope : Scope} {rest : List Scope} (h : s.scopes = scope :: rest) :
    s.exit.scopes = rest ∧ s.exit.next = scope.first ∧
      ∀ id, s.exit.lookup? id = if id ∈ scope.declared then none else s.lookup? id := by
  obtain ⟨slots, scopes, next, max⟩ := s
  cases h
  exact ⟨rfl, rfl, fun id => getElem?_foldl_erase slots scope.declared id⟩

/-- **Leaving a block restores the context.**  The slots are again those of the
locals that were in scope when the block was opened. -/
theorem Models.exit {Γ' : Context} (hs : s.Models reserved Γ first outer)
    (hs' : s'.Models reserved (Γ ++ Γ') Γ.length s.scopes) :
    s'.exit.Models reserved Γ first outer := by
  obtain ⟨hscopes, hnext, hlookup⟩ := lookup?_exit hs'.scopes
  rw [List.drop_left] at hlookup
  have hdisjoint : ∀ id ∈ Γ.map Prod.fst, id ∉ (Γ'.map Prod.fst).reverse := by
    intro id hid hid'
    have hnodup := hs'.distinct
    rw [List.map_append, List.nodup_append] at hnodup
    exact hnodup.2.2 id hid id (List.mem_reverse.1 hid') rfl
  constructor
  · rw [hscopes, hs.scopes]
  · exact hnext
  · exact hs.bounded
  · exact hs.first_le
  · exact hs.distinct
  · intro n id type hn
    rw [hlookup, if_neg (hdisjoint id (List.mem_map.2 ⟨_, List.mem_of_getElem? hn, rfl⟩))]
    have hlt := (List.getElem?_eq_some_iff.1 hn).1
    exact hs'.finds n id type (by rw [List.getElem?_append_left hlt]; exact hn)
  · intro id hid
    rw [hlookup] at hid
    split at hid
    · exact absurd rfl hid
    · rename_i hdeclared
      have := hs'.found id hid
      rw [List.map_append, List.mem_append] at this
      exact this.resolve_right fun h => hdeclared (List.mem_reverse.2 h)

end LocalSlots

/-- The locals in scope have the slots behind those that are reserved. -/
structure InSlots (reserved : Nat) (Γ : Context) (slots : LocalSlots) : Prop where
  finds : slots.Finds reserved Γ
  distinct : (Γ.map Prod.fst).Nodup
  bounded : reserved + Γ.length ≤ 65536

namespace InSlots

variable {reserved : Nat} {Γ Γ' : Context} {slots : LocalSlots}

theorem of_models {first : Nat} {outer : List Scope} (h : slots.Models reserved Γ first outer) :
    InSlots reserved Γ slots :=
  ⟨h.finds, h.distinct, h.bounded⟩

/-- More locals may have slots. -/
theorem of_append (h : InSlots reserved (Γ ++ Γ') slots) : InSlots reserved Γ slots where
  finds n id type hn := by
    refine h.finds n id type ?_
    rw [List.getElem?_append_left (List.getElem?_eq_some_iff.1 hn).1, hn]
  distinct := by
    have hdistinct := h.distinct
    rw [List.map_append, List.nodup_append] at hdistinct
    exact hdistinct.1
  bounded := by
    have hbounded := h.bounded
    rw [List.length_append] at hbounded
    omega

/-- The number of the slot of a local. -/
theorem toNat_slot (h : InSlots reserved Γ slots) {n : Nat} (hn : n < Γ.length) :
    (UInt16.ofNat (reserved + n)).toNat = reserved + n := by
  have hbounded := h.bounded
  rw [UInt16.toNat_ofNat', Nat.mod_eq_of_lt (by omega)]

end InSlots

/-! ### Parameters have the first slots -/

/-- The parameters of a method, which are in scope everywhere in its body. -/
def MethodDecl.context (m : MethodDecl) : Context := m.parameters.map fun p => (p.id, p.type)

/-- Parameters take slots in their order, if no two of them are the same. -/
theorem Site.models_declareParameters {reserved : Nat} {Γ : Context} {slots slots' : LocalSlots}
    {ps : List Parameter} (hs : slots.Models reserved Γ 0 [])
    (hdistinct : ((Γ ++ ps.map fun p => (p.id, p.type)).map Prod.fst).Nodup)
    (h : Site.declareParameters ps slots = .ok () slots') :
    slots'.Models reserved (Γ ++ ps.map fun p => (p.id, p.type)) 0 [] := by
  induction ps generalizing Γ slots with
  | nil =>
    cases h
    rwa [List.map_nil, List.append_nil]
  | cons p ps ih =>
    obtain ⟨slot, slots'', hdeclare, h⟩ := bind_eq_ok h
    have hnew : p.id ∉ Γ.map Prod.fst := by
      rw [List.map_append, List.nodup_append] at hdistinct
      exact fun hmem => hdistinct.2.2 p.id hmem p.id (by simp) rfl
    rw [List.map_cons, List.append_cons] at hdistinct ⊢
    exact ih (hs.declare hnew hdeclare).2.2 hdistinct h

/-- **On entry the slots are those of the parameters**, behind one for the object if the
method has one. -/
theorem Site.models_slots {site : Site} {slots : LocalSlots}
    (hdistinct : (site.method.context.map Prod.fst).Nodup) (h : site.slots = .ok slots) :
    slots.Models (if site.method.isStatic then 0 else 1) site.method.context 0 [] := by
  unfold Site.slots at h
  split at h
  · rename_i hparameters
    cases h
    refine models_declareParameters (Γ := []) (LocalSlots.models_start ?_) hdistinct hparameters
    split <;> decide
  · cases h

/-! ### Statements keep to the slots of their context

`Tracks` follows the declarations of a statement, with one rule for each combinator. -/

namespace Lowering

variable {α β : Type} {P Q R : LocalSlots → Prop}
  {condition : Jump} {body : Label → Label → Lowering Unit}

/-- From slots with one property the computation builds code and gets to slots with
another. -/
def Tracks (P Q : LocalSlots → Prop) (x : Lowering α) : Prop :=
  ∀ (slots : LocalSlots) (a : Assembler) (v : α) (slots' : LocalSlots) (b : Assembler),
    P slots → x slots a = .ok (v, slots') b → Built a b ∧ Q slots'

theorem Emits.tracks {x : Lowering α} (h : Emits x) (P : LocalSlots → Prop) : Tracks P P x := by
  intro slots a v slots' b hP hx
  obtain ⟨hemitted, rfl⟩ := h slots a v slots' b hx
  exact ⟨hemitted.built, hP⟩

theorem tracks_emit {x : Assembling α} (h : x.Builds) (P : LocalSlots → Prop) :
    Tracks P P (emit x) := by
  intro slots a v slots' b hP hx
  obtain ⟨hv, rfl⟩ := emit_eq_ok hx
  exact ⟨h a v b hv, hP⟩

/-- Code behind other code tracks the slots through both parts. -/
theorem Tracks.bind {x : Lowering α} {f : α → Lowering β} (hx : Tracks P Q x)
    (hf : ∀ v, Tracks Q R (f v)) : Tracks P R (x >>= f) := by
  intro slots a w slots' c hP h
  obtain ⟨v, slots'', b, hv, h⟩ := bind_eq_ok h
  obtain ⟨hab, hQ⟩ := hx slots a v slots'' b hP hv
  obtain ⟨hbc, hR⟩ := hf v slots'' b w slots' c hQ h
  exact ⟨hab.trans hbc, hR⟩

theorem tracks_nextSlot (P : LocalSlots → Prop) : Tracks P P nextSlot := by
  rintro slots a v slots' b hP ⟨⟩
  exact ⟨.refl a, hP⟩

theorem tracks_modify {f : LocalSlots → LocalSlots} (h : ∀ slots, P slots → Q (f slots)) :
    Tracks P Q (modify f : Lowering Unit) := by
  rintro slots a v slots' b hP ⟨⟩
  exact ⟨.refl a, h slots hP⟩

variable {reserved first : Nat} {Γ Γ' : Context} {outer : List Scope}

/-- A declaration of a new local takes the next slot and adds no code. -/
theorem declare_eq_ok {slots slots' : LocalSlots} {a b : Assembler} {id : LocalId}
    {type : FieldType} {slot : UInt16} (hs : slots.Models reserved Γ first outer)
    (hid : Γ.declares id = false) (h : declare id type slots a = .ok (slot, slots') b) :
    b = a ∧ slot = UInt16.ofNat (reserved + Γ.length) ∧ reserved + Γ.length < 65536 ∧
      slots'.Models reserved (Γ ++ [(id, type)]) first outer := by
  unfold declare at h
  split at h
  · rename_i hslots
    cases h
    refine ⟨rfl, hs.declare (fun hmem => ?_) hslots⟩
    rw [Context.declares_iff.2 hmem] at hid
    cases hid
  · cases h

theorem tracks_declare {id : LocalId} (hid : Γ.declares id = false) (type : FieldType) :
    Tracks (·.Models reserved Γ first outer) (·.Models reserved (Γ ++ [(id, type)]) first outer)
      (declare id type) := by
  intro slots a slot slots' b hs h
  obtain ⟨rfl, -, -, hs'⟩ := declare_eq_ok hs hid h
  exact ⟨.refl b, hs'⟩

theorem tracks_declared (site : Site) {id : LocalId} {type : FieldType}
    (h : Tracks P Q (declare id type)) (initial : Option Expr) :
    Tracks P Q (declared site id type initial) := by
  refine h.bind fun slot => ?_
  split
  · rename_i e
    exact ((within_converted (e.within false site).value type).bind fun _ =>
      within_emit (.storeLocal _ _)).emits.tracks _
  · exact (emits_pure ()).tracks _

/-- A block leaves the slots as they were. -/
theorem tracks_inBlock (Γ' : Context) {x : Lowering Unit}
    (h : ∀ outer, Tracks (·.Models reserved Γ Γ.length outer)
      (·.Models reserved (Γ ++ Γ') Γ.length outer) x) :
    Tracks (·.Models reserved Γ first outer) (·.Models reserved Γ first outer) (inBlock x) := by
  intro slots a v slots' b hs hx
  -- what is restored depends on the slots at the start, so these are fixed first
  have hinner : Tracks (· = slots) (·.Models reserved Γ first outer) (inBlock x) := by
    refine (tracks_modify (Q := (·.Models reserved Γ Γ.length slots.scopes)) ?_).bind fun _ =>
      (h slots.scopes).bind fun _ => (tracks_modify fun s' hs' => hs.exit hs').bind fun _ =>
        (tracks_nextSlot _).bind fun _ => (emits_emit (.common (.killLocals _))).tracks _
    rintro s rfl
    exact hs.enter
  exact hinner slots a v slots' b rfl hx

/-- A condition leaves the slots as it found them if its branches, as blocks, do. -/
theorem tracks_branched (hc : ∀ outcome target, Emits (condition outcome target))
    {thenBranch : Lowering Unit} (ht : Tracks P P (inBlock thenBranch))
    {elseBranch : Option (Lowering Unit)} (he : ∀ x, elseBranch = some x → Tracks P P (inBlock x)) :
    Tracks P P (branched condition thenBranch elseBranch) := by
  refine (emits_freshLabel.tracks _).bind fun elseLabel => ((hc _ _).tracks _).bind fun _ =>
    ht.bind fun _ => ?_
  split
  · exact (emits_place elseLabel).tracks _
  · rename_i other
    exact (emits_freshLabel.tracks _).bind fun endLabel =>
      ((emits_branch rfl endLabel).tracks _).bind fun _ =>
        ((emits_place elseLabel).tracks _).bind fun _ =>
          (he other rfl).bind fun _ => (emits_place endLabel).tracks _

theorem tracks_freshScopedLabel (P : LocalSlots → Prop) (limit : Nat) :
    Tracks P P (emit (Assembler.freshScopedLabel limit)) :=
  (emits_emit (.newLabel (some limit))).tracks P

theorem tracks_whileLoop (hc : ∀ outcome target, Emits (condition outcome target))
    (hb : ∀ exit next, Tracks P P (inBlock (body exit next))) :
    Tracks P P (whileLoop condition body) :=
  (tracks_nextSlot _).bind fun _ => (tracks_freshScopedLabel _ _).bind fun _ =>
    (tracks_freshScopedLabel _ _).bind fun _ => ((emits_place _).tracks _).bind fun _ =>
      ((hc _ _).tracks _).bind fun _ => (hb _ _).bind fun _ =>
        ((emits_branch rfl _).tracks _).bind fun _ => (emits_place _).tracks _

theorem tracks_doWhileLoop (hc : ∀ outcome target, Emits (condition outcome target))
    (hb : ∀ exit next, Tracks P P (inBlock (body exit next))) :
    Tracks P P (doWhileLoop condition body) :=
  (tracks_nextSlot _).bind fun _ => (tracks_freshScopedLabel _ _).bind fun _ =>
    (tracks_freshScopedLabel _ _).bind fun _ => (tracks_freshScopedLabel _ _).bind fun _ =>
      ((emits_place _).tracks _).bind fun _ => (hb _ _).bind fun _ =>
        ((emits_place _).tracks _).bind fun _ => ((hc _ _).tracks _).bind fun _ =>
          (emits_place _).tracks _

/-- The rounds of a counting loop leave the slots if its body, as a block, does. -/
theorem tracks_rounds {condition : Option Jump}
    (hc : ∀ jump, condition = some jump → ∀ outcome target, Emits (jump outcome target))
    {update : Lowering Unit} (hu : Emits update)
    (hb : ∀ exit next, Tracks P P (inBlock (body exit next))) :
    Tracks P P (rounds condition update body) := by
  refine (tracks_nextSlot _).bind fun _ => (tracks_freshScopedLabel _ _).bind fun head =>
    (tracks_freshScopedLabel _ _).bind fun next => (tracks_freshScopedLabel _ _).bind fun exit =>
      ((emits_place head).tracks _).bind fun _ => ?_
  have hrest : Emits (do
      emit (Assembler.place next)
      update
      emit (Assembler.branch .goto head)
      emit (Assembler.place exit)) :=
    (emits_place next).bind fun _ => hu.bind fun _ => (emits_branch rfl head).bind fun _ =>
      emits_place exit
  have hround := (hb exit next).bind fun _ => hrest.tracks P
  split
  · rename_i jump
    exact ((hc jump rfl _ _).tracks _).bind fun _ => hround
  · exact ((emits_pure ()).tracks _).bind fun _ => hround

end Lowering

mutual

/-- **The code of a statement is made with the slots of its context**, to which a
declaration adds one local. -/
theorem Stmt.tracks (site : Site) (loops : List Loop) {reserved first : Nat} {Γ : Context}
    {outer : List Scope} (s : Stmt) (hs : s.isScoped Γ = true) :
    Lowering.Tracks (·.Models reserved Γ first outer)
      (·.Models reserved (Γ ++ s.declared) first outer) (s.lower site loops) := by
  open Lowering in
  match s with
  | .expr e =>
    simp only [Stmt.lower, Stmt.declared, List.append_nil]
    exact (e.emits site).effect.tracks _
  | .declare id type initial =>
    rw [Stmt.isScoped, Bool.not_eq_true'] at hs
    rw [Stmt.lower]
    exact tracks_declared site (tracks_declare hs type) initial
  | .block body =>
    rw [Stmt.isScoped] at hs
    simp only [Stmt.lower, Stmt.declared, List.append_nil]
    exact tracks_inBlock _ fun outer => Stmt.tracks_lowerAll site loops body hs
  | .branch condition thenBranch elseBranch =>
    rw [Stmt.isScoped, Bool.and_eq_true] at hs
    simp only [Stmt.lower, Stmt.declared, List.append_nil]
    refine tracks_branched (condition.emits site).jump
      (tracks_inBlock _ fun outer => thenBranch.tracks site loops hs.1) fun x hx => ?_
    obtain ⟨Γ', hother⟩ := Stmt.tracks_lower? site loops elseBranch hs.2 x hx
    exact tracks_inBlock Γ' hother
  | .whileLoop label condition body =>
    rw [Stmt.isScoped] at hs
    simp only [Stmt.lower, Stmt.declared, List.append_nil]
    exact tracks_whileLoop (condition.emits site).jump fun exit next =>
      tracks_inBlock _ fun outer => body.tracks site (⟨label, exit, next⟩ :: loops) hs
  | .doWhileLoop label body condition =>
    rw [Stmt.isScoped] at hs
    simp only [Stmt.lower, Stmt.declared, List.append_nil]
    exact tracks_doWhileLoop (condition.emits site).jump fun exit next =>
      tracks_inBlock _ fun outer => body.tracks site (⟨label, exit, next⟩ :: loops) hs
  | .forLoop label init condition update body =>
    rw [Stmt.isScoped, Bool.and_eq_true] at hs
    simp only [Stmt.lower, Stmt.declared, List.append_nil]
    refine tracks_inBlock (init.flatMap Stmt.declared) fun outer =>
      (Stmt.tracks_lowerAll site loops init hs.1).bind fun _ => ?_
    refine tracks_rounds (fun jump hjump => ?_) (emits_forM fun e _ => (e.emits site).effect)
      fun exit next => tracks_inBlock _ fun outer =>
        body.tracks site (⟨label, exit, next⟩ :: loops) hs.2
    obtain ⟨e, -, rfl⟩ := Option.map_eq_some_iff.1 hjump
    exact (e.emits site).jump
  | .breakLoop label =>
    simp only [Stmt.lower, Stmt.declared, List.append_nil]
    exact (within_jumpTo label fun _ => List.mem_map_of_mem).emits.tracks _
  | .continueLoop label =>
    simp only [Stmt.lower, Stmt.declared, List.append_nil]
    exact (within_jumpTo label fun _ => List.mem_map_of_mem).emits.tracks _
  | .returnValue value =>
    simp only [Stmt.lower, Stmt.declared, List.append_nil]
    exact (within_returned site value).emits.tracks _
  | .construct constructor operands =>
    simp only [Stmt.lower, Stmt.declared, List.append_nil]
    exact (within_constructed site constructor operands).emits.tracks _

theorem Stmt.tracks_lowerAll (site : Site) (loops : List Loop) {reserved first : Nat}
    {Γ : Context} {outer : List Scope} (ss : List Stmt) (hs : Stmt.areScoped Γ ss = true) :
    Lowering.Tracks (·.Models reserved Γ first outer)
      (·.Models reserved (Γ ++ ss.flatMap Stmt.declared) first outer)
      (Stmt.lowerAll site loops ss) := by
  match ss with
  | [] =>
    rw [Stmt.lowerAll, List.flatMap_nil, List.append_nil]
    exact (Lowering.emits_pure ()).tracks _
  | s :: ss =>
    rw [Stmt.areScoped, Bool.and_eq_true] at hs
    rw [Stmt.lowerAll, List.flatMap_cons, ← List.append_assoc]
    exact (s.tracks site loops hs.1).bind fun _ => Stmt.tracks_lowerAll site loops ss hs.2

/-- A statement that may be missing declares what it declares in the block that was opened
for it. -/
theorem Stmt.tracks_lower? (site : Site) (loops : List Loop) {reserved : Nat} {Γ : Context}
    (s : Option Stmt) (hs : Stmt.isScoped? Γ s = true) :
    ∀ x, Stmt.lower? site loops s = some x →
      ∃ Γ', ∀ outer, Lowering.Tracks (·.Models reserved Γ Γ.length outer)
        (·.Models reserved (Γ ++ Γ') Γ.length outer) x := by
  match s with
  | none =>
    intro x hx
    rw [Stmt.lower?] at hx
    cases hx
  | some s =>
    intro x hx
    rw [Stmt.isScoped?] at hs
    rw [Stmt.lower?] at hx
    cases hx
    exact ⟨s.declared, fun outer => s.tracks site loops hs⟩

end

end ClassForge
