/-
# Expressions that cannot go wrong

The code of a typed expression can always be made, in whichever way the expression
is asked for (`Expr.safe`).  The frame in which the code starts has to know the
locals in scope by their declared types (`Site.Stores`), and `this` as far as it is
constructed.

| asked for | what is promised (`Fragment.Safe`) |
| --- | --- |
| value | a value of the static type is pushed, or none if there is no type |
| effect | the stack is left as it was |
| jump | the stack is left as it was, if the expression is a condition |
| place | values of the static type can be stored there |
| pieces | each of them is a value |
-/

import ClassForge.Proofs.FragmentSafety

namespace ClassForge

open Lowering

/-! ### Values -/

namespace Lowering

variable {P : LocalSlots → Prop} {L : List FrameType} {T : List Target} {S : Frame.Stack}
  {type other : FieldType} {operand : Operand}
  {e : Expr} {operands : List Operand} {t : RefType} {site : Site}

/-- A negated number is pushed safely, with the instruction for its kind. -/
theorem pushes_negated (e : Expr) (h : operand.Safe P L type) (htype : type.isNumeric = true) :
    Pushes P L type (negated e operand) := by
  intro T S
  unfold negated
  rw [typeOf_of_some h.source]
  refine (h.value T S).bind fun _ => .of_pushed fun t ht => ?_
  match type with
  | .base .int =>
    rw [ht.eq_integer rfl]
    exact (safe_simple rfl (fun _ => rfl) fun _ => id).pushed .int
  | .base .float =>
    rw [ht.eq_float rfl]
    exact (safe_simple rfl (fun _ => rfl) fun _ => id).pushed .float
  | .base .boolean | .ref _ => cases htype

/-- A complemented integer is pushed safely. -/
theorem pushes_complemented (h : operand.Safe P L .int) :
    Pushes P L .int (complemented operand) := by
  intro T S
  refine (h.value T S).bind fun _ => .of_pushed fun t ht => ?_
  rw [ht.eq_integer rfl]
  refine (safe_pushInt _).bind fun _ => ?_
  exact (safe_simple rfl (fun _ => rfl) fun _ hS => hS.tail).pushed .int

theorem pushes_elementValue (he : e.type = some type) {array index : Operand}
    (harray : array.Safe P L other) (hindex : index.Safe P L .int)
    (hcomponent : other.component? = some type) :
    Pushes P L type (elementValue e array index) := by
  intro T S
  unfold elementValue
  rw [typeOf_of_some he]
  refine (harray.value T S).bind fun _ => .of_pushed fun t ht => ?_
  refine (hindex.value T _).bind fun _ => .of_pushed fun u hu => ?_
  rw [hu.eq_integer rfl]
  exact safe_loadElement ht hcomponent

theorem pushes_loadThis (hstatic : site.method.isStatic = false) {t : FrameType}
    (hslot : L[0]? = some t) (ht : Conforms t (.ref site.owner.type)) :
    Pushes P L (.ref site.owner.type) (loadThis site) := by
  refine pushes_of ht fun T S => ?_
  unfold loadThis
  rw [hstatic]
  exact safe_loadLocal hslot ht

/-! ### Calls -/

/-- What the receiver of a call leaves on the stack. -/
def Receives (method : MethodRef) (R : List FrameType) : Prop :=
  if method.isStatic then R = [] else ∃ t, t.isReference = true ∧ R = [t]

/-- There is a receiver that the method can be called on. -/
inductive HasReceiver (P : LocalSlots → Prop) (L : List FrameType) (site : Site)
    (method : MethodRef) : Option Operand → Prop where
  | none (h : method.isStatic = false → Pushes P L (.ref site.owner.type) (loadThis site)) :
    HasReceiver P L site method none
  | some {o : Operand} {type : FieldType} (h : o.Safe P L type) (href : type.isReference = true) :
    HasReceiver P L site method (some o)

/-- A receiver is safe: it leaves an object of the owner of the method, or nothing for a
static one. -/
theorem safe_receiver {method : MethodRef} {object : Option Operand}
    (h : HasReceiver P L site method object) :
    Safe P P (·.Stands T ⟨L, S⟩)
      (fun _ a => ∃ R, Receives method R ∧ a.Stands T ⟨L, R ++ S⟩)
      (receiver site method object) := by
  cases h with
  | none hthis =>
    rw [receiver]
    split
    · rename_i hstatic
      exact safe_pure () fun a ha => ⟨[], by rw [Receives, if_pos hstatic], ha⟩
    · rename_i hstatic
      refine (hthis (Bool.eq_false_iff.2 hstatic) T S).imp fun _ a => ?_
      rintro ⟨t, ht, ha⟩
      exact ⟨[t], by rw [Receives, if_neg hstatic]; exact ⟨t, ht.isReference rfl, rfl⟩, ha⟩
  | some ho href =>
    refine (ho.value T S).bind fun _ => .of_pushed fun t ht => ?_
    split
    · rename_i hstatic
      exact safe_pop.imp fun _ a ha => ⟨[], by rw [Receives, if_pos hstatic], ha⟩
    · rename_i hstatic
      refine safe_pure () fun a ha => ⟨[t], ?_, ha⟩
      rw [Receives, if_neg hstatic]
      exact ⟨t, ht.isReference href, rfl⟩

/-- What a call returns is pushed. -/
theorem makes_called {object : Option Operand} {method : MethodRef}
    (hobject : HasReceiver P L site method object)
    (h : Passes P L operands method.descriptor.parameters) (viaSuper : Bool) :
    Makes P L method.descriptor.returns (called site object method operands viaSuper) := by
  have hcalled (T : List Target) (S : Frame.Stack) :
      Safe P P (·.Stands T ⟨L, S⟩) (fun _ => (·.Stands T
        ⟨L, (method.descriptor.returns.map FieldType.verification).toList ++ S⟩))
        (called site object method operands viaSuper) := by
    refine (safe_receiver hobject).bind fun _ => .of_exists fun R hR => ?_
    refine (safe_arguments h).bind fun _ => .of_exists fun A hA => ?_
    unfold Receives at hR
    split at hR
    · rename_i hstatic
      rw [hR]
      exact safe_invoke_static hstatic viaSuper hA
    · rename_i hstatic
      obtain ⟨t, ht, rfl⟩ := hR
      exact safe_invoke_receiver (Bool.eq_false_iff.2 hstatic) viaSuper hA ht
  cases hreturns : method.descriptor.returns with
  | none =>
    intro T S
    have := hcalled T S
    rwa [hreturns] at this
  | some returns =>
    refine pushes_of (conforms_verification returns) fun T S => ?_
    have := hcalled T S
    rwa [hreturns] at this

/-- A new object is pushed, which is constructed. -/
theorem pushes_created (hL : Frame.Known L) (constructor : MethodRef)
    (h : Passes P L operands constructor.descriptor.parameters) :
    Pushes P L (.object constructor.owner) (created constructor operands) := by
  refine pushes_of (conforms_verification _) fun T S => ?_
  refine (safe_emit (Assembler.safe_newObject _)).bind fun _ => .of_exists fun n hn => ?_
  refine safe_dup.bind fun _ => (safe_arguments h).bind fun _ => .of_exists fun A hA => ?_
  exact safe_construct constructor _ hA (hL.constructed n) hn

/-! ### Arrays -/

theorem arrayTypeOf_of_some (h : e.type = some (.ref t)) (ht : 0 < t.dimensions) :
    arrayTypeOf e = pure t := by
  unfold arrayTypeOf
  rw [h]
  exact if_pos ht

theorem pushes_createdArray (he : e.type = some (.ref t)) {dimensions : List Operand}
    (h : ∀ o ∈ dimensions, o.Safe P L .int) (hpos : 1 ≤ dimensions.length)
    (hlength : dimensions.length ≤ 255) (hdimensions : dimensions.length ≤ t.dimensions) :
    Pushes P L (.ref t) (createdArray e dimensions) := by
  intro T S
  unfold createdArray
  rw [arrayTypeOf_of_some he (by omega), pure_bind, if_neg]
  · refine (safe_forM_pushes (C := (· = .integer)) fun o ho =>
      ⟨.int, (h o ho).value, fun t ht => ht.eq_integer rfl⟩).bind fun _ => .of_exists fun A hA => ?_
    rw [List.eq_replicate_of_mem hA.2, hA.1]
    exact safe_newArray hpos hlength hdimensions
  · rw [List.isEmpty_iff_length_eq_zero]
    omega

theorem safe_storeElements {t : FrameType} (ht : t.isReference = true)
    (h : ∀ o ∈ operands, Pushes P L type (o.converted type)) (index : Nat) :
    Safe P P (·.Stands T ⟨L, t :: S⟩) (fun _ => (·.Stands T ⟨L, t :: S⟩))
      (storeElements type index operands) := by
  induction operands generalizing index with
  | nil => exact safe_skip
  | cons o operands ih =>
    refine safe_dup.bind fun _ => (safe_pushInt _).bind fun _ => ?_
    refine (h o List.mem_cons_self T _).bind fun _ => .of_pushed fun u hu => ?_
    exact (safe_storeElement ht hu).bind fun _ =>
      ih (fun p hp => h p (List.mem_cons_of_mem o hp)) (index + 1)

theorem pushes_filledArray (he : e.type = some (.ref t)) (hcomponent : t.component? = some type)
    {elements : List Operand} (h : ∀ o ∈ elements, Pushes P L type (o.converted type))
    (hlength : elements.length < 2147483648) :
    Pushes P L (.ref t) (filledArray e elements) := by
  have hdimensions : 0 < t.dimensions := by
    cases t with
    | object => cases hcomponent
    | array => exact Nat.succ_pos _
  intro T S
  unfold filledArray
  rw [arrayTypeOf_of_some he hdimensions, pure_bind, hcomponent]
  dsimp only
  rw [if_neg (Nat.not_le.2 hlength)]
  refine (safe_pushInt _).bind fun _ => ?_
  refine (safe_newArray (k := 1) Nat.le.refl (by omega) hdimensions).bind fun _ => ?_
  refine Safe.of_pushed fun u hu => ?_
  refine (safe_storeElements (hu.isReference rfl) h 0).imp fun _ a ha => ?_
  exact ⟨u, hu, ha⟩

/-! ### Conversions -/

/-- A cast is pushed safely wherever the language allows it. -/
theorem pushes_castValue (he : e.type = some other) (h : operand.Safe P L type)
    (hcasts : type.casts other = true) : Pushes P L other (castValue e operand) := by
  intro T S
  unfold castValue
  rw [typeOf_of_some h.source, typeOf_of_some he]
  simp only [pure_bind]
  refine (h.value T S).bind fun _ => .of_pushed fun t ht => ?_
  match type, other with
  | .base .int, .base .int | .base .boolean, .base .boolean | .base .float, .base .float =>
    exact safe_pure () fun a ha => ⟨t, ht, ha⟩
  | .base .int, .base .float =>
    rw [ht.eq_integer rfl]
    exact safe_intToFloat.pushed .float
  | .base .float, .base .int =>
    rw [ht.eq_float rfl]
    exact safe_floatToInt.pushed .int
  | .ref u, .ref v =>
    dsimp only [FieldType.kind]
    split
    · rename_i heq
      exact safe_pure () fun a ha => ⟨t, heq ▸ ht, ha⟩
    · exact (safe_checkCast v (ht.isReference rfl)).pushed (conforms_verification _)
  | .base .int, .base .boolean | .base .boolean, .base .int | .base .boolean, .base .float
  | .base .float, .base .boolean | .base _, .ref _ | .ref _, .base _ =>
    simp [FieldType.casts, FieldType.isNumeric, FieldType.isReference] at hcasts

end Lowering

/-! ### Fragments

A fragment is safe in each of the ways in which it can be asked for if its parts are. -/

/-- In whichever way an expression is asked for, its code can be made and leaves what
it should. -/
structure Fragment.Safe (P : LocalSlots → Prop) (L : List FrameType) (f : Fragment) : Prop where
  value : Makes P L f.source.type f.value
  effect : Leaves P L f.effect
  jump : f.source.type = some .boolean → Jumps P L f.jump
  place : ∀ p type, f.place = some p → f.source.type = some type → p.Safe P L type
  pieces : ∀ type, f.source.type = some type → ∀ o ∈ f.pieces, ∃ t, o.Safe P L t

namespace Fragment

variable {P : LocalSlots → Prop} {L : List FrameType} {source : Expr} {type : FieldType}
  {value : Lowering Unit}

theorem Safe.operand {f : Fragment} (h : f.Safe P L) (htype : f.source.type = some type) :
    f.toOperand.Safe P L type where
  source := htype
  value := by
    have := h.value
    rwa [htype] at this

/-- A fragment that is made from the code of its value is safe if this code is. -/
theorem safe_ofValue (h : Makes P L source.type value) : (ofValue source value).Safe P L where
  value := h
  effect := by
    intro T S
    unfold ofValue
    cases htype : source.type with
    | none =>
      rw [htype] at h
      exact (h T S).bind fun _ => safe_skip
    | some type =>
      rw [htype] at h
      exact (h T S).bind fun _ => .of_pushed fun t _ => safe_pop
  jump htype := by
    change source.type = some .boolean at htype
    rw [htype] at h
    exact jumps_jumpOn h rfl
  place p type hp := nomatch hp
  pieces type htype o ho := by
    change source.type = some type at htype
    rw [htype] at h
    rw [ofValue, List.mem_singleton] at ho
    rw [ho]
    exact ⟨type, htype, h⟩

theorem safe_ofValue_of (htype : source.type = some type) (h : Pushes P L type value) :
    (ofValue source value).Safe P L :=
  safe_ofValue (by rw [htype]; exact h)

theorem safe_ofPlace (htype : source.type = some type) (h : Pushes P L type value) {p : Place}
    (hp : p.Safe P L type) :
    (ofPlace source value p).Safe P L :=
  { safe_ofValue_of htype h with
    place := by
      intro q other hq hother
      cases hq
      change source.type = some other at hother
      rw [htype] at hother
      cases hother
      exact hp }

theorem safe_ofJump (hL : Frame.Known L) (htype : source.type = some .boolean) {jump : Jump}
    (h : Jumps P L jump) : (ofJump source jump).Safe P L :=
  { safe_ofValue_of htype (pushes_outcomeValue hL h) with jump := fun _ => h }

theorem safe_ofUpdate (htype : source.type = some type) {update : Bool → Lowering Unit}
    (h : Updates P L type update) : (ofUpdate source update).Safe P L :=
  { safe_ofValue_of htype (h true) with effect := h.leaves }

end Fragment

namespace Lowering

variable {P : LocalSlots → Prop} {L : List FrameType} {e : Expr} {type : FieldType}

/-- A unary expression is safe if its operand is and the operator applies to its type. -/
theorem safe_unaryFragment (hL : Frame.Known L) {op : UnaryOp} {operand : Fragment}
    {source : FieldType} (h : operand.Safe P L) (hsource : operand.source.type = some source)
    (he : e.type = some type) (htype : op.type? source = some type) :
    (unaryFragment e op operand).Safe P L := by
  have hoperand := h.operand hsource
  cases op with
  | negate =>
    rw [UnaryOp.type?] at htype
    split at htype
    · rename_i hnumeric
      cases htype
      exact Fragment.safe_ofValue_of he (pushes_negated e hoperand hnumeric)
    · cases htype
  | bitNot =>
    rw [UnaryOp.type?] at htype
    split at htype
    · rename_i hint
      subst hint
      cases htype
      exact Fragment.safe_ofValue_of he (pushes_complemented hoperand)
    · cases htype
  | not =>
    rw [UnaryOp.type?] at htype
    split at htype
    · rename_i hboolean
      subst hboolean
      cases htype
      exact Fragment.safe_ofJump hL he fun T S outcome target =>
        h.jump hsource T S (!outcome) target
    · cases htype

/-- A binary expression is safe if both operands are and the operator applies to their
types. -/
theorem safe_binaryFragment (hL : Frame.Known L) {op : BinaryOp} {left right : Fragment}
    {l r : FieldType} (hleft : left.Safe P L) (hright : right.Safe P L)
    (hl : left.source.type = some l) (hr : right.source.type = some r) (he : e.type = some type)
    (htype : op.type? l r = some type) : (binaryFragment e op left right).Safe P L := by
  have hpieces : ∀ o ∈ left.pieces ++ [right.toOperand], ∃ t, o.Safe P L t := by
    intro o ho
    rw [List.mem_append, List.mem_singleton] at ho
    rcases ho with ho | rfl
    · exact hleft.pieces l hl o ho
    · exact ⟨r, hright.operand hr⟩
  have hvalue := pushes_binaryValue hL he (hleft.operand hl) (hright.operand hr) htype hpieces
  refine { Fragment.safe_ofValue_of he hvalue with pieces := fun t ht o ho => ?_ }
  unfold binaryFragment chain at ho
  dsimp only at ho
  split at ho
  · exact hpieces o ho
  · rw [List.mem_singleton] at ho
    rw [ho]
    exact ⟨type, he, hvalue⟩

end Lowering

/-! ### Expressions -/

/-- The frame knows the locals in scope, and `this` if there is one. -/
structure Site.Stores (site : Site) (Γ : Context) (P : LocalSlots → Prop) (L : List FrameType) :
    Prop where
  known : Frame.Known L
  locals : ∀ id type, (id, type) ∈ Γ → LocalSafe P L id type
  this : site.method.isStatic = false →
    ∃ t, L[0]? = some t ∧ Conforms t (.ref site.owner.type)

/-- An expression that can be assigned to stands for a place. -/
theorem Expr.exists_place (site : Site) {e : Expr} (h : e.isPlace = true) :
    ∃ p, (e.fragment site).place = some p := by
  cases e with
  | var | staticField | field | element =>
    rw [Expr.fragment]
    exact ⟨_, rfl⟩
  | _ => cases h

section Expressions

variable {site : Site} {Γ : Context} {P : LocalSlots → Prop} {L : List FrameType}
  {e : Expr} {type : FieldType}

theorem Expr.assignable (hsafe : (e.fragment site).Safe P L) (h : e.isPlace = true)
    (htype : e.type = some type) :
    ∃ p, (e.fragment site).Assignable P L type p := by
  obtain ⟨p, hp⟩ := Expr.exists_place site h
  have hsource := Expr.type_source site htype
  exact ⟨p, hsource, hp, hsafe.place p type hp hsource⟩

theorem Expr.passes (hsafe : (e.fragment site).Safe P L) (h : e.goesTo type = true) :
    ∃ t, (e.fragment site).toOperand.Safe P L t ∧ t.converts type = true := by
  obtain ⟨t, ht, hconverts⟩ := (Option.any_eq_true _ _).1 h
  exact ⟨t, hsafe.operand (Expr.type_source site ht), hconverts⟩

theorem Expr.pushes (hsafe : (e.fragment site).Safe P L) (h : e.goesTo type = true) :
    Pushes P L type ((e.fragment site).converted type) := by
  obtain ⟨t, hoperand, hconverts⟩ := Expr.passes hsafe h
  exact hoperand.converted hconverts

/-- A reference is pushed. -/
theorem Expr.reference (hsafe : (e.fragment site).Safe P L) (h : e.isReference = true) :
    ∃ t, t.isReference = true ∧ (e.fragment site).toOperand.Safe P L t := by
  obtain ⟨t, ht, href⟩ := (Option.any_eq_true _ _).1 h
  exact ⟨t, href, hsafe.operand (Expr.type_source site ht)⟩

end Expressions

mutual

/-- **The code of a typed expression can always be made**, unless it gets too large. The
induction is on the expression, with one lemma for each construct, and covers its use as a
value, as a condition, as a place and for its effect alone. -/
theorem Expr.safe {site : Site} {Γ : Context} {P : LocalSlots → Prop} {L : List FrameType}
    (hstores : site.Stores Γ P L) (e : Expr) (h : e.isTyped site Γ = true) :
    (e.fragment site).Safe P L := by
  have hL := hstores.known
  match e with
  | .int value t =>
    simp only [Expr.isTyped, decide_eq_true_eq] at h
    rw [Expr.fragment]
    exact Fragment.safe_ofValue_of h (pushes_of .int fun _ _ => safe_pushInt value)
  | .float value t =>
    simp only [Expr.isTyped, decide_eq_true_eq] at h
    rw [Expr.fragment]
    exact Fragment.safe_ofValue_of h (pushes_of .float fun _ _ => safe_pushFloat value)
  | .boolean value t =>
    simp only [Expr.isTyped, decide_eq_true_eq] at h
    have hvalue := Fragment.safe_ofValue_of (P := P) (show (Expr.boolean value t).type = _ from h)
      (pushes_of .boolean fun _ _ => safe_pushInt (L := L) (if value then 1 else 0))
    rw [Expr.fragment]
    exact { hvalue with jump := fun _ => jumps_jumpConstant value }
  | .string value t =>
    simp only [Expr.isTyped, decide_eq_true_eq] at h
    rw [Expr.fragment]
    exact Fragment.safe_ofValue_of h
      (pushes_of (conforms_verification _) fun _ _ => safe_pushString value)
  | .null t =>
    simp only [Expr.isTyped] at h
    obtain ⟨type, htype, href⟩ := (Option.any_eq_true _ _).1 h
    rw [Expr.fragment]
    match type with
    | .ref r =>
      refine Fragment.safe_ofValue_of htype (pushes_of (.null r) fun _ _ => ?_)
      exact safe_simple rfl (fun _ => rfl) fun n hS => MadeBefore.push (by simp) n hS
    | .base _ => cases href
  | .this t =>
    simp only [Expr.isTyped, Bool.and_eq_true, Bool.not_eq_true', decide_eq_true_eq] at h
    obtain ⟨u, hslot, hu⟩ := hstores.this h.1
    rw [Expr.fragment]
    exact Fragment.safe_ofValue_of h.2 (pushes_loadThis h.1 hslot hu)
  | .var id t =>
    simp only [Expr.isTyped, Option.any_eq_true, decide_eq_true_eq] at h
    obtain ⟨type, rfl, hmem⟩ := h
    have hplace : (Place.slot id).Safe P L type := .slot (hstores.locals id type hmem)
    rw [Expr.fragment]
    exact Fragment.safe_ofPlace rfl (fun _ _ => Place.safe_load hplace .slot) hplace
  | .staticField f t =>
    simp only [Expr.isTyped, Bool.and_eq_true, decide_eq_true_eq] at h
    obtain ⟨hstatic, rfl⟩ := h
    have hplace : (Place.staticField f).Safe P L f.type := .staticField hstatic rfl
    rw [Expr.fragment]
    exact Fragment.safe_ofPlace rfl (fun _ _ => Place.safe_load hplace .staticField) hplace
  | .field object f t =>
    simp only [Expr.isTyped, Bool.and_eq_true, Bool.not_eq_true', decide_eq_true_eq] at h
    obtain ⟨⟨⟨hobject, href⟩, hstatic⟩, rfl⟩ := h
    obtain ⟨u, hu, hpushes⟩ := Expr.reference (object.safe hstores hobject) href
    rw [Expr.fragment]
    refine Fragment.safe_ofPlace rfl (fun T S => ?_) (.field hstatic rfl hu hpushes.value)
    refine (hpushes.value T S).bind fun _ => .of_pushed fun v hv => ?_
    exact (safe_getField hstatic (hv.isReference hu)).pushed (conforms_verification _)
  | .element array index t =>
    simp only [Expr.isTyped, Bool.and_eq_true, decide_eq_true_eq, Option.isSome_iff_exists] at h
    obtain ⟨⟨⟨⟨harray, hindex⟩, hint⟩, type, rfl⟩, htype⟩ := h
    obtain ⟨u, hu, hcomponent⟩ := Option.bind_eq_some_iff.1 htype
    have harray := (array.safe hstores harray).operand (Expr.type_source site hu)
    have hindex := (index.safe hstores hindex).operand (Expr.type_source site hint)
    rw [Expr.fragment]
    exact Fragment.safe_ofPlace rfl (pushes_elementValue rfl harray hindex hcomponent)
      (.element hcomponent harray.value hindex.value)
  | .length array t =>
    simp only [Expr.isTyped, Bool.and_eq_true, decide_eq_true_eq, Option.isSome_iff_exists] at h
    obtain ⟨⟨harray, type, hlength⟩, htype⟩ := h
    obtain ⟨u, hu, hcomponent⟩ := Option.bind_eq_some_iff.1 hlength
    have harray := (array.safe hstores harray).operand (Expr.type_source site hu)
    have href := FieldType.isReference_of_component hcomponent
    rw [Expr.fragment]
    refine Fragment.safe_ofValue_of htype fun T S => ?_
    refine (harray.value T S).bind fun _ => .of_pushed fun v hv => ?_
    exact (safe_arrayLength (hv.isReference href)).pushed .int
  | .assign target value t =>
    simp only [Expr.isTyped, Bool.and_eq_true, decide_eq_true_eq, Option.any_eq_true] at h
    obtain ⟨⟨⟨⟨htarget, hplace⟩, hvalue⟩, htype⟩, type, rfl, hgoes⟩ := h
    obtain ⟨p, hp⟩ := Expr.assignable (target.safe hstores htarget) hplace htype.symm
    rw [Expr.fragment]
    exact Fragment.safe_ofUpdate rfl
      (updates_assign hp (Expr.pushes (value.safe hstores hvalue) hgoes))
  | .compound op target value t =>
    simp only [Expr.isTyped, Bool.and_eq_true, decide_eq_true_eq, Option.any_eq_true] at h
    obtain ⟨⟨⟨⟨htarget, hplace⟩, hvalue⟩, htype⟩, type, rfl, other, hother, hop⟩ := h
    obtain ⟨p, hp⟩ := Expr.assignable (target.safe hstores htarget) hplace htype.symm
    have hvalue := (value.safe hstores hvalue).operand (Expr.type_source site hother)
    rw [Expr.fragment]
    exact Fragment.safe_ofUpdate rfl (updates_compound hL hp hvalue hop)
  | .increment target decrement inFront t =>
    simp only [Expr.isTyped, Bool.and_eq_true, decide_eq_true_eq, Option.any_eq_true] at h
    obtain ⟨⟨⟨htarget, hplace⟩, htype⟩, type, rfl, hnumeric⟩ := h
    obtain ⟨p, hp⟩ := Expr.assignable (target.safe hstores htarget) hplace htype.symm
    rw [Expr.fragment]
    exact Fragment.safe_ofUpdate rfl (updates_increment hp hnumeric decrement inFront)
  | .unary op operand t =>
    simp only [Expr.isTyped, Bool.and_eq_true, decide_eq_true_eq, Option.isSome_iff_exists] at h
    obtain ⟨⟨hoperand, type, rfl⟩, htype⟩ := h
    obtain ⟨u, hu, hop⟩ := Option.bind_eq_some_iff.1 htype
    rw [Expr.fragment]
    exact safe_unaryFragment hL (operand.safe hstores hoperand) (Expr.type_source site hu) rfl hop
  | .binary op left right t =>
    simp only [Expr.isTyped, Bool.and_eq_true, decide_eq_true_eq, Option.isSome_iff_exists] at h
    obtain ⟨⟨⟨hleft, hright⟩, type, rfl⟩, htype⟩ := h
    obtain ⟨l, hl, htype⟩ := Option.bind_eq_some_iff.1 htype
    obtain ⟨r, hr, hop⟩ := Option.bind_eq_some_iff.1 htype
    rw [Expr.fragment]
    exact safe_binaryFragment hL (left.safe hstores hleft) (right.safe hstores hright)
      (Expr.type_source site hl) (Expr.type_source site hr) rfl hop
  | .compare op left right t =>
    simp only [Expr.isTyped, Bool.and_eq_true, decide_eq_true_eq, Option.any_eq_true] at h
    obtain ⟨⟨⟨hleft, hright⟩, rfl⟩, l, hl, r, hr, hcompares⟩ := h
    have hleft := (left.safe hstores hleft).operand (Expr.type_source site hl)
    have hright := (right.safe hstores hright).operand (Expr.type_source site hr)
    rw [Expr.fragment]
    exact Fragment.safe_ofJump hL rfl
      (jumps_of_compares _ op (compares_operands hleft hright hcompares))
  | .logical op left right t =>
    simp only [Expr.isTyped, Bool.and_eq_true, decide_eq_true_eq] at h
    obtain ⟨⟨⟨⟨hleft, hright⟩, hl⟩, hr⟩, rfl⟩ := h
    rw [Expr.fragment]
    exact Fragment.safe_ofJump hL rfl (jumps_jumpLogical hL op
      ((left.safe hstores hleft).jump (Expr.type_source site hl))
      ((right.safe hstores hright).jump (Expr.type_source site hr)))
  | .conditional condition thenValue elseValue t =>
    simp only [Expr.isTyped, Bool.and_eq_true, decide_eq_true_eq, Option.any_eq_true] at h
    obtain ⟨⟨⟨⟨hcondition, hboolean⟩, hthen⟩, helse⟩, type, rfl, hgoes⟩ := h
    rw [Expr.fragment]
    exact Fragment.safe_ofValue_of rfl (pushes_conditionalValue hL rfl
      ((condition.safe hstores hcondition).jump (Expr.type_source site hboolean))
      (Expr.pushes (thenValue.safe hstores hthen) hgoes.1)
      (Expr.pushes (elseValue.safe hstores helse) hgoes.2))
  | .call object method operands viaSuper t =>
    simp only [Expr.isTyped, Bool.and_eq_true, decide_eq_true_eq] at h
    obtain ⟨⟨hobject, hoperands⟩, htype⟩ := h
    rw [Expr.fragment]
    refine Fragment.safe_ofValue ?_
    change Makes P L t _
    rw [htype]
    exact makes_called (Expr.hasReceiver hstores object hobject)
      (Expr.passesAll hstores operands hoperands) viaSuper
  | .new constructor operands t =>
    simp only [Expr.isTyped, Bool.and_eq_true, decide_eq_true_eq] at h
    rw [Expr.fragment]
    exact Fragment.safe_ofValue_of h.2
      (pushes_created hL constructor (Expr.passesAll hstores operands h.1))
  | .newArray dimensions t =>
    simp only [Expr.isTyped, Bool.and_eq_true, decide_eq_true_eq, Option.any_eq_true] at h
    obtain ⟨⟨⟨hdimensions, hpos⟩, hlength⟩, type, rfl, htype⟩ := h
    have hpasses := Expr.passesAll hstores dimensions hdimensions
    have hcount : (Expr.operands site dimensions).length = dimensions.length := by
      rw [List.Forall₂.length_eq hpasses, List.length_replicate]
    rw [Expr.fragment]
    match type with
    | .ref r =>
      refine Fragment.safe_ofValue_of rfl (pushes_createdArray rfl (fun o ho => ?_) ?_ ?_ ?_)
      · obtain ⟨u, hu, hint⟩ := hpasses.of_replicate o ho
        rwa [FieldType.eq_int_of_converts hint] at hu
      all_goals
        rw [hcount]
        assumption
    | .base _ => exact absurd (Nat.le_trans hpos htype) (by simp [FieldType.dimensions])
  | .arrayOf elements t =>
    simp only [Expr.isTyped, Bool.and_eq_true, decide_eq_true_eq, Option.any_eq_true] at h
    obtain ⟨hlength, type, htype, helements⟩ := h
    obtain ⟨u, rfl, hcomponent⟩ := Option.bind_eq_some_iff.1 htype
    have hpasses := Expr.passesAll hstores elements helements
    rw [Expr.fragment]
    match u with
    | .ref r =>
      refine Fragment.safe_ofValue_of rfl (pushes_filledArray rfl hcomponent (fun o ho => ?_) ?_)
      · obtain ⟨v, hv, hconverts⟩ := hpasses.of_replicate o ho
        exact hv.converted hconverts
      · rwa [List.Forall₂.length_eq hpasses, List.length_replicate]
    | .base _ => cases hcomponent
  | .cast operand t =>
    simp only [Expr.isTyped, Bool.and_eq_true, Option.any_eq_true] at h
    obtain ⟨hoperand, type, rfl, u, hu, hcasts⟩ := h
    rw [Expr.fragment]
    exact Fragment.safe_ofValue_of rfl (pushes_castValue rfl
      ((operand.safe hstores hoperand).operand (Expr.type_source site hu)) hcasts)
  | .instanceOf operand tested t =>
    simp only [Expr.isTyped, Bool.and_eq_true, decide_eq_true_eq] at h
    obtain ⟨⟨hoperand, href⟩, htype⟩ := h
    obtain ⟨u, hu, hpushes⟩ := Expr.reference (operand.safe hstores hoperand) href
    rw [Expr.fragment]
    refine Fragment.safe_ofValue_of htype fun T S => ?_
    refine (hpushes.value T S).bind fun _ => .of_pushed fun v hv => ?_
    exact (safe_instanceOf tested (hv.isReference hu)).pushed .boolean

/-- Arguments that are typed are passed as values of the types of the parameters, one for
each. -/
theorem Expr.passesAll {site : Site} {Γ : Context} {P : LocalSlots → Prop} {L : List FrameType}
    (hstores : site.Stores Γ P L) (es : List Expr) {types : List FieldType}
    (h : Expr.areTyped site Γ es types = true) : Passes P L (Expr.operands site es) types := by
  match es, types with
  | [], [] =>
    rw [Expr.operands]
    exact .nil
  | e :: es, type :: types =>
    simp only [Expr.areTyped, Bool.and_eq_true] at h
    rw [Expr.operands]
    exact .cons (Expr.passes (e.safe hstores h.1.1) h.1.2) (Expr.passesAll hstores es h.2)
  | [], _ :: _ | _ :: _, [] => simp [Expr.areTyped] at h

/-- A call whose receiver is typed finds its object on the stack. -/
theorem Expr.hasReceiver {site : Site} {Γ : Context} {P : LocalSlots → Prop}
    {L : List FrameType} (hstores : site.Stores Γ P L) {method : MethodRef} (e : Option Expr)
    (h : Expr.isReceiver site Γ method e = true) :
    HasReceiver P L site method (Expr.operand? site e) := by
  match e with
  | none =>
    simp only [Expr.isReceiver, Bool.or_eq_true, Bool.not_eq_true'] at h
    rw [Expr.operand?]
    refine .none fun hstatic => ?_
    have hthis : site.method.isStatic = false := h.resolve_left (by rw [hstatic]; exact nofun)
    obtain ⟨u, hslot, hu⟩ := hstores.this hthis
    exact pushes_loadThis hthis hslot hu
  | some e =>
    simp only [Expr.isReceiver, Bool.and_eq_true] at h
    rw [Expr.operand?]
    obtain ⟨u, hu, hpushes⟩ := Expr.reference (e.safe hstores h.1) h.2
    exact .some hpushes hu

end

end ClassForge
