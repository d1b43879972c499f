/-
# Each type has one descriptor

Specification, section 3: the descriptors of types.

The descriptor of a type is read back as the type, whatever stands behind it: each
parser takes exactly the characters of what it parses (`Parser.Takes`).

| read | ends at |
| --- | --- |
| a base type | its letter |
| the name of a class | the semicolon, which no name contains |
| an array | its element type, which does not begin with a bracket |
| parameters | the closing parenthesis, with which no type begins |

And nothing else is read as the type: the characters that a parser has taken are those of
its value (`Parser.Spells`).  So a text is the descriptor of a type just if it is parsed as
the type, and no two types have the same descriptor (`descriptors_exact`).
-/

import ClassForge.Descriptor.Parser

namespace ClassForge

/-! ### Names -/

namespace Name

/-- A name that is accepted has no character that would end it too early inside a
descriptor. -/
theorem not_isIllegal_of_valid {cs : List Char} (h : unqualifiedError? cs = none) {c : Char}
    (hc : c ∈ cs) : isIllegal c = false := by
  unfold unqualifiedError? at h
  split at h
  · cases h
  split at h
  · cases h
  rename_i hlegal
  rw [Bool.not_eq_true, List.any_eq_false] at hlegal
  exact Bool.eq_false_iff.2 (hlegal c hc)

/-- A character other than a slash stands in one of the segments. -/
theorem mem_segmentsFrom (segment : List Char) {cs : List Char} {c : Char}
    (hc : c ∈ segment ∨ c ∈ cs) (hslash : c ≠ '/') : ∃ s ∈ segmentsFrom segment cs, c ∈ s := by
  induction cs generalizing segment with
  | nil =>
    have hmem : c ∈ segment := hc.resolve_right (by simp)
    exact ⟨segment.reverse, by simp [segmentsFrom], by simpa using hmem⟩
  | cons d cs ih =>
    rw [segmentsFrom]
    split
    · rename_i hd
      have hrest : c ∈ segment ∨ c ∈ cs := by
        rcases hc with hc | hc
        · exact .inl hc
        · exact .inr ((List.mem_cons.1 hc).resolve_left fun h => hslash (h.trans hd))
      rcases hrest with hmem | hmem
      · exact ⟨segment.reverse, by simp, by simpa using hmem⟩
      · obtain ⟨s, hs, hcs⟩ := ih [] (.inr hmem)
        exact ⟨s, List.mem_cons_of_mem _ hs, hcs⟩
    · refine ih (d :: segment) ?_
      rcases hc with hc | hc
      · exact .inl (List.mem_cons_of_mem d hc)
      · rcases List.mem_cons.1 hc with rfl | hc
        · exact .inl List.mem_cons_self
        · exact .inr hc

end Name

namespace BinaryName

/-- **No name of a class contains a semicolon.** -/
theorem semicolon_not_mem (n : BinaryName) : ';' ∉ n.text.toList := by
  intro hmem
  obtain ⟨s, hs, hsemicolon⟩ := Name.mem_segmentsFrom [] (.inr hmem) (by decide)
  have hvalid := n.valid
  unfold Name.binaryError? at hvalid
  split at hvalid
  · cases hvalid
  have hsegment := List.findSome?_eq_none_iff.1 hvalid s hs
  unfold Name.segmentError? at hsegment
  split at hsegment
  · cases hsegment
  rename_i hunqualified
  exact absurd (Name.not_isIllegal_of_valid hunqualified hsemicolon) (by decide)

theorem ofString_text (n : BinaryName) : ofString n.text = .ok n := by
  unfold ofString
  split
  · rfl
  · rename_i e he
    rw [n.valid] at he
    cases he

end BinaryName

/-! ### Types -/

namespace Descriptor

/-- The parser takes exactly these characters for the value, whatever stands behind
them. -/
def Parser.Takes {α : Type} (parser : Parser α) (cs : List Char) (a : α) : Prop :=
  ∀ rest, parser (cs ++ rest) = .ok (a, rest)

theorem Parser.Takes.map {α β : Type} {parser : Parser α} {cs : List Char} {a : α}
    (h : parser.Takes cs a) (f : α → β) : (parser.map f).Takes cs (f a) :=
  fun rest => Parser.map_eq_ok.2 ⟨a, h rest, rfl⟩

theorem takes_className (n : BinaryName) : className.Takes (n.text.toList ++ [';']) n := by
  intro rest
  have hname : ∀ c ∈ n.text.toList, (decide (c ≠ ';')) = true := fun c hc =>
    decide_eq_true fun h => n.semicolon_not_mem (h ▸ hc)
  have hsplit : (n.text.toList ++ [';']) ++ rest = n.text.toList ++ ';' :: rest := by simp
  unfold className
  rw [hsplit, List.dropWhile_append_of_pos hname, List.takeWhile_append_of_pos hname,
    List.dropWhile_cons_of_neg (by decide), List.takeWhile_cons_of_neg (by decide),
    List.append_nil, String.ofList_toList, n.ofString_text]

theorem takes_element (t : ElementType) : element.Takes t.chars t := by
  cases t with
  | base t =>
    intro rest
    cases t <;> rfl
  | object n => exact (takes_className n).map ElementType.object

theorem element_chars_ne_bracket (t : ElementType) (rest : List Char) :
    ∃ c cs, t.chars ++ rest = c :: cs ∧ c ≠ '[' := by
  cases t with
  | base t => cases t <;> exact ⟨_, rest, rfl, by decide⟩
  | object n => exact ⟨'L', _, rfl, by decide⟩

/-- A reference type is taken, with as many brackets as the array has dimensions and no
more. -/
theorem takes_reference (t : RefType) : reference.Takes t.chars t := by
  cases t with
  | object n => exact (takes_className n).map RefType.object
  | array extra element =>
    intro rest
    have hbrackets : ∀ c ∈ List.replicate extra '[', (decide (c = '[')) = true :=
      fun c hc => decide_eq_true (List.eq_of_mem_replicate hc)
    obtain ⟨c, cs, hcs, hc⟩ := element_chars_ne_bracket element rest
    have htake : (List.replicate extra '[' ++ (element.chars ++ rest)).takeWhile (· = '[') =
        List.replicate extra '[' := by
      rw [List.takeWhile_append_of_pos hbrackets, hcs,
        List.takeWhile_cons_of_neg (by simpa using hc), List.append_nil]
    have hdrop : (List.replicate extra '[' ++ (element.chars ++ rest)).dropWhile (· = '[') =
        element.chars ++ rest := by
      rw [List.dropWhile_append_of_pos hbrackets, hcs,
        List.dropWhile_cons_of_neg (by simpa using hc)]
    rw [RefType.chars, List.replicate_succ, List.cons_append, List.cons_append, List.append_assoc]
    change (Descriptor.element.map _) _ = _
    rw [htake, hdrop, List.length_replicate]
    exact ((takes_element element).map (RefType.array extra)) rest

/-- **The descriptor of a type is read back.** -/
theorem takes_field (t : FieldType) : field.Takes t.chars t := by
  intro rest
  cases t with
  | base t => cases t <;> rfl
  | ref t =>
    have hfirst : ∃ c cs, t.chars ++ rest = c :: cs ∧ (c = 'L' ∨ c = '[') := by
      cases t with
      | object n => exact ⟨'L', _, rfl, .inl rfl⟩
      | array extra element => exact ⟨'[', _, rfl, .inr rfl⟩
    obtain ⟨c, cs, hcs, hc⟩ := hfirst
    have hread := ((takes_reference t).map FieldType.ref) rest
    rw [FieldType.chars]
    rw [hcs] at hread ⊢
    rw [field, if_pos hc]
    exact hread

/-! ### Methods -/

/-- No type begins with what ends the parameters or stands for no result. -/
theorem field_chars_first (t : FieldType) (rest : List Char) :
    ∃ c cs, t.chars ++ rest = c :: cs ∧ c ≠ ')' ∧ c ≠ 'V' := by
  cases t with
  | base t => cases t <;> exact ⟨_, rest, rfl, by decide, by decide⟩
  | ref t =>
    cases t with
    | object n => exact ⟨'L', _, rfl, by decide, by decide⟩
    | array extra element => exact ⟨'[', _, rfl, by decide, by decide⟩

/-- **Parameters are taken one after the other up to the closing bracket**, behind those
that are done already. -/
theorem parametersFrom_chars (done ts : List FieldType) (rest : List Char) :
    parametersFrom done (ts.flatMap FieldType.chars ++ ')' :: rest) =
      .ok (done.reverse ++ ts, rest) := by
  induction ts generalizing done with
  | nil =>
    rw [parametersFrom.eq_def]
    simp
  | cons t ts ih =>
    obtain ⟨c, cs, hcs, hc, -⟩ :=
      field_chars_first t (ts.flatMap FieldType.chars ++ ')' :: rest)
    have hfield := takes_field t (ts.flatMap FieldType.chars ++ ')' :: rest)
    rw [List.flatMap_cons, List.append_assoc, hcs]
    rw [hcs] at hfield
    rw [parametersFrom.eq_def]
    split
    · rename_i heq
      exact absurd (List.cons.inj heq).1 hc
    · split
      · rename_i u tail hu
        rw [hfield] at hu
        cases hu
        rw [ih]
        simp
      · rename_i e he
        rw [hfield] at he
        cases he

/-- The characters of what a method returns. -/
def returnChars : Option FieldType → List Char
  | none => ['V']
  | some t => t.chars

theorem chars_mk (parameters : List FieldType) (result : Option FieldType) :
    MethodDescriptor.chars ⟨parameters, result⟩ =
      '(' :: (parameters.flatMap FieldType.chars ++ ')' :: returnChars result) := by
  cases result <;> rfl

/-- The type of a result is taken, or the letter for none. -/
theorem takes_returns (result : Option FieldType) : returns.Takes (returnChars result) result := by
  intro rest
  cases result with
  | none => rfl
  | some t =>
    obtain ⟨c, cs, hcs, -, hc⟩ := field_chars_first t rest
    have hread := ((takes_field t).map some) rest
    rw [returnChars]
    rw [hcs] at hread ⊢
    unfold returns
    split
    · rename_i heq
      exact absurd (List.cons.inj heq).1 hc
    · exact hread

/-- The descriptor of a method is taken as a whole and gives its types back. -/
theorem takes_method (d : MethodDescriptor) : method.Takes d.chars d := by
  intro rest
  obtain ⟨parameters, result⟩ := d
  have hparameters := parametersFrom_chars [] parameters (returnChars result ++ rest)
  rw [chars_mk, List.cons_append, List.append_assoc, List.cons_append]
  change (parametersFrom [] _ >>= fun p => returns p.2 >>= fun q =>
    pure (MethodDescriptor.mk p.1 q.1, q.2)) = _
  rw [hparameters]
  change (returns (returnChars result ++ rest) >>= fun q =>
    pure (MethodDescriptor.mk parameters q.1, q.2)) = _
  rw [takes_returns result rest]
  rfl

theorem Parser.Takes.whole {α : Type} {parser : Parser α} {cs : List Char} {a : α}
    (h : parser.Takes cs a) : whole parser (String.ofList cs) = .ok a := by
  have hread := h []
  rw [List.append_nil] at hread
  unfold Descriptor.whole
  rw [String.toList_ofList, hread]

end Descriptor

/-- **The descriptor of a method is read back.** -/
theorem MethodDescriptor.parse_render (d : MethodDescriptor) : parse d.render = .ok d :=
  (Descriptor.takes_method d).whole

/-! ### Nothing else is a descriptor -/

theorem BinaryName.text_of_ofString {s : String} {n : BinaryName} (h : ofString s = .ok n) :
    n.text = s := by
  unfold ofString at h
  split at h
  · cases h
    rfl
  · cases h

namespace Descriptor

/-- The characters that the parser takes are those of its value. -/
def Parser.Spells {α : Type} (parser : Parser α) (chars : α → List Char) : Prop :=
  ∀ (cs : List Char) (a : α) (rest : List Char), parser cs = .ok (a, rest) →
    cs = chars a ++ rest

theorem spells_base : base.Spells BaseType.chars := by
  intro cs t rest h
  unfold base at h
  split at h <;> cases h <;> rfl

/-- Whatever a class was read from is its name with the semicolon behind it. -/
theorem spells_className : className.Spells fun n => n.text.toList ++ [';'] := by
  intro cs n rest h
  have hsplit := List.takeWhile_append_dropWhile (p := (decide <| · ≠ ';')) (l := cs)
  unfold className at h
  split at h
  · cases h
  · rename_i c tail hdrop
    -- What stands behind the name begins with the character at which the search has stopped.
    have hc : c = ';' := by
      have hstop := List.head?_dropWhile_not (decide <| · ≠ ';') cs
      rw [hdrop] at hstop
      simpa using hstop
    split at h
    · rename_i hname
      cases h
      change cs = n.text.toList ++ [';'] ++ rest
      rw [BinaryName.text_of_ofString hname, String.toList_ofList, List.append_assoc]
      rw [hdrop, hc] at hsplit
      exact hsplit.symm
    · cases h

/-- Whatever an element type was read from spells this type. -/
theorem spells_element : element.Spells ElementType.chars := by
  intro cs t rest h
  unfold element at h
  split at h
  · obtain ⟨n, hn, rfl⟩ := Parser.map_eq_ok.1 h
    exact congrArg ('L' :: ·) (spells_className _ n rest hn)
  · obtain ⟨b, hb, rfl⟩ := Parser.map_eq_ok.1 h
    exact spells_base cs b rest hb

theorem takeWhile_bracket (cs : List Char) :
    cs.takeWhile (· = '[') = List.replicate (cs.takeWhile (· = '[')).length '[' :=
  List.eq_replicate_iff.2 ⟨rfl, fun c hc =>
    of_decide_eq_true (List.all_eq_true.1 List.all_takeWhile c hc)⟩

theorem spells_reference : reference.Spells RefType.chars := by
  intro cs t rest h
  unfold reference at h
  split at h
  · obtain ⟨n, hn, rfl⟩ := Parser.map_eq_ok.1 h
    exact congrArg ('L' :: ·) (spells_className _ n rest hn)
  · rename_i cs
    obtain ⟨e, he, rfl⟩ := Parser.map_eq_ok.1 h
    rw [RefType.chars, List.replicate_succ, List.cons_append, List.cons_append, List.append_assoc,
      ← takeWhile_bracket, ← spells_element _ e rest he, List.takeWhile_append_dropWhile]
  · cases h
  · cases h

/-- Whatever a field type was read from spells this type. -/
theorem spells_field : field.Spells FieldType.chars := by
  intro cs t rest h
  unfold field at h
  split at h
  · cases h
  · split at h
    · obtain ⟨r, hr, rfl⟩ := Parser.map_eq_ok.1 h
      exact spells_reference _ r rest hr
    · obtain ⟨b, hb, rfl⟩ := Parser.map_eq_ok.1 h
      exact spells_base _ b rest hb

/-- The characters of parameters are those of the types in order, up to the parenthesis. -/
theorem spells_parametersFrom {done ts : List FieldType} {cs rest : List Char}
    (h : parametersFrom done cs = .ok (ts, rest)) :
    ∃ more, ts = done.reverse ++ more ∧ cs = more.flatMap FieldType.chars ++ ')' :: rest := by
  fun_induction parametersFrom done cs with
  | case1 done tail =>
    cases h
    exact ⟨[], by simp, rfl⟩
  | case2 done cs hparenthesis t tail ht ih =>
    obtain ⟨more, rfl, rfl⟩ := ih h
    refine ⟨t :: more, by simp, ?_⟩
    rw [spells_field cs t _ ht, List.flatMap_cons, List.append_assoc]
  | case3 done cs hparenthesis e he => cases h

/-- Whatever the type of a result was read from spells it. -/
theorem spells_returns : returns.Spells returnChars := by
  intro cs result rest h
  unfold returns at h
  split at h
  · cases h
    rfl
  · obtain ⟨t, ht, rfl⟩ := Parser.map_eq_ok.1 h
    exact spells_field cs t rest ht

/-- Both parts of a computation that succeeds do. -/
theorem bind_eq_ok {α β : Type} {x : Except DescriptorError α} {f : α → Except DescriptorError β}
    {b : β} (h : (x >>= f) = .ok b) : ∃ a, x = .ok a ∧ f a = .ok b := by
  cases x with
  | ok a => exact ⟨a, rfl, h⟩
  | error e => cases h

/-- **Whatever a descriptor was read from spells it.** So reading and writing descriptors
are inverse to each other in both directions. -/
theorem spells_method : method.Spells MethodDescriptor.chars := by
  intro cs d rest h
  unfold method at h
  split at h
  · rename_i cs
    obtain ⟨⟨parameters, behind⟩, hparameters, h⟩ := bind_eq_ok h
    obtain ⟨⟨result, tail⟩, hreturns, h⟩ := bind_eq_ok h
    cases h
    obtain ⟨more, hmore, hcs⟩ := spells_parametersFrom hparameters
    rw [List.reverse_nil, List.nil_append] at hmore
    subst hmore
    rw [chars_mk, hcs, spells_returns behind result rest hreturns, List.cons_append,
      List.append_assoc, List.cons_append]
  · cases h

/-- What is taken for each value and spelt by it is a descriptor of the value, and nothing else
is. -/
theorem whole_eq_ok_iff {α : Type} {parser : Parser α} {chars : α → List Char}
    (htakes : ∀ a, parser.Takes (chars a) a) (hspells : parser.Spells chars) (s : String) (a : α) :
    whole parser s = .ok a ↔ s = String.ofList (chars a) := by
  constructor
  · intro h
    unfold whole at h
    split at h
    · rename_i hread
      cases h
      have hcs := hspells s.toList a [] hread
      rw [List.append_nil] at hcs
      rw [← hcs, String.ofList_toList]
    · cases h
    · cases h
  · rintro rfl
    exact (htakes a).whole

theorem injective_of_exact {α : Type} {parse : String → Except DescriptorError α}
    {render : α → String} (h : ∀ s a, parse s = .ok a ↔ s = render a) :
    Function.Injective render := by
  intro a b hab
  have hread : parse (render a) = .ok b := (h _ b).2 hab
  exact Except.ok.inj (((h _ a).2 rfl).symm.trans hread)

end Descriptor

open Descriptor in
/-- **A text is parsed as a type just if it is the descriptor of the type.**  So no two types
have the same descriptor, and types are read back with any number of dimensions and any number
of parameters. -/
theorem descriptors_exact :
    (∀ (s : String) (t : FieldType), FieldType.parse s = .ok t ↔ s = t.render) ∧
    (∀ (s : String) (t : RefType), RefType.parse s = .ok t ↔ s = t.render) ∧
    (∀ (s : String) (d : MethodDescriptor), MethodDescriptor.parse s = .ok d ↔ s = d.render) ∧
    Function.Injective FieldType.render ∧ Function.Injective RefType.render ∧
    Function.Injective MethodDescriptor.render ∧
    (∀ (extra : Nat) (element : ElementType),
      RefType.parse (String.ofList (List.replicate (extra + 1) '[' ++ element.chars)) =
        .ok (.array extra element)) ∧
    ∀ (parameters : List FieldType) (result : Option FieldType),
      MethodDescriptor.parse (String.ofList
        ('(' :: (parameters.flatMap FieldType.chars ++ ')' :: returnChars result))) =
        .ok ⟨parameters, result⟩ := by
  have hfield := whole_eq_ok_iff takes_field spells_field
  have hreference := whole_eq_ok_iff takes_reference spells_reference
  have hmethod := whole_eq_ok_iff takes_method spells_method
  refine ⟨hfield, hreference, hmethod, injective_of_exact hfield, injective_of_exact hreference,
    injective_of_exact hmethod, fun extra element => (hreference _ _).2 rfl,
    fun parameters result => (hmethod _ _).2 ?_⟩
  rw [chars_mk]

end ClassForge
