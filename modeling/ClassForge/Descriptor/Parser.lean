/-
# Reading descriptors

Specification, section 10.6: the reader of class files, which takes the frame on entry
from a descriptor.

The inverse of rendering.  Each parser takes the longest descriptor of its kind
from the front of the characters and hands on the rest; a whole text is a
descriptor when nothing is left.
-/

import ClassForge.Descriptor

namespace ClassForge

/-- Why a text is not a descriptor. -/
inductive DescriptorError where
  | missingBase
  | unknownBase (c : Char)
  | missingReference
  | notReference (c : Char)
  | missingField
  | notObject
  | unterminated (name : String)
  | badName (error : NameError)
  | notMethod
  | leftover (c : Char)
deriving DecidableEq, Repr

namespace DescriptorError

/-- The wording of a descriptor error. -/
def message : DescriptorError → String
  | .missingBase => "Missing base type character"
  | .unknownBase c => s!"Unsupported base type character '{c}'"
  | .missingReference => "Missing reference type"
  | .notReference c => s!"Invalid reference type character '{c}'"
  | .missingField => "Missing field type"
  | .notObject => "Expected object type to start with `L`"
  | .unterminated name => s!"Missing terminator for 'L{name}'"
  | .badName error => error.message
  | .notMethod => "Expected '(' for method"
  | .leftover c => s!"Unexpected leftover input '{c}'"

/-- Does the text end where more of a descriptor is needed? -/
def isEnd : DescriptorError → Bool
  | .missingBase | .missingReference | .missingField | .unterminated _ => true
  | _ => false

end DescriptorError

namespace Descriptor

variable {cs rest : List Char}

/-- A step that reads a descriptor from the front of the characters. -/
abbrev Parser (α : Type) := List Char → Except DescriptorError (α × List Char)

/-- A parser whose result is changed. -/
def Parser.map {α β : Type} (f : α → β) (parser : Parser α) : Parser β := fun cs =>
  match parser cs with
  | .ok (a, rest) => .ok (f a, rest)
  | .error e => .error e

theorem Parser.map_eq_ok {α β : Type} {f : α → β} {parser : Parser α} {b : β} :
    parser.map f cs = .ok (b, rest) ↔ ∃ a, parser cs = .ok (a, rest) ∧ f a = b := by
  unfold Parser.map
  split
  · rename_i a tail heq
    rw [heq]
    constructor
    · intro h
      cases h
      exact ⟨a, rfl, rfl⟩
    · rintro ⟨_, h, rfl⟩
      cases h
      rfl
  · simp_all

/-- A base type. -/
def base : Parser BaseType
  | 'Z' :: cs => .ok (.boolean, cs)
  | 'F' :: cs => .ok (.float, cs)
  | 'I' :: cs => .ok (.int, cs)
  | c :: _ => .error (.unknownBase c)
  | [] => .error .missingBase

/-- The name of a class up to its semicolon, after the `L`. -/
def className : Parser BinaryName := fun cs =>
  match cs.dropWhile (· ≠ ';') with
  | [] => .error (.unterminated (String.ofList (cs.takeWhile (· ≠ ';'))))
  | _ :: rest =>
    match BinaryName.ofString (String.ofList (cs.takeWhile (· ≠ ';'))) with
    | .ok n => .ok (n, rest)
    | .error e => .error (.badName e)

/-- A class. -/
def object : Parser BinaryName
  | 'L' :: cs => className cs
  | _ => .error .notObject

/-- What an array holds, after its brackets. -/
def element : Parser ElementType
  | 'L' :: cs => className.map .object cs
  | cs => base.map .base cs

/-- A class or an array. -/
def reference : Parser RefType
  | 'L' :: cs => className.map .object cs
  | '[' :: cs => element.map (.array (cs.takeWhile (· = '[')).length) (cs.dropWhile (· = '['))
  | c :: _ => .error (.notReference c)
  | [] => .error .missingReference

/-- The type of a field. -/
def field : Parser FieldType
  | [] => .error .missingField
  | c :: cs => if c = 'L' ∨ c = '[' then reference.map .ref (c :: cs) else base.map .base (c :: cs)

theorem base_length {t : BaseType} (h : base cs = .ok (t, rest)) : rest.length < cs.length := by
  unfold base at h
  split at h <;> cases h <;> simp

theorem className_length {n : BinaryName} (h : className cs = .ok (n, rest)) :
    rest.length < cs.length := by
  have hle := (List.dropWhile_sublist (· ≠ ';') (l := cs)).length_le
  unfold className at h
  split at h
  · cases h
  · rename_i heq
    rw [heq] at hle
    split at h <;> cases h
    exact hle

theorem element_length {t : ElementType} (h : element cs = .ok (t, rest)) :
    rest.length < cs.length := by
  unfold element at h
  split at h
  · obtain ⟨n, hn, -⟩ := Parser.map_eq_ok.1 h
    exact Nat.lt_succ_of_lt (className_length hn)
  · obtain ⟨b, hb, -⟩ := Parser.map_eq_ok.1 h
    exact base_length hb

/-- A reference type takes a character, so that a list of parameters is read by a recursion
that ends. -/
theorem reference_length {t : RefType} (h : reference cs = .ok (t, rest)) :
    rest.length < cs.length := by
  unfold reference at h
  split at h
  · obtain ⟨n, hn, -⟩ := Parser.map_eq_ok.1 h
    exact Nat.lt_succ_of_lt (className_length hn)
  · rename_i cs
    obtain ⟨e, he, -⟩ := Parser.map_eq_ok.1 h
    have hle := (List.dropWhile_sublist (· = '[') (l := cs)).length_le
    have hlt := element_length he
    simp only [List.length_cons]
    omega
  · cases h
  · cases h

/-- Reading a field type uses up at least one character. -/
theorem field_length {t : FieldType} (h : field cs = .ok (t, rest)) : rest.length < cs.length := by
  unfold field at h
  split at h
  · cases h
  · split at h
    · obtain ⟨r, hr, -⟩ := Parser.map_eq_ok.1 h
      exact reference_length hr
    · obtain ⟨b, hb, -⟩ := Parser.map_eq_ok.1 h
      exact base_length hb

/-- Field types up to a closing parenthesis, behind those already read (last
first). -/
def parametersFrom (done : List FieldType) (cs : List Char) :
    Except DescriptorError (List FieldType × List Char) :=
  match cs with
  | ')' :: rest => .ok (done.reverse, rest)
  | cs =>
    match _h : field cs with
    | .ok (t, rest) => parametersFrom (t :: done) rest
    | .error e => .error e
termination_by cs.length
decreasing_by exact field_length _h

/-- What a method returns: `V` or a field type. -/
def returns : Parser (Option FieldType)
  | 'V' :: cs => .ok (none, cs)
  | cs => field.map some cs

/-- The descriptor of a method. -/
def method : Parser MethodDescriptor
  | '(' :: cs => do
    let (parameters, cs) ← parametersFrom [] cs
    let (result, cs) ← returns cs
    return (⟨parameters, result⟩, cs)
  | _ => .error .notMethod

/-- The value of a parser on a whole text. -/
def whole {α : Type} (parser : Parser α) (s : String) : Except DescriptorError α :=
  match parser s.toList with
  | .ok (a, []) => .ok a
  | .ok (_, c :: _) => .error (.leftover c)
  | .error e => .error e

end Descriptor

/-- The base type with the given descriptor. -/
def BaseType.parse : String → Except DescriptorError BaseType := Descriptor.whole Descriptor.base

/-- The class with the given descriptor. -/
def BinaryName.parse : String → Except DescriptorError BinaryName :=
  Descriptor.whole Descriptor.object

/-- The reference type with the given descriptor. -/
def RefType.parse : String → Except DescriptorError RefType := Descriptor.whole Descriptor.reference

/-- The field type with the given descriptor. -/
def FieldType.parse : String → Except DescriptorError FieldType := Descriptor.whole Descriptor.field

/-- The method type with the given descriptor. -/
def MethodDescriptor.parse : String → Except DescriptorError MethodDescriptor :=
  Descriptor.whole Descriptor.method

end ClassForge
