/-
# Names

Specification, section 6: the names of the container, and those of resolved
declarations.

An *unqualified name* is the name of a field, a method or one segment of a
class name.  It is not empty, holds none of `.`, `;`, `[` and `/`, and uses
angle brackets only in `<init>` and `<clinit>`.  A *binary name* is the full
name of a class: unqualified names separated by `/`, none of them an
initializer.

A name carries the proof that its text breaks none of these rules, so every
value of the two types is a valid name.
-/

import ClassForge.Text.Form

namespace ClassForge

/-- The rule that a text breaks as a name. -/
inductive NameError where
  | emptyUnqualified
  | illegalCharacter (name : String)
  | angleBrackets (name : String)
  | emptyBinary
  | initializerSegment (name : String)
deriving DecidableEq, Repr

/-- The wording of a name error. -/
def NameError.message : NameError → String
  | .emptyUnqualified => "Unqualified name is empty"
  | .illegalCharacter name => s!"Unqualified name '{name}' contains an illegal character"
  | .angleBrackets name =>
    s!"Unqualified name '{name}' may only use angle brackets for initializers"
  | .emptyBinary => "Binary name is empty"
  | .initializerSegment name => s!"Binary name '{name}' has an initializer segment"

namespace Name

/-- May a character stand in an unqualified name at all? -/
def isIllegal (c : Char) : Bool := c == '.' || c == ';' || c == '[' || c == '/'

/-- Is the character an angle bracket? -/
def isBracket (c : Char) : Bool := c == '<' || c == '>'

/-- The first rule for unqualified names that the characters break. -/
def unqualifiedError? (cs : List Char) : Option NameError :=
  if cs.isEmpty then some .emptyUnqualified
  else if cs.any isIllegal then some (.illegalCharacter (String.ofList cs))
  else if cs.any isBracket && cs != ['<', 'i', 'n', 'i', 't', '>']
      && cs != ['<', 'c', 'l', 'i', 'n', 'i', 't', '>'] then
    some (.angleBrackets (String.ofList cs))
  else none

/-- The segments between slashes, behind the characters of the first of them
that are already read (last first). -/
def segmentsFrom : List Char → List Char → List (List Char)
  | segment, [] => [segment.reverse]
  | segment, c :: cs =>
    if c = '/' then segment.reverse :: segmentsFrom [] cs else segmentsFrom (c :: segment) cs

/-- The segments of a text between slashes; a text without slashes is one
segment. -/
def segments (cs : List Char) : List (List Char) := segmentsFrom [] cs

/-- The rule that one segment of the binary name `whole` breaks. -/
def segmentError? (whole segment : List Char) : Option NameError :=
  match unqualifiedError? segment with
  | some e => some e
  | none =>
    if segment.head? = some '<' then some (.initializerSegment (String.ofList whole)) else none

/-- The first rule for binary names that the characters break, segment by
segment. -/
def binaryError? (cs : List Char) : Option NameError :=
  if cs.isEmpty then some .emptyBinary
  else (segments cs).findSome? (segmentError? cs)

end Name

/-- The name of a field or a method. -/
structure UnqualifiedName where
  text : String
  valid : Name.unqualifiedError? text.toList = none
deriving DecidableEq, Hashable

/-- The full name of a class. -/
structure BinaryName where
  text : String
  valid : Name.binaryError? text.toList = none
deriving DecidableEq, Hashable

namespace UnqualifiedName

/-- The name with the given text, or the first rule that the text breaks. -/
def ofString (s : String) : Except NameError UnqualifiedName :=
  match h : Name.unqualifiedError? s.toList with
  | none => .ok ⟨s, h⟩
  | some e => .error e

/-- The name of constructors. -/
def init : UnqualifiedName := ⟨"<init>", by decide⟩

/-- The name `append`. -/
def append : UnqualifiedName := ⟨"append", by decide⟩

/-- The name `toString`. -/
def toStringName : UnqualifiedName := ⟨"toString", by decide⟩

end UnqualifiedName

namespace BinaryName

/-- The name with the given text, or the first rule that the text breaks. -/
def ofString (s : String) : Except NameError BinaryName :=
  match h : Name.binaryError? s.toList with
  | none => .ok ⟨s, h⟩
  | some e => .error e

/-- The last segment of the name. -/
def simpleName (n : BinaryName) : String :=
  String.ofList ((Name.segments n.text.toList).getLastD [])

/-- The root of all classes. -/
def object : BinaryName := ⟨"java/lang/Object", by decide⟩

/-- The class of texts. -/
def string : BinaryName := ⟨"java/lang/String", by decide⟩

/-- The class of text buffers. -/
def stringBuilder : BinaryName := ⟨"java/lang/StringBuilder", by decide⟩

end BinaryName

instance : ToForm UnqualifiedName := ⟨fun n => .word n.text⟩
instance : ToForm BinaryName := ⟨fun n => .word n.text⟩

end ClassForge
