/-
# Forms: the written shape of a value

Specification, section 10.2: the texts in which errors are shown, and section 10.6:
those of the dump.

A value that is shown to a reader is first turned into a `Form`: a word, a head
applied to arguments, a head with named fields, or a list.  One function,
`Form.render`, lays a form out on one line:

| form | text |
| --- | --- |
| word | the word itself |
| application | `Head(a, b)` |
| record | `Head`, then the fields `name: a, name: b` in braces |
| list | `[a, b]` |

Numbers with a fraction are written with the fewest digits that read back,
positionally from `10 ^ -4` up to `10 ^ 16`.
-/

import ClassForge.Decimal.Shortest
import ClassForge.Text.Quoted

namespace ClassForge

/-- The written shape of a value. -/
inductive Form where
  | word (text : String)
  | apply (head : String) (arguments : List Form)
  | record (head : String) (fields : List Form)
  | field (name : String) (value : Form)
  | list (items : List Form)

namespace Form

mutual

/-- The text of a form, on one line. -/
def render : Form → String
  | .word text => text
  | .apply head arguments => head ++ "(" ++ ", ".intercalate (renderAll arguments) ++ ")"
  | .record head fields =>
    head ++ " \x7b " ++ ", ".intercalate (renderAll fields) ++ " \x7d"
  | .field name value => name ++ ": " ++ value.render
  | .list items => "[" ++ ", ".intercalate (renderAll items) ++ "]"

/-- The texts of several forms. -/
def renderAll : List Form → List String
  | [] => []
  | f :: fs => f.render :: renderAll fs

end

/-- A text, quoted. -/
def quoted (s : String) : Form := .word (Quoted.quote s)

/-- How numbers with a fraction are laid out. -/
def decimalStyle : Decimal.Style where
  leastExponent := -4
  greatestExponent := 15

end Form

/-- Values that have a written shape. -/
class ToForm (α : Type) where
  /-- The written shape of a value. -/
  form : α → Form

export ToForm (form)

/-- The text of a value. -/
def shown {α : Type} [ToForm α] (a : α) : String := (form a).render

instance : ToForm Nat := ⟨fun n => .word (toString n)⟩
instance : ToForm UInt8 := ⟨fun n => form n.toNat⟩
instance : ToForm UInt16 := ⟨fun n => form n.toNat⟩
instance : ToForm Int := ⟨fun n => .word (toString n)⟩
instance : ToForm Int32 := ⟨fun n => form n.toInt⟩
instance : ToForm Int64 := ⟨fun n => form n.toInt⟩
instance : ToForm Bool := ⟨fun b => .word (if b then "true" else "false")⟩
instance : ToForm String := ⟨Form.quoted⟩

instance : ToForm Binary32 :=
  ⟨fun x => .word (Decimal.text Form.decimalStyle Ieee.binary32 x.number)⟩

instance : ToForm Binary64 :=
  ⟨fun x => .word (Decimal.text Form.decimalStyle Ieee.binary64 x.number)⟩

instance {α : Type} [ToForm α] : ToForm (List α) := ⟨fun xs => .list (xs.map form)⟩

instance {α : Type} [ToForm α] : ToForm (Option α) where
  form
    | none => .word "None"
    | some a => .apply "Some" [form a]

end ClassForge
