/-
# Stack map tables: compressed and expanded

Specification, section 4.5: the choice of the most compact encoding, and the way back.

`StackMap.compress` turns the frames of a method into entries, each relative to
the frame before it and the first to the frame on entry; `StackMap.expand` plays
the entries back.  An entry spells out the whole frame only if no shorter entry
gives it.

The distance of the first entry is its offset; that of a later one is counted
from the byte after the offset before it.
-/

import ClassForge.ConstantPool
import ClassForge.StackMap

namespace ClassForge
namespace StackMap

/-- The shortest entry that turns the frame `previous` into `f`. -/
def Entry.between (previous f : StoredFrame) (delta : UInt16) : Entry :=
  match f.stack with
  | [] =>
    if f.locals.length ≤ previous.locals.length then
      let fewer := previous.locals.length - f.locals.length
      if fewer ≤ 3 ∧ f.locals.isPrefixOf previous.locals then
        if fewer = 0 then .same delta else .chop delta (UInt8.ofNat fewer)
      else .full delta f.locals f.stack
    else if f.locals.length - previous.locals.length ≤ 3 ∧
        previous.locals.isPrefixOf f.locals then
      .append delta (f.locals.drop previous.locals.length)
    else .full delta f.locals f.stack
  | [t] =>
    if f.locals = previous.locals then .sameOne delta t else .full delta f.locals f.stack
  | _ => .full delta f.locals f.stack

/-- The distance of an entry from the offset of the one before it. -/
def distance (last : Option UInt16) (offset : UInt16) : UInt16 :=
  match last with
  | none => offset
  | some last => offset - last - 1

/-- The entries of frames that follow the frame `previous` at the offset
`last`. -/
def compressFrom (previous : StoredFrame) (last : Option UInt16) :
    List (UInt16 × StoredFrame) → Table
  | [] => []
  | (offset, f) :: frames =>
    Entry.between previous f (distance last offset) :: compressFrom f (some offset) frames

/-- The entries of the frames of a method, given the frame on entry.  The
offsets of the frames increase. -/
def compress (entry : StoredFrame) (frames : List (UInt16 × StoredFrame)) : Table :=
  compressFrom entry none frames

/-- Why a table cannot be played back. -/
inductive ExpandError where
  /-- An offset goes beyond 16 bits. -/
  | offset
  /-- There are not so many locals to leave off. -/
  | chop (count : UInt8)
deriving DecidableEq, Repr

/-- The wording of an expand error. -/
def ExpandError.message : ExpandError → String
  | .offset => "Stack map frame offset overflows"
  | .chop count => s!"Cannot chop {count.toNat} locals"

/-- The offset of an entry, given the offset of the one before it. -/
def Entry.offset (last : Option UInt16) (e : Entry) : Except ExpandError UInt16 :=
  match last with
  | none => .ok e.delta
  | some last =>
    let offset := last.toNat + e.delta.toNat + 1
    if offset < 65536 then .ok (UInt16.ofNat offset) else .error .offset

/-- The frame that an entry makes of the one before it. -/
def Entry.frame (previous : StoredFrame) : Entry → Except ExpandError StoredFrame
  | .same _ => .ok ⟨previous.locals, []⟩
  | .sameOne _ t => .ok ⟨previous.locals, [t]⟩
  | .chop _ count =>
    if count.toNat ≤ previous.locals.length then
      .ok ⟨previous.locals.take (previous.locals.length - count.toNat), []⟩
    else .error (.chop count)
  | .append _ locals => .ok ⟨previous.locals ++ locals, []⟩
  | .full _ locals stack => .ok ⟨locals, stack⟩

/-- The frames of a table that follows the frame `previous` at the offset
`last`, behind those already played back (last first). -/
def expandFrom (done : List (UInt16 × StoredFrame)) (previous : StoredFrame)
    (last : Option UInt16) : Table → Except ExpandError (List (UInt16 × StoredFrame))
  | [] => .ok done.reverse
  | e :: entries =>
    match e.offset last with
    | .error fault => .error fault
    | .ok offset =>
      match e.frame previous with
      | .error fault => .error fault
      | .ok f => expandFrom ((offset, f) :: done) f (some offset) entries

/-- The offsets and frames of a table, given the frame on entry. -/
def expand (entry : StoredFrame) (table : Table) :
    Except ExpandError (List (UInt16 × StoredFrame)) :=
  expandFrom [] entry none table

end StackMap

/-- The stored form of a type; `offsetOf` gives the offset of an instruction. -/
def VerificationType.store (offsetOf : Nat → UInt16) : FrameType → Interning StoredType
  | .top => return .top
  | .integer => return .integer
  | .float => return .float
  | .null => return .null
  | .uninitializedThis => return .uninitializedThis
  | .object type => return .object (← ConstantPool.refType type)
  | .uninitialized origin => return .uninitialized (offsetOf origin)

/-- The stored form of a frame.  Class constants are added for the locals in
order, then for the stack from its bottom up. -/
def Frame.store (offsetOf : Nat → UInt16) (f : Frame) : Interning StoredFrame := do
  let locals ← f.locals.mapM (VerificationType.store offsetOf)
  let stack ← f.stack.reverse.mapM (VerificationType.store offsetOf)
  return ⟨locals, stack⟩

end ClassForge
