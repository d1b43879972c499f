/-
# The assembler

Specification, section 4.3 (simulation while code is appended), section 9 (deferred
branch targets) and section 10.6 (frame merging, unreachable emission).

A method body is put together instruction by instruction.  The frame at the
current point is always known: each instruction is run in it as it is pushed.

A branch carries the frame to its label.  When a label is placed, what the
branches to it so far and the code above it agree on is the frame there; a later
branch back to it has to fit that frame.  Behind an unconditional branch or a
return the code is unreachable until a label is placed that is branched to, and
what is pushed there is dropped.

An operation that fails leaves the assembler usable.  An instruction that does
not fit its frame changes nothing; a type that cannot be made more general is
gone from the stack.
-/

import ClassForge.Body
import ClassForge.Frame.Step

namespace ClassForge

/-- What is known about a label. -/
structure LabelState where
  /-- The number of the instruction at which the label stands. -/
  placed : Option Nat := none
  /-- What the edges to the label so far agree on. -/
  frame : Option Frame := none
  /-- Locals from this slot on are out of scope at the label. -/
  limit : Option Nat := none
  /-- Does a branch go to the label? -/
  jumpedTo : Bool := false

/-- A frame without the locals that are out of scope at the label. -/
def LabelState.restrict (s : LabelState) (f : Frame) : Frame :=
  match s.limit with
  | none => f
  | some limit => f.killLocals limit

/-- A method body under construction. -/
structure Assembler where
  /-- The constants of the class. -/
  pool : ConstantPool
  instructions : Array Instruction
  /-- The labels by their numbers. -/
  labels : Array LabelState
  /-- The frames at the instructions where labels stand. -/
  placedFrames : Std.TreeMap Nat Frame
  /-- The frame on entry. -/
  entry : Frame
  /-- The frame at the current point; none if control cannot be there. -/
  current : Option Frame
  maxStack : Nat
  maxLocals : Nat

/-- A computation that adds to a method body. -/
abbrev Assembling := EStateM Fault Assembler

/-- Constants are added in the course of assembling. -/
def Interning.toAssembling {α : Type} (x : Interning α) : Assembling α := fun a =>
  match a with
  | ⟨pool, instructions, labels, placedFrames, entry, current, maxStack, maxLocals⟩ =>
    match x pool with
    | .ok v pool =>
      .ok v ⟨pool, instructions, labels, placedFrames, entry, current, maxStack, maxLocals⟩
    | .error e pool =>
      .error (.poolOverflow e)
        ⟨pool, instructions, labels, placedFrames, entry, current, maxStack, maxLocals⟩

namespace Assembler

/-- The start of a method body. -/
def start (pool : ConstantPool) (entry : Frame) : Assembler where
  pool
  instructions := #[]
  labels := #[]
  placedFrames := ∅
  entry
  current := some entry
  maxStack := 0
  maxLocals := entry.locals.length

/-- Can control be at the current point? -/
def isReachable (a : Assembler) : Bool := a.current.isSome

/-- A new label with the given state. -/
def newLabel (state : LabelState) : Assembling Label := fun a =>
  let label := ⟨a.labels.size⟩
  .ok label { a with labels := a.labels.push state }

/-- A new label. -/
def freshLabel : Assembling Label := newLabel {}

/-- A new label at which only the locals below `limit` are in scope. -/
def freshScopedLabel (limit : Nat) : Assembling Label := newLabel { limit := some limit }

/-- Adds an instruction that is not a branch. -/
def push (i : Instruction) (types : OperandTypes) : Assembling Unit := fun a =>
  match a.current with
  | none => .ok () a
  | some f =>
    let position := a.instructions.size
    if i.opcode.effect.isBranch then
      .error (.badFrame position (.run i) .missingDestination f) a
    else
      match f.step position i types with
      | .error kind => .error (.badFrame position (.run i) kind f) a
      | .ok next =>
        .ok () { a with
          instructions := a.instructions.push i
          current := if i.opcode.effect.isUnconditional then none else some next
          maxStack := max a.maxStack next.stack.length
          maxLocals := max a.maxLocals next.locals.length }

/-- The assembler after a branch that leaves the frame `next` behind it and
arrives at its label with the frame `arriving`. -/
def pushJump (op : Opcode) (target : Label) (next arriving : Frame) (a : Assembler) :
    Assembler :=
  { a with
    instructions := a.instructions.push (.branch op target arriving)
    current := if op.effect = .goto then none else some next
    maxStack := max a.maxStack next.stack.length }

/-- Adds a branch to a label.  The frame behind the branch, which has popped what
it compares, is the one that it carries to the label. -/
def branch (op : Opcode) (target : Label) : Assembling Unit := fun a =>
  match a.current with
  | none => .ok () a
  | some f =>
    let position := a.instructions.size
    let i := Instruction.branch op target .empty
    match f.step position i .none with
    | .error kind => .error (.badFrame position (.run i) kind f) a
    | .ok next =>
      let a := { a with current := some next }
      match a.labels[target.index]? with
      | none => .error (.unplacedLabel target) a
      | some state =>
        let arriving := state.restrict next
        let state := { state with jumpedTo := true }
        match state.placed with
        | some index =>
          let a := { a with labels := a.labels.setIfInBounds target.index state }
          match a.placedFrames[index]? with
          | none => .error (.unreachableLabel target) a
          | some there =>
            if there.accepts arriving then .ok () (a.pushJump op target next arriving)
            else .error (.incompatibleFrames target there arriving) a
        | none =>
          match state.frame with
          | none =>
            let state := { state with frame := some arriving }
            let a := { a with labels := a.labels.setIfInBounds target.index state }
            .ok () (a.pushJump op target next arriving)
          | some expected =>
            match expected.merge arriving with
            | some merged =>
              let state := { state with frame := some merged }
              let a := { a with labels := a.labels.setIfInBounds target.index state }
              .ok () (a.pushJump op target next arriving)
            | none =>
              let a := { a with labels := a.labels.setIfInBounds target.index state }
              .error (.incompatibleFrames target expected arriving) a

/-- The assembler after a label is placed at the current point, with the frame
that holds there. -/
def settle (label : Label) (state : LabelState) (frame : Option Frame) (a : Assembler) :
    Assembler :=
  let position := a.instructions.size
  { a with
    labels := a.labels.setIfInBounds label.index { state with placed := some position, frame }
    placedFrames :=
      match frame with
      | some f => a.placedFrames.insert position f
      | none => a.placedFrames
    current := frame }

/-- Places a label at the current point.  The frame there is what all edges to it
agree on; without any edge the code stays unreachable. -/
def place (label : Label) : Assembling Unit := fun a =>
  match a.labels[label.index]? with
  | none => .error (.unplacedLabel label) a
  | some state =>
    if state.placed.isSome then .error (.duplicateLabel label) a
    else
      match a.current.map state.restrict, state.frame with
      | some above, some jumped =>
        match above.merge jumped with
        | some merged => .ok () (a.settle label state (some merged))
        | none =>
          .error (.incompatibleFrames label jumped above) (a.settle label state none)
      | some above, none => .ok () (a.settle label state (some above))
      | none, frame => .ok () (a.settle label state frame)

/-- Drops the locals from `first` on. -/
def killLocals (first : Nat) : Assembling Unit := fun a =>
  .ok () { a with current := a.current.map (·.killLocals first) }

/-- Makes room for at least `count` locals. -/
def noteLocals (count : Nat) : Assembling Unit := fun a =>
  .ok () { a with maxLocals := max a.maxLocals count }

/-- Makes the type on top of the stack more general.  If that is refused, the type
is taken off the stack. -/
def generalize (general : FrameType) : Assembling Unit := fun a =>
  match a.current with
  | none => .ok () a
  | some f =>
    match f.generalizeTop general with
    | .ok next => .ok () { a with current := some next }
    | .error kind =>
      .error (.badFrame a.instructions.size .generalize kind f)
        { a with current := some { f with stack := f.stack.tail } }

/-- The positions of labels, and the frames at those that are branched to. -/
structure Placement where
  positions : Std.TreeMap Nat Nat := ∅
  frames : Std.TreeMap Nat Frame := ∅

/-- A placement with one more label. -/
def Placement.add (a : Assembler) (label : Label) (state : LabelState) (p : Placement) :
    Except Fault Placement :=
  match state.placed with
  | some index =>
    let positions := p.positions.insert label.index index
    if state.jumpedTo then
      if a.instructions.size ≤ index then .error (.labelAtEnd label)
      else
        match a.placedFrames[index]? with
        | none => .error (.unreachableLabel label)
        | some f => .ok ⟨positions, p.frames.insert index f⟩
    else .ok ⟨positions, p.frames⟩
  | none => if state.jumpedTo then .error (.unplacedLabel label) else .ok p

/-- A placement with the labels from `number` on. -/
def Placement.addFrom (a : Assembler) (number : Nat) (p : Placement) :
    List LabelState → Except Fault Placement
  | [] => .ok p
  | state :: states =>
    match p.add a ⟨number⟩ state with
    | .ok p => p.addFrom a (number + 1) states
    | .error e => .error e

/-- The finished method body.  Control does not run off its end, and every label
that is branched to is placed. -/
def finish (a : Assembler) : Except Fault Body :=
  if a.current.isSome then .error .notFinished
  else
    match Placement.addFrom a 0 {} a.labels.toList with
    | .error e => .error e
    | .ok p =>
      .ok { maxStack := a.maxStack, maxLocals := a.maxLocals, instructions := a.instructions,
            entry := a.entry, frames := p.frames, labels := p.positions }

end Assembler
end ClassForge
