import ClassForge.Assembler
import ClassForge.Assembler.Emit
import ClassForge.Attribute
import ClassForge.Body
import ClassForge.Bytes
import ClassForge.Bytes.Reader
import ClassForge.ClassFile
import ClassForge.ClassFile.Query
import ClassForge.Command
import ClassForge.CompileError
import ClassForge.Compiler
import ClassForge.Constant
import ClassForge.ConstantPool
import ClassForge.Decimal.Shortest
import ClassForge.Descriptor
import ClassForge.Descriptor.Parser
import ClassForge.Disassembly
import ClassForge.Dump
import ClassForge.Fault
import ClassForge.Flags
import ClassForge.Frame
import ClassForge.Frame.Step
import ClassForge.Ieee
import ClassForge.Instruction
import ClassForge.LocalSlots
import ClassForge.Lowering
import ClassForge.Lowering.Expression
import ClassForge.Lowering.Fragment
import ClassForge.Lowering.Statement
import ClassForge.Main
import ClassForge.Malformed
import ClassForge.Member
import ClassForge.Name
import ClassForge.Opcode
import ClassForge.Opcode.Lemmas
import ClassForge.Program
import ClassForge.Proofs.ClassStorage
import ClassForge.Proofs.Compression
import ClassForge.Proofs.Control
import ClassForge.Proofs.Descriptors
import ClassForge.Proofs.Emission
import ClassForge.Proofs.Evaluation
import ClassForge.Proofs.ExpressionRun
import ClassForge.Proofs.ExpressionSafety
import ClassForge.Proofs.FragmentSafety
import ClassForge.Proofs.FrameOrder
import ClassForge.Proofs.FrameSizes
import ClassForge.Proofs.FrameSoundness
import ClassForge.Proofs.FrameWeight
import ClassForge.Proofs.Growth
import ClassForge.Proofs.InstructionSafety
import ClassForge.Proofs.Integrity
import ClassForge.Proofs.Layout
import ClassForge.Proofs.Links
import ClassForge.Proofs.Machine
import ClassForge.Proofs.MethodRun
import ClassForge.Proofs.MethodSafety
import ClassForge.Proofs.ModifiedUtf8
import ClassForge.Proofs.Offsets
import ClassForge.Proofs.Operation
import ClassForge.Proofs.Reading
import ClassForge.Proofs.Recovery
import ClassForge.Proofs.RoundTrip
import ClassForge.Proofs.Safety
import ClassForge.Proofs.Scope
import ClassForge.Proofs.StackMaps
import ClassForge.Proofs.StatementRun
import ClassForge.Proofs.StatementSafety
import ClassForge.Proofs.Storage
import ClassForge.Proofs.Truncation
import ClassForge.Proofs.Typing
import ClassForge.Sample
import ClassForge.Settings
import ClassForge.StackMap
import ClassForge.StackMap.Table
import ClassForge.Text.Form
import ClassForge.Text.ModifiedUtf8
import ClassForge.Text.Quoted
import ClassForge.Proofs.Flow
import ClassForge.Proofs.Revival
import ClassForge.Proofs.Labels
import ClassForge.Proofs.Requests
import ClassForge.Proofs.Room
import ClassForge.Proofs.Origins
import ClassForge.Proofs.Discipline
import ClassForge.Proofs.Balance
import ClassForge.Proofs.Outline
import ClassForge.Proofs.SlotAgreement
import ClassForge.Proofs.Depth
import ClassForge.Proofs.Comparison
import ClassForge.Proofs.Conditions
import ClassForge.Proofs.Decoding
import ClassForge.Proofs.Codecs
import ClassForge.Proofs.Meets
import ClassForge.Proofs.Cells
import ClassForge.Proofs.Assignments
import ClassForge.Proofs.Extent
import ClassForge.Proofs.Allocation
import ClassForge.Proofs.DeadCode
import ClassForge.Proofs.Refusal
import ClassForge.Proofs.Counts
import ClassForge.Proofs.Portability
import ClassForge.Proofs.Presence
import ClassForge.Proofs.Kinds
import ClassForge.Proofs.Trimming
import ClassForge.Proofs.Encoders
import ClassForge.Proofs.Lookup
import ClassForge.Proofs.Concatenation
