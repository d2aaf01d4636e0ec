import JvmArchive.Code.Constant
import JvmArchive.Opcode

/-!
# Instructions

Method code over labels. Branch targets, protected ranges, line numbers and variable scopes name labels
that stand in the instruction list; byte offsets exist only in the encoded form.
-/
namespace JvmArchive

/-- A place in the code of one method. -/
structure Label where
  number : UInt32
  deriving Repr, DecidableEq, Inhabited, Hashable, Ord

/-- The type of a local variable or of a stack entry, as stack maps state it. -/
inductive VerificationType
  | top
  | integer
  | float
  | double
  | long
  | null
  | uninitializedThis
  /-- A class by its internal name, or an array by its descriptor. -/
  | object (name : String)
  /-- What the `new` instruction after this label leaves on the stack. -/
  | uninitialized (site : Label)
  deriving Repr, DecidableEq, Inhabited

/-- The local variables and the stack at one place. A long or a double is one entry. -/
structure StackFrame where
  locals : List VerificationType := []
  stack : List VerificationType := []
  deriving Repr, DecidableEq, Inhabited

/-- An instruction, or a label, a line number or a frame, which take no room in the code. -/
inductive Instruction
  | label (label : Label)
  | line (number : UInt16) (start : Label)
  | frame (frame : StackFrame)
  /-- An instruction without operands. -/
  | simple (op : Opcode)
  /-- `bipush`, `sipush` and `newarray`. -/
  | int (op : Opcode) (operand : Int32)
  /-- Loads, stores and `ret`. -/
  | var (op : Opcode) (slot : UInt16)
  /-- `new`, `anewarray`, `checkcast` and `instanceof`. -/
  | type (op : Opcode) (class_ : String)
  | field (op : Opcode) (owner name desc : String)
  | method (op : Opcode) (owner name desc : String) (interface : Bool)
  | invokeDynamic (name desc : String) (bootstrap : Handle) (arguments : List Constant)
  | jump (op : Opcode) (target : Label)
  | ldc (constant : Constant)
  | iinc (slot : UInt16) (increment : Int16)
  | tableSwitch (low high : Int32) (default : Label) (targets : List Label)
  | lookupSwitch (default : Label) (keys : List Int32) (targets : List Label)
  | multiANewArray (desc : String) (dimensions : UInt8)
  deriving Repr, DecidableEq, Inhabited

/-- The number of bytes that bring the operands of a switch at this offset to a multiple of four. -/
def switchPadding (pc : Nat) : Nat := (4 - (pc + 1) % 4) % 4

namespace Instruction

/-- The opcode that an instruction is encoded with, before short and wide forms are chosen. -/
def opcode? : Instruction → Option Opcode
  | label _ | line .. | frame _ => none
  | simple op | int op _ | var op _ | type op _ | field op _ _ _ | method op _ _ _ _
  | jump op _ => some op
  | invokeDynamic .. => some Opcode.invokedynamic
  | ldc constant => some (if constant.isWide then Opcode.ldc2W else Opcode.ldc)
  | iinc .. => some Opcode.iinc
  | tableSwitch .. => some Opcode.tableswitch
  | lookupSwitch .. => some Opcode.lookupswitch
  | multiANewArray .. => some Opcode.multianewarray

/-- Whether the entry takes no room in the code. -/
def isPseudo : Instruction → Bool
  | label _ | line .. | frame _ => true
  | _ => false

/-- The labels that control may go to, the default of a switch first. -/
def targets : Instruction → List Label
  | jump _ target => [target]
  | tableSwitch _ _ default targets | lookupSwitch default _ targets => default :: targets
  | _ => []

end Instruction
end JvmArchive
