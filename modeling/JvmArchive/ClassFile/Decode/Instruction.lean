import JvmArchive.ClassFile.Cursor
import JvmArchive.ClassFile.Pool.Resolve
import JvmArchive.Code.Instruction
import Std.Data.HashMap

/-!
# Reading instructions

The instructions of a code array, each with its offset. Short forms become long ones, wide forms lose
their prefix, and branch offsets become labels, which are numbered from zero in the order in which the
offsets are first asked for.
-/
namespace JvmArchive.Decode

/-! ## Labels for offsets -/

/-- The labels of the offsets asked for so far. -/
structure LabelTable where
  codeLength : Nat
  labels : Std.HashMap Nat Label := ∅

namespace LabelTable

/-- The label of an offset, if it has been asked for. -/
def label? (table : LabelTable) (offset : Nat) : Option Label := table.labels[offset]?

/-- The label of an offset that lies in the code or right behind it. -/
def ask (table : LabelTable) (offset : Int) : Except FormatError (Label × LabelTable) :=
  if offset < 0 ∨ offset > table.codeLength then
    .error (.malformed "code"
      ("offset " ++ toString offset ++ " outside code of length " ++ toString table.codeLength))
  else
    match table.labels[offset.toNat]? with
    | some label => .ok (label, table)
    | none =>
      let label : Label := ⟨table.labels.size.toUInt32⟩
      .ok (label, { table with labels := table.labels.insert offset.toNat label })

end LabelTable

/-- A reader that turns offsets into labels. -/
abbrev CodeReader := StateT LabelTable Reader

/-- The label of an offset. -/
def labelAt (offset : Int) : CodeReader Label := fun table =>
  monadLift (table.ask offset)

/-- Runs a reader with labels so many times. -/
@[specialize] def timesWithLabels {α : Type} (n : Nat) (reader : CodeReader α) :
    CodeReader (List α) :=
  (List.replicate n ()).mapM fun _ => reader

/-! ## Instructions -/

/-- The label of a place relative to an instruction. -/
def branchFrom (pc : Nat) (delta : Int32) : CodeReader Label := labelAt (pc + delta.toInt)

/-- What follows the opcode of a table switch. -/
def tableSwitch (pc : Nat) : CodeReader Instruction := do
  Reader.skip (switchPadding pc)
  let default ← branchFrom pc (← Reader.int32)
  let low ← Reader.int32
  let high ← Reader.int32
  if high < low then
    throw (.malformed "tableswitch"
      ("high " ++ toString high.toInt ++ " below low " ++ toString low.toInt ++ " at " ++
        toString pc))
  let count := (high.toInt - low.toInt + 1).toNat
  unless (← Reader.remaining) ≥ count * 4 do throw (.unexpectedEnd pc)
  let targets ← timesWithLabels count do branchFrom pc (← Reader.int32)
  return .tableSwitch low high default targets

/-- What follows the opcode of a lookup switch. -/
def lookupSwitch (pc : Nat) : CodeReader Instruction := do
  Reader.skip (switchPadding pc)
  let default ← branchFrom pc (← Reader.int32)
  let pairs ← Reader.int32
  if pairs < 0 then throw (.unexpectedEnd pc)
  unless (← Reader.remaining) ≥ pairs.toInt.toNat * 8 do throw (.unexpectedEnd pc)
  let rows ← timesWithLabels pairs.toInt.toNat do
    let key ← Reader.int32
    let target ← branchFrom pc (← Reader.int32)
    return (key, target)
  return .lookupSwitch default (rows.map (·.1)) (rows.map (·.2))

/-- Whether an opcode is a load, a store or `ret` in its long form. -/
def isVariable (op : Opcode) : Bool :=
  (Opcode.iload ≤ op && op ≤ Opcode.aload) || (Opcode.istore ≤ op && op ≤ Opcode.astore) ||
    op == Opcode.ret

/-- Whether an opcode has no operands and no other way to be written. -/
def isSimple (op : Opcode) : Bool :=
  op ≤ Opcode.dconst1 || (Opcode.iaload ≤ op && op ≤ Opcode.saload) ||
    (Opcode.iastore ≤ op && op ≤ Opcode.lxor) || (Opcode.i2l ≤ op && op ≤ Opcode.dcmpg) ||
    (Opcode.ireturn ≤ op && op ≤ Opcode.returnVoid) || op == Opcode.arraylength ||
    op == Opcode.athrow || op == Opcode.monitorenter || op == Opcode.monitorexit

/-- What follows a wide prefix at an offset. -/
def wide (pc : Nat) : Reader Instruction := do
  let op ← Reader.uint8
  if op == Opcode.iinc then
    let slot ← Reader.uint16
    let increment ← Reader.int16
    return .iinc slot increment
  else if isVariable op then return .var op (← Reader.uint16)
  else throw (.unknownOpcode op (pc + 1))

/-- A dynamic call site, whose last two bytes say nothing. -/
def dynamicCall (pool : ConstantPool) : Reader Instruction := do
  let index ← Reader.uint16
  Reader.skip 2
  let (name, desc, bootstrap, arguments) ← pool.callSite index
  return .invokeDynamic name desc bootstrap arguments

/-- A call of a named method. An interface call has two more bytes, which say nothing. -/
def call (pool : ConstantPool) (op : Opcode) : Reader Instruction := do
  let member ← pool.member (← Reader.uint16)
  if op == Opcode.invokeinterface then Reader.skip 2
  return .method op member.owner member.name member.desc member.interface

/-- The instruction at an offset, of which the opcode has been read. -/
def instruction (pool : ConstantPool) (pc : Nat) (op : Opcode) : CodeReader Instruction := do
  if isSimple op then return .simple op
  else if isVariable op then return .var op (← Reader.uint8).toUInt16
  else if Opcode.iload0 ≤ op && op ≤ Opcode.aload3 then
    let n := op - Opcode.iload0
    return .var (Opcode.iload + n / 4) (n % 4).toUInt16
  else if Opcode.istore0 ≤ op && op ≤ Opcode.astore3 then
    let n := op - Opcode.istore0
    return .var (Opcode.istore + n / 4) (n % 4).toUInt16
  else if op == Opcode.gotoW || op == Opcode.jsrW then
    return .jump op (← branchFrom pc (← Reader.int32))
  else if op.isJump then return .jump op (← branchFrom pc (← Reader.int16).toInt32)
  else if op.isFieldAccess then
    let member ← pool.member (← Reader.uint16)
    return .field op member.owner member.name member.desc
  else if op.isInvoke then call pool op
  else
    match op with
    | Opcode.bipush => return .int op (← Reader.int8).toInt32
    | Opcode.sipush => return .int op (← Reader.int16).toInt32
    | Opcode.newarray => return .int op (Int32.ofNat (← Reader.uint8).toNat)
    | Opcode.ldc => return .ldc (← pool.constant (← Reader.uint8).toUInt16)
    | Opcode.ldcW | Opcode.ldc2W => return .ldc (← pool.constant (← Reader.uint16))
    | Opcode.iinc =>
      let slot ← Reader.uint8
      let increment ← Reader.int8
      return .iinc slot.toUInt16 increment.toInt16
    | Opcode.tableswitch => tableSwitch pc
    | Opcode.lookupswitch => lookupSwitch pc
    | Opcode.invokedynamic => dynamicCall pool
    | Opcode.new | Opcode.anewarray | Opcode.checkcast | Opcode.instanceof =>
      return .type op (← pool.className (← Reader.uint16))
    | Opcode.wide => wide pc
    | Opcode.multianewarray =>
      let desc ← pool.className (← Reader.uint16)
      let dimensions ← Reader.uint8
      return .multiANewArray desc dimensions
    | _ => throw (.unknownOpcode op pc)

/-- Reads instructions to the end of the code. Each takes a byte at least, so their number is bounded
by the length of the code; those read so far come last first. -/
def instructionsWithin (pool : ConstantPool) :
    Nat → List (Nat × Instruction) → CodeReader (List (Nat × Instruction))
  | 0, read => return read.reverse
  | bound + 1, read => do
    if ← Reader.hasAtLeast 1 then
      let pc ← Reader.offset
      let op ← Reader.uint8
      let next ← instruction pool pc op
      instructionsWithin pool bound ((pc, next) :: read)
    else return read.reverse

/-- The instructions of a code array with their offsets, and the labels that their targets need. -/
def instructions (pool : ConstantPool) (code : List UInt8) :
    Except FormatError (List (Nat × Instruction) × LabelTable) :=
  Reader.onBytes ((instructionsWithin pool code.length []).run { codeLength := code.length }) code

end JvmArchive.Decode
