import JvmArchive.ClassFile.Encode.Layout
import JvmArchive.Descriptor.Parts
import JvmArchive.ClassFile.Encode.Attribute

/-!
# Writing instructions

The bytes of instructions in their shortest forms, once the layout has fixed where each one stands.
-/
namespace JvmArchive.Encode

/-- The offset of a label. -/
def offsetOf (method : String) (labels : Std.HashMap Label Nat) (label : Label) :
    Except WriteError Nat :=
  match labels[label]? with
  | some offset => .ok offset
  | none => .error (.unknownLabel method label.number)

/-- The distance of a label from an offset, in four bytes. -/
def farTarget (offset : Label → Except WriteError Nat) (pc : Nat) (label : Label) :
    Except WriteError (List UInt8) := do
  let destination ← offset label
  return Bytes.ofUInt32 (Int32.ofInt (destination - pc)).toUInt32

/-- The distance of a label from an offset, in two bytes. -/
def nearTarget (offset : Label → Except WriteError Nat) (pc : Nat) (label : Label) :
    Except WriteError (List UInt8) := do
  let destination ← offset label
  return Bytes.ofUInt16 (Int16.ofInt (destination - pc)).toUInt16

/-- The opcode of a load or a store with its slot in it; the slot is at most three. -/
def shortVariable (op : Opcode) (slot : UInt16) : UInt8 :=
  (if Opcode.iload ≤ op ∧ op ≤ Opcode.aload then Opcode.iload0 + (op - Opcode.iload) * 4
    else Opcode.istore0 + (op - Opcode.istore) * 4) + slot.toUInt8

def variableBytes (op : Opcode) (slot : UInt16) : List UInt8 :=
  if slot ≤ 3 ∧ op ≠ Opcode.ret then [shortVariable op slot]
  else if slot ≤ 255 then [op, slot.toUInt8]
  else Opcode.wide :: op :: Bytes.ofUInt16 slot

def incrementBytes (slot : UInt16) (increment : Int16) : List UInt8 :=
  if slot ≤ 255 ∧ fitsInt8 increment.toInt then
    [Opcode.iinc, slot.toUInt8, increment.toInt8.toUInt8]
  else Opcode.wide :: Opcode.iinc :: (Bytes.ofUInt16 slot ++ Bytes.ofUInt16 increment.toUInt16)

/-- The wide form of a jump. -/
def widened (op : Opcode) : Opcode :=
  if op = Opcode.goto then Opcode.gotoW else if op = Opcode.jsr then Opcode.jsrW else op

/-- The opcode of a switch and the zeros that bring its operands to a multiple of four, behind so many
bytes of code. -/
def switchStart (op : Opcode) (written : Nat) : List UInt8 :=
  op :: List.replicate (switchPadding written) 0

/-- The bytes of an instruction that the layout places at an offset, behind so many bytes of code. -/
def instruction (offset : Label → Except WriteError Nat) (pc written : Nat) (wide : Bool) :
    Instruction → PoolWriter (List UInt8)
  | .label _ | .line .. | .frame _ => return []
  | .simple op => return [op]
  | .int op operand =>
    return op ::
      if op = Opcode.sipush then Bytes.ofUInt16 operand.toUInt32.toUInt16
      else [operand.toUInt32.toUInt8]
  | .var op slot => return variableBytes op slot
  | .type op class_ => return op :: (← classIndex class_)
  | .field op owner name desc =>
    return op :: Bytes.ofUInt16 (← PoolBuilder.fieldRef owner name desc)
  | .method op owner name desc interface => do
    let index ← PoolBuilder.methodRef owner name desc interface
    let arguments :=
      if op = Opcode.invokeinterface then
        [(Descriptor.argumentSlots desc + 1).toUInt8, 0]
      else []
    return op :: (Bytes.ofUInt16 index ++ arguments)
  | .invokeDynamic name desc bootstrap arguments => do
    let index ← PoolBuilder.invokeDynamic name desc bootstrap arguments
    return Opcode.invokedynamic :: (Bytes.ofUInt16 index ++ [0, 0])
  | .jump op target => do
    if wide || isWideOpcode op then return widened op :: (← farTarget offset pc target)
    else return op :: (← nearTarget offset pc target)
  | .ldc constant => do
    let index ← PoolBuilder.constant constant
    if constant.isWide then return Opcode.ldc2W :: Bytes.ofUInt16 index
    else if index > 255 then return Opcode.ldcW :: Bytes.ofUInt16 index
    else return [Opcode.ldc, index.toUInt8]
  | .iinc slot increment => return incrementBytes slot increment
  | .tableSwitch low high default targets => do
    let default ← farTarget offset pc default
    let targets ← monadLift (targets.mapM (farTarget offset pc))
    return switchStart Opcode.tableswitch written ++ default ++ Bytes.ofUInt32 low.toUInt32 ++
      Bytes.ofUInt32 high.toUInt32 ++ targets.flatten
  | .lookupSwitch default keys targets => do
    let default ← farTarget offset pc default
    let rows ← monadLift ((keys.zip targets).mapM fun row => do
      return Bytes.ofUInt32 row.1.toUInt32 ++ (← farTarget offset pc row.2))
    return switchStart Opcode.lookupswitch written ++ default ++ Bytes.ofNat32 keys.length ++
      rows.flatten
  | .multiANewArray desc dimensions => do
    return Opcode.multianewarray :: ((← classIndex desc) ++ [dimensions])

end JvmArchive.Encode
