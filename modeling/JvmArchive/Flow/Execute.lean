import JvmArchive.Code.Listing
import JvmArchive.Descriptor.Parts
import JvmArchive.ClassFile.EntryFrame
import JvmArchive.ClassFile.Error
import JvmArchive.Flow.Merge
import Std.Data.HashMap

/-!
# Executing instructions on states

What an instruction makes of the types in local variables and on the stack, and why it cannot run. Along
with the state the execution keeps how deep the stack and how many the local variables have been, and
which class each allocation creates.
-/
namespace JvmArchive.Flow

/-- Why an instruction cannot be executed. -/
inductive ExecutionError
  | stackUnderflow
  | badDescriptor (desc : String)
  | badArrayType (code : Int32)
  | unsetLocal (slot : UInt16)
  | subroutine
  | badVariableOpcode (op : Opcode)
  | badTypeOpcode (op : Opcode)
  | noAllocationSite (site : Label)
  | voidConstant
  | unexpectedOpcode (op : Opcode)
  /-- Not an error that is told: the program stops. -/
  | fault (cause : Fault)
  deriving Repr, DecidableEq, Inhabited

def ExecutionError.message : ExecutionError → String
  | stackUnderflow => "operand stack underflow"
  | badDescriptor desc => "bad descriptor " ++ desc
  | badArrayType code => "bad newarray type " ++ toString code.toInt
  | unsetLocal slot => "load of unset local " ++ toString slot.toNat
  | subroutine => "jsr/ret subroutines are not supported"
  | badVariableOpcode op => "bad local variable opcode " ++ toString op.toNat
  | badTypeOpcode op => "bad type opcode " ++ toString op.toNat
  | noAllocationSite site => "no allocation site " ++ site.text
  | voidConstant => "dynamic constant of type void"
  | unexpectedOpcode op => "unexpected opcode " ++ op.mnemonic
  | fault cause => cause.message

/-- What is known of a method beside the states of its instructions. -/
structure Findings where
  /-- The class that each allocation site creates. -/
  sites : Std.HashMap Label String := ∅
  maxStack : Nat := 0
  maxLocals : Nat := 0
  deriving Inhabited

/-- A state under execution. -/
structure Machine where
  state : State
  findings : Findings

/-- A computation on a machine that may be impossible. -/
abbrev Execution := StateT Machine (Except ExecutionError)

namespace Execution

/-- Counts a stack of this depth. -/
def reachDepth (depth : Nat) : Execution Unit := modify fun m =>
  { m with findings := { m.findings with maxStack := max m.findings.maxStack depth } }

/-- Counts so many local variables. -/
def reachLocals (count : Nat) : Execution Unit := modify fun m =>
  { m with findings := { m.findings with maxLocals := max m.findings.maxLocals count } }

/-- Puts slots on the stack as they are, the first one on top. -/
def pushSlots (slots : List VerificationType) : Execution Unit := do
  modify fun m => { m with state := { m.state with stack := slots ++ m.state.stack } }
  reachDepth (← get).state.stack.length

/-- Puts a value on the stack. -/
def push (type : VerificationType) : Execution Unit :=
  pushSlots (if type.isWide then [.top, type] else [type])

/-- Takes slots off the stack, the top one first. -/
def pop (slots : Nat) : Execution (List VerificationType) := fun m =>
  if m.state.stack.length < slots then .error .stackUnderflow
  else
    .ok (m.state.stack.take slots,
      { m with state := { m.state with stack := m.state.stack.drop slots } })

/-- Takes slots off the stack and forgets them. -/
def drop (slots : Nat) : Execution Unit := do
  let _ ← pop slots

/-- What is in a slot that there has to be. -/
def slotAt (slots : List VerificationType) (index : Nat) : Except Fault VerificationType :=
  match slots[index]? with
  | some type => .ok type
  | none => .error (.index index slots.length)

/-- Puts a type into a slot that there has to be. -/
def setSlot (slots : List VerificationType) (index : Nat) (type : VerificationType) :
    Except Fault (List VerificationType) :=
  if index < slots.length then .ok (slots.set index type)
  else .error (.index index slots.length)

/-- Goes on with a result, unless the program stops. -/
def unlessFault {α : Type} : Except Fault α → Execution α
  | .ok a => return a
  | .error cause => throw (.fault cause)

/-- Takes slots off the stack and keeps the lowest of them. -/
def popLowest (slots : Nat) : Execution VerificationType := do
  unlessFault (slotAt (← pop slots).reverse 0)

/-- Takes one slot off the stack. -/
def popValue : Execution VerificationType := popLowest 1

/-- Takes slots and puts a value in their place. -/
def exchange (slots : Nat) (result : VerificationType) : Execution Unit := do
  drop slots
  push result

/-- Takes slots off the stack and puts a choice of them back, each counted from the lowest one taken
and the lowest one put back first. -/
def rearrange (taken : Nat) (order : List Nat) : Execution Unit := do
  let values := (← pop taken).reverse
  let chosen ← unlessFault (order.mapM (slotAt values))
  pushSlots chosen.reverse

/-- The value that a descriptor names; a void has none. -/
def valueOf (desc : String) : Execution (Option VerificationType) :=
  match FieldType.parse? desc.toList with
  | some (.void, []) => return none
  | some (type, []) => return some (.ofFieldType type)
  | _ => throw (.badDescriptor desc)

/-- Takes the arguments of a call. -/
def popArguments (desc : String) : Execution Unit := drop (Descriptor.argumentSlots desc)

/-- Puts the result of a call on the stack. -/
def pushResult (desc : String) : Execution Unit := do
  match ← valueOf (Descriptor.returnType desc) with
  | some type => push type
  | none => return

/-- Breaks a wide value that begins before a slot. -/
def breakBefore (locals : List VerificationType) (slot : Nat) :
    Except Fault (List VerificationType) := do
  if slot = 0 then return locals
  else if (← slotAt locals (slot - 1)).isWide then setSlot locals (slot - 1) .top
  else return locals

/-- Breaks a wide value that begins in a slot. -/
def breakAt (locals : List VerificationType) (slot : Nat) : Except Fault (List VerificationType) := do
  if (← slotAt locals slot).isWide && slot + 1 < locals.length then setSlot locals (slot + 1) .top
  else return locals

/-- Local variables after a store: a wide value before the slot is broken, and so is the one in it. -/
def storeIn (locals : List VerificationType) (slot : Nat) (type : VerificationType) :
    Except Fault (List VerificationType) := do
  let width := if type.isWide then 2 else 1
  let grown := locals ++ List.replicate (slot + width - locals.length) .top
  let stored ← setSlot (← breakAt (← breakBefore grown slot) slot) slot type
  if type.isWide then setSlot stored (slot + 1) .top else return stored

/-- Stores a value in a local variable. -/
def store (slot : Nat) (type : VerificationType) : Execution Unit := do
  let locals ← unlessFault (storeIn (← get).state.locals slot type)
  modify fun m => { m with state := { m.state with locals } }
  reachLocals (slot + if type.isWide then 2 else 1)

/-- The letter of a primitive array type. -/
def arrayLetter? (code : Int32) : Option String :=
  match code.toInt with
  | 4 => some "Z"
  | 5 => some "C"
  | 6 => some "F"
  | 7 => some "D"
  | 8 => some "B"
  | 9 => some "S"
  | 10 => some "I"
  | 11 => some "J"
  | _ => none

/-- `bipush`, `sipush` and `newarray`. -/
def int (op : Opcode) (operand : Int32) : Execution Unit := do
  if op = Opcode.newarray then
    drop 1
    match arrayLetter? operand with
    | some letter => push (.object ("[" ++ letter))
    | none => throw (.badArrayType operand)
  else push .integer

/-- The value that a load or a store moves between the stack and a local variable. -/
def move (op : Opcode) (slot : UInt16) : Execution Unit := do
  match op with
  | Opcode.iload => push .integer
  | Opcode.lload => push .long
  | Opcode.fload => push .float
  | Opcode.dload => push .double
  | Opcode.aload =>
    match (← get).state.locals[slot.toNat]? with
    | some type => push type
    | none => throw (.unsetLocal slot)
  | Opcode.istore | Opcode.fstore | Opcode.astore => store slot.toNat (← popValue)
  | Opcode.lstore | Opcode.dstore => store slot.toNat (← popLowest 2)
  | Opcode.ret => throw .subroutine
  | _ => throw (.badVariableOpcode op)

/-- The local variables up to the last one of a load or a store: two belong to a long or a double. -/
def slotsUpTo (op : Opcode) (slot : UInt16) : Nat :=
  let isWide :=
    op = Opcode.lload ∨ op = Opcode.dload ∨ op = Opcode.lstore ∨ op = Opcode.dstore
  slot.toNat + if isWide then 2 else 1

/-- Loads and stores. -/
def loadOrStore (op : Opcode) (slot : UInt16) : Execution Unit := do
  move op slot
  reachLocals (slotsUpTo op slot)

/-- The array class whose elements are of a class or an array class. -/
def arrayOf (class_ : String) : String :=
  if isArray class_ then "[" ++ class_ else "[L" ++ class_ ++ ";"

/-- `new`, `anewarray`, `checkcast` and `instanceof`. -/
def type (site : Label) (op : Opcode) (class_ : String) : Execution Unit := do
  match op with
  | Opcode.new =>
    modify fun m =>
      { m with findings := { m.findings with sites := m.findings.sites.insert site class_ } }
    push (.uninitialized site)
  | Opcode.anewarray => exchange 1 (.object (arrayOf class_))
  | Opcode.checkcast => exchange 1 (.object class_)
  | Opcode.instanceof => exchange 1 .integer
  | _ => throw (.badTypeOpcode op)

/-- Reads and writes of fields. -/
def field (op : Opcode) (desc : String) : Execution Unit := do
  let value ← valueOf desc
  let size :=
    match value with
    | some type => if type.isWide then 2 else 1
    | none => 0
  match op with
  | Opcode.getstatic => pure ()
  | Opcode.putstatic => drop size
  | Opcode.getfield => drop 1
  | _ => drop (size + 1)
  if op = Opcode.getstatic ∨ op = Opcode.getfield then
    match value with
    | some type => push type
    | none => return

/-- What a constructor call makes of its receiver. -/
def initialised (owner callee : String) (receiver : VerificationType) :
    Execution VerificationType := do
  match receiver with
  | .uninitializedThis => return .object owner
  | .uninitialized site =>
    match (← get).findings.sites[site]? with
    | some class_ => return .object class_
    | none => throw (.noAllocationSite site)
  | _ => return .object callee

/-- Calls of named methods, in a method of the given class. A constructor call initialises its
receiver wherever it stands. -/
def call (owner : String) (op : Opcode) (callee name desc : String) : Execution Unit := do
  popArguments desc
  if op ≠ Opcode.invokestatic then
    let receiver ← popValue
    if op = Opcode.invokespecial ∧ name = "<init>" then
      let result ← initialised owner callee receiver
      let exchange (type : VerificationType) := if type = receiver then result else type
      modify fun m =>
        { m with
          state :=
            { locals := m.state.locals.map exchange, stack := m.state.stack.map exchange } }
  pushResult desc

/-- Jumps; those into subroutines are not supported. -/
def jump (op : Opcode) : Execution Unit := do
  if (Opcode.ifeq ≤ op ∧ op ≤ Opcode.ifle) ∨ op = Opcode.ifnull ∨ op = Opcode.ifnonnull then drop 1
  else if Opcode.ifIcmpeq ≤ op ∧ op ≤ Opcode.ifAcmpne then drop 2
  else if op = Opcode.goto ∨ op = Opcode.gotoW then return
  else throw .subroutine

/-- The type of a loadable constant. -/
def constantType : Constant → Execution VerificationType
  | .integer _ => return .integer
  | .float _ => return .float
  | .long _ => return .long
  | .double _ => return .double
  | .string _ => return .object "java/lang/String"
  | .class _ => return .object "java/lang/Class"
  | .methodType _ => return .object "java/lang/invoke/MethodType"
  | .methodHandle _ => return .object "java/lang/invoke/MethodHandle"
  | .dynamic _ desc _ _ => do
    match ← valueOf desc with
    | some type => return type
    | none => throw .voidConstant

/-- A name without its first byte. -/
def withoutFirstByte (name : String) : Except Fault String :=
  match name.toList with
  | first :: rest => if first.utf8Size = 1 then .ok (String.ofList rest) else .error (.cut name)
  | [] => .error (.cut name)

/-- The element type of an array, as far as its type tells. Nobody looks whether the name is that of an
array before its first byte is cut off. -/
def elementType : VerificationType → Except Fault VerificationType
  | .object array => do
    let element ← withoutFirstByte array
    if array.startsWith "[[" then return .object element
    else
      match Descriptor.objectName? element with
      | some name => return .object name
      | none => return .object rootClass
  | _ => return .null

/-- What an instruction without operands does to the stack. -/
inductive Effect
  | nothing
  | push (type : VerificationType)
  | drop (slots : Nat)
  | exchange (slots : Nat) (result : VerificationType)
  | rearrange (taken : Nat) (order : List Nat)
  /-- An array and an index make room for the element. -/
  | element
  deriving Repr, DecidableEq

/-- The effects of the instructions without operands. -/
def effect? : Opcode → Option Effect
  | Opcode.nop | Opcode.returnVoid => some .nothing
  | Opcode.aconstNull => some (.push .null)
  | Opcode.iconstM1 | Opcode.iconst0 | Opcode.iconst1 | Opcode.iconst2 | Opcode.iconst3
  | Opcode.iconst4 | Opcode.iconst5 => some (.push .integer)
  | Opcode.lconst0 | Opcode.lconst1 => some (.push .long)
  | Opcode.fconst0 | Opcode.fconst1 | Opcode.fconst2 => some (.push .float)
  | Opcode.dconst0 | Opcode.dconst1 => some (.push .double)
  | Opcode.iaload | Opcode.baload | Opcode.caload | Opcode.saload => some (.exchange 2 .integer)
  | Opcode.laload => some (.exchange 2 .long)
  | Opcode.faload => some (.exchange 2 .float)
  | Opcode.daload => some (.exchange 2 .double)
  | Opcode.aaload => some .element
  | Opcode.iastore | Opcode.fastore | Opcode.aastore | Opcode.bastore | Opcode.castore
  | Opcode.sastore => some (.drop 3)
  | Opcode.lastore | Opcode.dastore => some (.drop 4)
  | Opcode.pop => some (.drop 1)
  | Opcode.pop2 => some (.drop 2)
  | Opcode.dup => some (.rearrange 1 [0, 0])
  | Opcode.dupX1 => some (.rearrange 2 [1, 0, 1])
  | Opcode.dupX2 => some (.rearrange 3 [2, 0, 1, 2])
  | Opcode.dup2 => some (.rearrange 2 [0, 1, 0, 1])
  | Opcode.dup2X1 => some (.rearrange 3 [1, 2, 0, 1, 2])
  | Opcode.dup2X2 => some (.rearrange 4 [2, 3, 0, 1, 2, 3])
  | Opcode.swap => some (.rearrange 2 [1, 0])
  | Opcode.iadd | Opcode.isub | Opcode.imul | Opcode.idiv | Opcode.irem | Opcode.ishl
  | Opcode.ishr | Opcode.iushr | Opcode.iand | Opcode.ior | Opcode.ixor =>
    some (.exchange 2 .integer)
  | Opcode.ladd | Opcode.lsub | Opcode.lmul | Opcode.ldiv | Opcode.lrem | Opcode.land | Opcode.lor
  | Opcode.lxor => some (.exchange 4 .long)
  | Opcode.lshl | Opcode.lshr | Opcode.lushr => some (.exchange 3 .long)
  | Opcode.fadd | Opcode.fsub | Opcode.fmul | Opcode.fdiv | Opcode.frem =>
    some (.exchange 2 .float)
  | Opcode.dadd | Opcode.dsub | Opcode.dmul | Opcode.ddiv | Opcode.drem =>
    some (.exchange 4 .double)
  | Opcode.ineg | Opcode.i2b | Opcode.i2c | Opcode.i2s | Opcode.f2i | Opcode.arraylength =>
    some (.exchange 1 .integer)
  | Opcode.fneg | Opcode.i2f => some (.exchange 1 .float)
  | Opcode.i2l | Opcode.f2l => some (.exchange 1 .long)
  | Opcode.i2d | Opcode.f2d => some (.exchange 1 .double)
  | Opcode.l2i | Opcode.d2i | Opcode.fcmpl | Opcode.fcmpg => some (.exchange 2 .integer)
  | Opcode.l2f | Opcode.d2f => some (.exchange 2 .float)
  | Opcode.lneg | Opcode.d2l => some (.exchange 2 .long)
  | Opcode.dneg | Opcode.l2d => some (.exchange 2 .double)
  | Opcode.lcmp | Opcode.dcmpl | Opcode.dcmpg => some (.exchange 4 .integer)
  | Opcode.ireturn | Opcode.freturn | Opcode.areturn | Opcode.athrow | Opcode.monitorenter
  | Opcode.monitorexit => some (.drop 1)
  | Opcode.lreturn | Opcode.dreturn => some (.drop 2)
  | _ => none

/-- Puts an effect on the stack into force. -/
def perform : Effect → Execution Unit
  | .nothing => return
  | .push type => push type
  | .drop slots => drop slots
  | .exchange slots result => exchange slots result
  | .rearrange taken order => rearrange taken order
  | .element => do push (← unlessFault (elementType (← popLowest 2)))

/-- Instructions without operands. -/
def simple (op : Opcode) : Execution Unit :=
  match effect? op with
  | some effect => perform effect
  | none => throw (.unexpectedOpcode op)

/-- Executes an instruction of a method of the given class. The site names what the instruction
creates, should it be an allocation. -/
def instruction (owner : String) (site : Label) : Instruction → Execution Unit
  | .label _ | .line .. | .frame _ => return
  | .simple op => simple op
  | .int op operand => int op operand
  | .var op slot => loadOrStore op slot
  | .type op class_ => type site op class_
  | .field op _ _ desc => field op desc
  | .method op callee name desc _ => call owner op callee name desc
  | .invokeDynamic _ desc _ _ => do
    popArguments desc
    pushResult desc
  | .jump op _ => jump op
  | .ldc constant => do push (← constantType constant)
  | .iinc slot _ => reachLocals (slot.toNat + 1)
  | .tableSwitch .. | .lookupSwitch .. => drop 1
  | .multiANewArray desc dimensions => exchange dimensions.toNat (.object desc)

end Execution
end JvmArchive.Flow
