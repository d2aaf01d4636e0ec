import JvmArchive.ClassFile.Pool.Builder
import JvmArchive.Code.Instruction

/-!
# Code layout

Where each instruction of a method comes to stand. A `goto` or `jsr` starts in its short form and is
made wide where its target turns out too far; since that moves what follows, the layout is repeated
until no jump has to grow.
-/
namespace JvmArchive.Encode

/-- Where the instructions of a method stand. -/
structure Layout where
  /-- The offset of each entry of the list. -/
  offsets : List Nat
  /-- The offset of each label; of several places the last counts. -/
  labels : Std.HashMap Label Nat
  /-- The length of the code. -/
  size : Nat
  /-- Which entries are jumps in wide form. -/
  wide : List Bool

/-- The longest code of a method. -/
def maxCodeSize : Nat := 65535

/-- Whether a number fits a signed byte. -/
def fitsInt8 (n : Int) : Bool := -128 ≤ n && n ≤ 127

/-- Whether a number fits two bytes with a sign. -/
def fitsInt16 (n : Int) : Bool := -32768 ≤ n && n ≤ 32767

/-- Whether a jump has a four-byte offset whatever its distance. -/
def isWideOpcode (op : Opcode) : Bool := op == Opcode.gotoW || op == Opcode.jsrW

/-- Whether a jump can be made wide. -/
def canWiden (op : Opcode) : Bool := op == Opcode.goto || op == Opcode.jsr

/-- The number of bytes of an instruction at an offset. For a constant the pool is asked. -/
def instructionSize (pc : Nat) (wide : Bool) : Instruction → PoolWriter Nat
  | .label _ | .line .. | .frame _ => return 0
  | .simple _ => return 1
  | .int op _ => return if op = Opcode.sipush then 3 else 2
  | .var op slot =>
    return if slot ≤ 3 ∧ op ≠ Opcode.ret then 1 else if slot ≤ 255 then 2 else 4
  | .type .. | .field .. => return 3
  | .method op .. => return if op = Opcode.invokeinterface then 5 else 3
  | .invokeDynamic .. => return 5
  | .jump op _ => return if wide || isWideOpcode op then 5 else 3
  | .ldc constant => do
    if constant.isWide then return 3
    else return if (← PoolBuilder.constant constant) > 255 then 3 else 2
  | .iinc slot increment => return if slot ≤ 255 ∧ fitsInt8 increment.toInt then 3 else 6
  | .tableSwitch _ _ _ targets => return 1 + switchPadding pc + 12 + 4 * targets.length
  | .lookupSwitch _ keys _ => return 1 + switchPadding pc + 8 + 8 * keys.length
  | .multiANewArray .. => return 4

/-- The offsets of instructions from a first offset on, the labels met so far, and the offset behind
them. The offsets found so far come last first. -/
def place : List (Instruction × Bool) → Nat → List Nat → Std.HashMap Label Nat →
    PoolWriter (List Nat × Std.HashMap Label Nat × Nat)
  | [], pc, offsets, labels => return (offsets.reverse, labels, pc)
  | (instruction, wide) :: rest, pc, offsets, labels => do
    let size ← instructionSize pc wide instruction
    let labels :=
      match instruction with
      | .label label => labels.insert label pc
      | _ => labels
    place rest (pc + size) (pc :: offsets) labels

/-- Whether an entry has to be a wide jump from now on. -/
def mustWiden (method : String) (labels : Std.HashMap Label Nat) :
    (Instruction × Bool) × Nat → Except WriteError Bool
  | ((.jump op target, wide), pc) =>
    if wide || isWideOpcode op then .ok wide
    else
      match labels[target]? with
      | none => .error (.unknownLabel method target.number)
      | some destination =>
        let delta : Int := destination - pc
        if fitsInt16 delta then .ok false
        else if canWiden op then .ok true
        else .error (.branchOutOfRange method delta)
  | ((_, wide), _) => .ok wide

/-- The layout of a method in which at least the given jumps are wide. -/
def layoutFrom (method : String) (instructions : List Instruction) (wide : List Bool) :
    PoolWriter Layout := do
  let entries := instructions.zip wide
  let (offsets, labels, size) ← place entries 0 [] ∅
  if maxCodeSize < size then throw (.codeTooLarge method size)
  let wider ← monadLift ((entries.zip offsets).mapM (mustWiden method labels))
  if _h : wider.count false < wide.count false then layoutFrom method instructions wider
  else return { offsets, labels, size, wide }
termination_by wide.count false

/-- The layout of a method. -/
def layout (method : String) (instructions : List Instruction) : PoolWriter Layout :=
  layoutFrom method instructions (instructions.map fun _ => false)

end JvmArchive.Encode
