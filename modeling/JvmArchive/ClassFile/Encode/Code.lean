import JvmArchive.ClassFile.Encode.Frames
import JvmArchive.ClassFile.Encode.StackMap

/-!
# Writing code

The code attribute of a method: its code, its handlers and the tables that name places in it.
-/
namespace JvmArchive.Encode

/-- How classes are written. -/
structure Settings where
  frames : FrameMode := .preserve
  common : Flow.CommonSuper := Flow.rootOnly

/-- The code of a method, and what its pseudo-instructions say by offset. -/
structure CodeParts where
  /-- The bytes of the instructions, the last ones first. -/
  chunks : List (List UInt8) := []
  size : Nat := 0
  /-- Line numbers, the last one first. -/
  lines : List (Nat × UInt16) := []
  /-- Frames, the last one first; of several at one offset only the last is kept. -/
  frames : List (Nat × StackFrame) := []

/-- Puts a frame to those found so far. -/
def addFrame (offset : Nat) (frame : StackFrame) :
    List (Nat × StackFrame) → List (Nat × StackFrame)
  | (last, old) :: rest =>
    if last = offset then (offset, frame) :: rest else (offset, frame) :: (last, old) :: rest
  | [] => [(offset, frame)]

/-- Writes instructions that have their place in the layout. -/
def codeParts (offset : Label → Except WriteError Nat) :
    List (Instruction × Nat × Bool) → CodeParts → PoolWriter CodeParts
  | [], parts => return parts
  | (next, pc, wide) :: rest, parts => do
    match next with
    | .line number start =>
      let place ← offset start
      codeParts offset rest { parts with lines := (place, number) :: parts.lines }
    | .frame frame =>
      codeParts offset rest { parts with frames := addFrame pc frame parts.frames }
    | _ =>
      let bytes ← instruction offset pc parts.size wide next
      codeParts offset rest
        { parts with chunks := bytes :: parts.chunks, size := parts.size + bytes.length }

/-- A row of the handler table; a handler of an empty range has none. -/
def handlerRow (offset : Label → Except WriteError Nat) (block : TryCatch) :
    PoolWriter (Option (List UInt8)) := do
  let start ← offset block.start
  let stop ← offset block.stop
  if stop ≤ start then return none
  else
    let handler ← offset block.handler
    let catchType ← optional classIndex block.catchType
    return some (Bytes.ofNat16 start ++ Bytes.ofNat16 stop ++ Bytes.ofNat16 handler ++ catchType)

/-- The handlers of a method behind their number. -/
def handlers (offset : Label → Except WriteError Nat) (blocks : List TryCatch) :
    PoolWriter (List UInt8) := do
  let rows := (← blocks.mapM (handlerRow offset)).filterMap id
  return Bytes.ofNat16 rows.length ++ rows.flatten

/-- The line numbers of a method, if there are any. -/
def lineNumbers (lines : List (Nat × UInt16)) : PoolWriter (List Attribute) := do
  if lines.isEmpty then return []
  else
    let rows := lines.flatMap fun (start, line) => Bytes.ofNat16 start ++ Bytes.ofUInt16 line
    return [← Attribute.named "LineNumberTable" (Bytes.ofNat16 lines.length ++ rows)]

/-- The rows of a local variable in the table of types and in the table of signatures. -/
def localRows (offset : Label → Except WriteError Nat) (declared : LocalVariable) :
    PoolWriter (List UInt8 × Option (List UInt8)) := do
  let start ← offset declared.start
  let stop ← offset declared.stop
  let range := Bytes.ofNat16 start ++ Bytes.ofNat16 (stop - start)
  let name ← textIndex declared.name
  let desc ← textIndex declared.desc
  let index := Bytes.ofUInt16 declared.index
  let row := range ++ name ++ desc ++ index
  match declared.signature with
  | none => return (row, none)
  | some signature =>
    let name ← textIndex declared.name
    let signature ← textIndex signature
    return (row, some (range ++ name ++ signature ++ index))

/-- The local variables of a method, and those of them that have signatures. -/
def localVariables (offset : Label → Except WriteError Nat) (declared : List LocalVariable) :
    PoolWriter (List Attribute) := do
  if declared.isEmpty then return []
  else
    let rows ← declared.mapM (localRows offset)
    let types := rows.map (·.1)
    let signatures := rows.filterMap (·.2)
    let table ←
      Attribute.named "LocalVariableTable" (Bytes.ofNat16 types.length ++ types.flatten)
    -- The number of signatures wraps, and a table whose number is zero is left out.
    if signatures.length.toUInt16 = 0 then return [table]
    else
      return [table,
        ← Attribute.named "LocalVariableTypeTable"
          (Bytes.ofNat16 signatures.length ++ signatures.flatten)]

/-- The stack map of a method, if it has frames and its class a version that knows them. -/
def stackMaps (offset : Label → Except WriteError Nat) (version : UInt16)
    (entryLocals : List VerificationType) (frames : List (Nat × StackFrame)) :
    PoolWriter (List Attribute) := do
  if frames.isEmpty || version < stackMapVersion then return []
  else return [← Attribute.named "StackMapTable" (← stackMap offset entryLocals frames)]

/-- The bytes of the code attribute of a method. -/
def code (settings : Settings) (keepAll : Bool) (version : UInt16) (owner : String)
    (method : MethodNode) : PoolWriter (List UInt8) := do
  let prepared ← prepare settings.frames version owner method settings.common
  let name := methodText owner method
  let layout ← layout name prepared.instructions
  let offset := offsetOf name layout.labels
  let parts ←
    codeParts offset (prepared.instructions.zip (layout.offsets.zip layout.wide)) {}
  let handlers ← handlers offset method.tryCatches
  let lines ← lineNumbers parts.lines.reverse
  let locals ← localVariables offset method.localVariables
  let frames ← stackMaps offset version (method.entryLocals owner) parts.frames.reverse
  let raw ← rawAttributes keepAll method.codeAttributes
  return Bytes.ofUInt16 prepared.maxStack ++ Bytes.ofUInt16 prepared.maxLocals ++
    Bytes.ofNat32 parts.size ++ parts.chunks.reverse.flatten ++ handlers ++
    attributesBytes (lines ++ locals ++ frames ++ raw)

end JvmArchive.Encode
