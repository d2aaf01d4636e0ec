import JvmArchive.ClassFile.Decode.Attribute
import JvmArchive.ClassFile.Decode.Instruction
import JvmArchive.ClassFile.Decode.StackMap
import JvmArchive.ClassFile.EntryFrame
import Std.Data.HashSet

/-!
# Reading code

The code attribute of a method: instructions, handlers, and the tables that name places in the code.
Line numbers and local variables whose places are not between instructions are dropped; any other such
place makes the code malformed.
-/
namespace JvmArchive.Decode

/-- A row of a local variable table, still in offsets. -/
structure LocalRow where
  start : UInt16
  length : UInt16
  name : String
  desc : String
  index : UInt16

/-- What the attributes of the code say, by offset. -/
structure CodeTables where
  /-- The lines that start at an offset, the last one first. -/
  lines : Std.HashMap Nat (List UInt16) := ∅
  frames : Std.HashMap Nat StackFrame := ∅
  /-- The signatures of local variables, by start, length and slot. -/
  signatures : Std.HashMap (UInt16 × UInt16 × UInt16) String := ∅
  /-- The local variables, the last one first. -/
  locals : List LocalRow := []
  /-- The attributes outside the model, the last one first. -/
  attributes : List RawAttribute := []

/-- A computation that turns offsets into labels, outside a reader. -/
abbrev Labelling := StateT LabelTable (Except FormatError)

/-- Runs a reader with labels on a byte sequence. -/
def onBytes {α : Type} (reader : CodeReader α) (bytes : List UInt8) : Labelling α := fun table =>
  Reader.onBytes (reader.run table) bytes

/-- A handler: the start and the end of its range, its own start and the class that it takes. -/
def tryCatch (pool : ConstantPool) : CodeReader TryCatch := do
  let start ← labelAt (← Reader.uint16).toNat
  let stop ← labelAt (← Reader.uint16).toNat
  let handler ← labelAt (← Reader.uint16).toNat
  let catchType ← pool.className? (← Reader.uint16)
  return { start, stop, handler, catchType }

/-- A line number; one that stands at no instruction is dropped. -/
def lineNumber (isInstruction : Nat → Bool) : CodeReader (Option (Nat × UInt16)) := do
  let start ← Reader.uint16
  let line ← Reader.uint16
  if isInstruction start.toNat then
    let _ ← labelAt start.toNat
    return some (start.toNat, line)
  else return none

/-- A row of a local variable table. -/
def localRow (pool : ConstantPool) : Reader LocalRow := do
  let start ← Reader.uint16
  let length ← Reader.uint16
  let name ← pool.utf8 (← Reader.uint16)
  let desc ← pool.utf8 (← Reader.uint16)
  let index ← Reader.uint16
  return { start, length, name, desc, index }

/-- A row of the table of local variable signatures; the name in it is not used. -/
def localSignature (pool : ConstantPool) : Reader ((UInt16 × UInt16 × UInt16) × String) := do
  let start ← Reader.uint16
  let length ← Reader.uint16
  let _ ← Reader.uint16
  let signature ← pool.utf8 (← Reader.uint16)
  let index ← Reader.uint16
  return ((start, length, index), signature)

/-- A counted list read with labels. -/
@[specialize] def countedWithLabels {α : Type} (reader : CodeReader α) : CodeReader (List α) := do
  let count ← Reader.uint16
  timesWithLabels count.toNat reader

/-- Adds what one attribute of the code says. A later stack map replaces an earlier one. -/
def addCodeAttribute (pool : ConstantPool) (isInstruction : Nat → Bool)
    (entryLocals : List VerificationType) (tables : CodeTables) (raw : RawAttribute) :
    Labelling CodeTables := do
  match raw.name with
  | "LineNumberTable" =>
    let rows ← onBytes (countedWithLabels (lineNumber isInstruction)) raw.data
    return { tables with
      lines := rows.foldl (fun lines row =>
        match row with
        | some (start, line) => lines.insert start (line :: lines.getD start [])
        | none => lines) tables.lines }
  | "LocalVariableTable" =>
    let rows ← Reader.onBytes (Reader.counted (localRow pool)) raw.data
    return { tables with locals := rows.reverse ++ tables.locals }
  | "LocalVariableTypeTable" =>
    let rows ← Reader.onBytes (Reader.counted (localSignature pool)) raw.data
    return { tables with
      signatures := rows.foldl (fun found row => found.insert row.1 row.2) tables.signatures }
  | "StackMapTable" =>
    let frames ← onBytes (stackMap pool entryLocals) raw.data
    return { tables with frames := Std.HashMap.ofList frames }
  | _ => return { tables with attributes := raw :: tables.attributes }

/-- The local variables whose range lies between instructions. A signature is used once. -/
def localVariables (isBoundary : Nat → Bool) :
    List LocalRow → Std.HashMap (UInt16 × UInt16 × UInt16) String → List LocalVariable →
      Labelling (List LocalVariable)
  | [], _, found => return found.reverse
  | row :: rows, signatures, found => do
    let stop := row.start.toNat + row.length.toNat
    if isBoundary row.start.toNat && isBoundary stop then
      let key := (row.start, row.length, row.index)
      let start ← (fun table => table.ask row.start.toNat : Labelling Label)
      let stop ← (fun table => table.ask stop : Labelling Label)
      let declared : LocalVariable :=
        { name := row.name, desc := row.desc, signature := signatures[key]?, start, stop,
          index := row.index }
      localVariables isBoundary rows (signatures.erase key) (declared :: found)
    else localVariables isBoundary rows signatures found

/-- What stands before the instruction at an offset: its label, its lines and its frame. -/
def placedAt (labels : LabelTable) (tables : CodeTables) (offset : Nat) : List Instruction :=
  let frame := (tables.frames[offset]?).toList.map .frame
  match labels.label? offset with
  | none => frame
  | some place =>
    .label place ::
      ((tables.lines.getD offset []).reverse.map fun line => .line line place) ++ frame

/-- The instruction list of a method, with labels, lines and frames in their places. -/
def placeAll (labels : LabelTable) (tables : CodeTables) (decoded : List (Nat × Instruction)) :
    List Instruction :=
  (decoded.flatMap fun (offset, instruction) =>
      placedAt labels tables offset ++ [instruction]) ++
    ((labels.label? labels.codeLength).toList.map .label)

/-- How many labels stand in a list. -/
def countLabels (instructions : List Instruction) : Nat :=
  instructions.countP fun
    | .label _ => true
    | _ => false

/-- Reads the code attribute of a method into the tree. -/
def code (pool : ConstantPool) (owner : String) (method : MethodNode) (data : List UInt8) :
    Except FormatError MethodNode :=
  Reader.onBytes (α := MethodNode) (do
    let maxStack ← Reader.uint16
    let maxLocals ← Reader.uint16
    let length ← Reader.uint32
    let bytes ← Reader.take length.toNat
    let (decoded, labels) ← instructions pool bytes
    let starts := Std.HashSet.ofList (decoded.map (·.1))
    let isInstruction (offset : Nat) : Bool := starts.contains offset
    let isBoundary (offset : Nat) : Bool := offset == bytes.length || starts.contains offset
    let (tryCatches, labels) ← (countedWithLabels (tryCatch pool)).run labels
    let attributes ← rawAttributes pool
    let (tables, labels) ←
      (attributes.foldlM (addCodeAttribute pool isInstruction (method.entryLocals owner)) {}).run
        labels
    let (localVariables, labels) ←
      (localVariables isBoundary tables.locals.reverse tables.signatures []).run labels
    let instructions := placeAll labels tables decoded
    if countLabels instructions ≠ labels.labels.size then
      throw (.malformed "code" (owner ++ "." ++ method.name ++
        ": a branch, handler or frame offset is not on an instruction boundary"))
    return { method with
      instructions, tryCatches, localVariables, maxStack, maxLocals,
      codeAttributes := tables.attributes.reverse }) data

end JvmArchive.Decode
