import JvmArchive.ClassFile.Node
import JvmArchive.ClassFile.Pool.Resolve

/-!
# Reading attributes and annotations

Attributes as names with bytes, and the annotation structures inside them.
-/
namespace JvmArchive.Decode

/-- An attribute: the index of its name, a four-byte length and so many bytes. -/
def rawAttribute (pool : ConstantPool) : Reader RawAttribute := do
  let name ← pool.utf8 (← Reader.uint16)
  let length ← Reader.uint32
  let data ← Reader.take length.toNat
  return { name, data }

def rawAttributes (pool : ConstantPool) : Reader (List RawAttribute) :=
  Reader.counted (rawAttribute pool)

/-- The bootstrap table: for each row a handle and its counted arguments. -/
def bootstrapTable : Reader (List BootstrapEntry) :=
  Reader.counted do
    let handle ← Reader.uint16
    let arguments ← Reader.counted Reader.uint16
    return { handle, arguments }

/-- A counted list of class names. -/
def classNames (pool : ConstantPool) : Reader (List String) :=
  Reader.counted do pool.className (← Reader.uint16)

/-- The integer at an index. -/
def integerAt (pool : ConstantPool) (index : UInt16) : Except FormatError Int32 :=
  match pool.entry? index with
  | some (.integer value) => .ok value
  | _ => .error (.invalidConstant index "Integer")

def longAt (pool : ConstantPool) (index : UInt16) : Except FormatError Int64 :=
  match pool.entry? index with
  | some (.long value) => .ok value
  | _ => .error (.invalidConstant index "Long")

def floatAt (pool : ConstantPool) (index : UInt16) : Except FormatError UInt32 :=
  match pool.entry? index with
  | some (.float bits) => .ok bits
  | _ => .error (.invalidConstant index "Float")

def doubleAt (pool : ConstantPool) (index : UInt16) : Except FormatError UInt64 :=
  match pool.entry? index with
  | some (.double bits) => .ok bits
  | _ => .error (.invalidConstant index "Double")

/-- The elements of an annotation: counted pairs of a key and a value. -/
@[specialize] def elements (pool : ConstantPool) (value : Reader ElementValue) :
    Reader (List (String × ElementValue)) := do
  let pairs ← Reader.counted do
    let key ← pool.utf8 (← Reader.uint16)
    let value ← value
    return (key, value)
  return AnnotationNode.collect pairs

/-- An element value that nests less deep than the bound. -/
def elementValueWithin (pool : ConstantPool) : Nat → Reader ElementValue
  | 0 => do throw (.unexpectedEnd (← Reader.offset))
  | depth + 1 => do
    let tag ← Reader.uint8
    match Char.ofNat tag.toNat with
    | 'B' => return .byte (← integerAt pool (← Reader.uint16)).toInt8
    | 'C' => return .char (← integerAt pool (← Reader.uint16)).toUInt32.toUInt16
    | 'S' => return .short (← integerAt pool (← Reader.uint16)).toInt16
    | 'Z' => return .boolean ((← integerAt pool (← Reader.uint16)) != 0)
    | 'I' => return .int (← integerAt pool (← Reader.uint16))
    | 'J' => return .long (← longAt pool (← Reader.uint16))
    | 'F' => return .float (← floatAt pool (← Reader.uint16))
    | 'D' => return .double (← doubleAt pool (← Reader.uint16))
    | 's' => return .string (← pool.utf8 (← Reader.uint16))
    | 'e' =>
      let desc ← pool.utf8 (← Reader.uint16)
      let name ← pool.utf8 (← Reader.uint16)
      return .enum desc name
    | 'c' => return .class (← pool.utf8 (← Reader.uint16))
    | '@' =>
      let desc ← pool.utf8 (← Reader.uint16)
      let values ← elements pool (elementValueWithin pool depth)
      return .nested desc values
    | '[' => return .array (← Reader.counted (elementValueWithin pool depth))
    | other => throw (.malformed "element value" ("unknown tag " ++ Text.quoteChar other))

/-- An element value. Every level of nesting takes a byte, so the bytes left bound the depth. -/
def elementValue (pool : ConstantPool) : Reader ElementValue := do
  elementValueWithin pool ((← Reader.remaining) + 1)

def annotationNode (pool : ConstantPool) : Reader AnnotationNode := do
  let desc ← pool.utf8 (← Reader.uint16)
  let values ← elements pool (elementValue pool)
  return { desc, values }

def annotations (pool : ConstantPool) : Reader (List AnnotationNode) :=
  Reader.counted (annotationNode pool)

/-- The annotations of each parameter behind a one-byte count. -/
def parameterAnnotations (pool : ConstantPool) : Reader (List (List AnnotationNode)) := do
  let count ← Reader.uint8
  Reader.times count.toNat (annotations pool)

end JvmArchive.Decode
