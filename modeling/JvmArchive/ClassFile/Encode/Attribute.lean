import JvmArchive.ClassFile.Node
import JvmArchive.ClassFile.Pool.Builder

/-!
# Writing attributes and annotations

Attributes as the index of a name with bytes, and the annotation structures inside them. Counts and
lengths are written modulo the width of their field.
-/
namespace JvmArchive.Encode

/-- An attribute in written form: the index of its name and its bytes. -/
structure Attribute where
  name : UInt16
  data : List UInt8
  deriving Repr, Inhabited

/-- An attribute whose name goes to the pool after whatever its bytes refer to. -/
def Attribute.named (name : String) (data : List UInt8) : PoolWriter Attribute := do
  return { name := ← PoolBuilder.utf8 name, data }

def Attribute.bytes (written : Attribute) : List UInt8 :=
  Bytes.ofUInt16 written.name ++ (Bytes.ofNat32 written.data.length ++ written.data)

/-- Attributes behind their number. -/
def attributesBytes (attributes : List Attribute) : List UInt8 :=
  Bytes.ofNat16 attributes.length ++ attributes.flatMap Attribute.bytes

/-- The bytes of items, one after the other. -/
@[specialize] def concatM {α : Type} (write : α → PoolWriter (List UInt8)) (items : List α) :
    PoolWriter (List UInt8) :=
  return (← items.mapM write).flatten

/-- The bytes of items behind their number in two bytes. -/
@[specialize] def counted {α : Type} (write : α → PoolWriter (List UInt8)) (items : List α) :
    PoolWriter (List UInt8) := do
  return Bytes.ofNat16 items.length ++ (← concatM write items)

def classIndex (name : String) : PoolWriter (List UInt8) :=
  return Bytes.ofUInt16 (← PoolBuilder.class_ name)

def textIndex (text : String) : PoolWriter (List UInt8) :=
  return Bytes.ofUInt16 (← PoolBuilder.utf8 text)

/-- The index of something optional, zero if it is missing. -/
def optional {α : Type} (write : α → PoolWriter (List UInt8)) : Option α → PoolWriter (List UInt8)
  | some item => write item
  | none => return Bytes.ofUInt16 0

/-- An attribute that holds the index of a text. -/
def textAttribute (name text : String) : PoolWriter Attribute := do
  Attribute.named name (← textIndex text)

/-- An attribute that holds a counted list of classes. -/
def classesAttribute (name : String) (classes : List String) : PoolWriter Attribute := do
  Attribute.named name (← counted classIndex classes)

/-- The attributes outside the model that may be written: all of them, or those without indices. -/
def rawAttributes (keepAll : Bool) (attributes : List RawAttribute) :
    PoolWriter (List Attribute) :=
  (attributes.filter fun raw => keepAll || raw.isPoolIndependent).mapM fun raw =>
    Attribute.named raw.name raw.data

/-- A tag with the index of a pool entry. -/
def taggedIndex (tag : Char) (entry : PoolEntry) : PoolWriter (List UInt8) := do
  return tag.toNat.toUInt8 :: Bytes.ofUInt16 (← PoolBuilder.add entry)

def taggedInteger (tag : Char) (value : Int) : PoolWriter (List UInt8) :=
  taggedIndex tag (.integer (Int32.ofInt value))

mutual
/-- The bytes of an element value. -/
def elementValue : ElementValue → PoolWriter (List UInt8)
  | .byte value => taggedInteger 'B' value.toInt
  | .char value => taggedInteger 'C' value.toNat
  | .short value => taggedInteger 'S' value.toInt
  | .boolean value => taggedInteger 'Z' (if value then 1 else 0)
  | .int value => taggedInteger 'I' value.toInt
  | .long value => taggedIndex 'J' (.long value)
  | .float bits => taggedIndex 'F' (.float bits)
  | .double bits => taggedIndex 'D' (.double bits)
  | .string text => taggedIndex 's' (.utf8 text)
  | .class desc => taggedIndex 'c' (.utf8 desc)
  | .enum desc name => do
    let desc ← textIndex desc
    let name ← textIndex name
    return 'e'.toNat.toUInt8 :: (desc ++ name)
  | .nested desc values => do
    let desc ← textIndex desc
    let elements ← elements values
    return '@'.toNat.toUInt8 :: (desc ++ (Bytes.ofNat16 values.length ++ elements))
  | .array values => do
    let elements ← elementValues values
    return '['.toNat.toUInt8 :: (Bytes.ofNat16 values.length ++ elements)

def elementValues : List ElementValue → PoolWriter (List UInt8)
  | [] => return []
  | value :: values => do
    let first ← elementValue value
    let rest ← elementValues values
    return first ++ rest

/-- The bytes of the elements of an annotation: each key before its value. -/
def elements : List (String × ElementValue) → PoolWriter (List UInt8)
  | [] => return []
  | (key, value) :: values => do
    let key ← textIndex key
    let first ← elementValue value
    let rest ← elements values
    return key ++ (first ++ rest)
end

def annotationNode (node : AnnotationNode) : PoolWriter (List UInt8) := do
  let desc ← textIndex node.desc
  let elements ← elements node.values
  return desc ++ (Bytes.ofNat16 node.values.length ++ elements)

/-- An attribute of annotations, if there are any. -/
def annotationsAttribute (name : String) (annotations : List AnnotationNode) :
    PoolWriter (List Attribute) := do
  if annotations.isEmpty then return []
  else return [← Attribute.named name (← counted annotationNode annotations)]

/-- The attributes of visible and of invisible annotations. -/
def annotationAttributes (visible invisible : List AnnotationNode) : PoolWriter (List Attribute) := do
  let visible ← annotationsAttribute "RuntimeVisibleAnnotations" visible
  let invisible ← annotationsAttribute "RuntimeInvisibleAnnotations" invisible
  return visible ++ invisible

/-- An attribute with the annotations of each parameter, if they are stated. -/
def parameterAnnotationsAttribute (name : String) :
    Option (List (List AnnotationNode)) → PoolWriter (List Attribute)
  | none => return []
  | some lists => do
    let bytes ← concatM (counted annotationNode) lists
    return [← Attribute.named name (lists.length.toUInt8 :: bytes)]

end JvmArchive.Encode
