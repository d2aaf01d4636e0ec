import JvmArchive.ClassFile.Decode.Code

/-!
# Reading fields and methods

Members are read in two steps: first all of them with their attributes as bytes, then, once the whole
class is known, what the attributes say.
-/
namespace JvmArchive.Decode

/-- A field or a method whose attributes are still bytes. -/
structure PendingMember where
  access : Access
  name : String
  desc : String
  attributes : List RawAttribute

def pendingMember (pool : ConstantPool) : Reader PendingMember := do
  let access ← Reader.uint16
  let name ← pool.utf8 (← Reader.uint16)
  let desc ← pool.utf8 (← Reader.uint16)
  let attributes ← rawAttributes pool
  return { access, name, desc, attributes }

/-- Adds what one attribute of a field says. -/
def addFieldAttribute (pool : ConstantPool) (field : FieldNode) (raw : RawAttribute) :
    Except FormatError FieldNode :=
  match raw.name with
  | "ConstantValue" => do
    let index ← Reader.onBytes Reader.uint16 raw.data
    return { field with value := some (← pool.constant index) }
  | "Signature" => do
    let index ← Reader.onBytes Reader.uint16 raw.data
    return { field with signature := some (← pool.utf8 index) }
  | "RuntimeVisibleAnnotations" =>
    return { field with visibleAnnotations := ← Reader.onBytes (annotations pool) raw.data }
  | "RuntimeInvisibleAnnotations" =>
    return { field with invisibleAnnotations := ← Reader.onBytes (annotations pool) raw.data }
  | _ => return { field with attributes := field.attributes ++ [raw] }

def field (pool : ConstantPool) (pending : PendingMember) : Except FormatError FieldNode :=
  pending.attributes.foldlM (addFieldAttribute pool)
    { access := pending.access, name := pending.name, desc := pending.desc }

/-- A parameter, which may lack a name. -/
def parameter (pool : ConstantPool) : Reader ParameterNode := do
  let name ← pool.utf8? (← Reader.uint16)
  let access ← Reader.uint16
  return { name, access }

/-- The parameters of a method behind a one-byte count. -/
def parameters (pool : ConstantPool) : Reader (List ParameterNode) := do
  let count ← Reader.uint8
  Reader.times count.toNat (parameter pool)

/-- Adds what one attribute of a method says. The code waits until all others are read. -/
def addMethodAttribute (pool : ConstantPool) (method : MethodNode) (raw : RawAttribute) :
    Except FormatError MethodNode :=
  match raw.name with
  | "Code" => return method
  | "Exceptions" => return { method with exceptions := ← Reader.onBytes (classNames pool) raw.data }
  | "Signature" => do
    let index ← Reader.onBytes Reader.uint16 raw.data
    return { method with signature := some (← pool.utf8 index) }
  | "RuntimeVisibleAnnotations" =>
    return { method with visibleAnnotations := ← Reader.onBytes (annotations pool) raw.data }
  | "RuntimeInvisibleAnnotations" =>
    return { method with invisibleAnnotations := ← Reader.onBytes (annotations pool) raw.data }
  | "RuntimeVisibleParameterAnnotations" => do
    let lists ← Reader.onBytes (parameterAnnotations pool) raw.data
    return { method with visibleParameterAnnotations := some lists }
  | "RuntimeInvisibleParameterAnnotations" => do
    let lists ← Reader.onBytes (parameterAnnotations pool) raw.data
    return { method with invisibleParameterAnnotations := some lists }
  | "AnnotationDefault" => do
    let value ← Reader.onBytes (elementValue pool) raw.data
    return { method with annotationDefault := some value }
  | "MethodParameters" => do
    let more ← Reader.onBytes (parameters pool) raw.data
    return { method with parameters := method.parameters ++ more }
  | _ => return { method with attributes := method.attributes ++ [raw] }

/-- A method of the given class. Of several code attributes the last one counts. -/
def method (pool : ConstantPool) (owner : String) (pending : PendingMember) :
    Except FormatError MethodNode := do
  let method ← pending.attributes.foldlM (addMethodAttribute pool)
    { access := pending.access, name := pending.name, desc := pending.desc }
  match (pending.attributes.filter (·.name == "Code")).getLast? with
  | some raw => code pool owner method raw.data
  | none => return method

end JvmArchive.Decode
