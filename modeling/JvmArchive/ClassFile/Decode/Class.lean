import JvmArchive.ClassFile.Decode.Member

/-!
# Reading classes

The bytes of a class file as a tree. Bytes behind the class are not looked at.
-/
namespace JvmArchive

namespace Decode

/-- The first word of every class file. -/
def magic : UInt32 := 0xCAFEBABE

/-- A class whose attributes are still bytes. -/
structure PendingClass where
  minorVersion : UInt16
  majorVersion : UInt16
  pool : ConstantPool
  access : Access
  name : String
  superName : Option String
  interfaces : List String
  fields : List PendingMember
  methods : List PendingMember
  attributes : List RawAttribute

/-- The structure of a class file. -/
def pendingClass : Reader PendingClass := do
  let found ← Reader.uint32
  if found ≠ magic then throw (.badMagic found)
  let minorVersion ← Reader.uint16
  let majorVersion ← Reader.uint16
  let pool ← ConstantPool.read
  let access ← Reader.uint16
  let name ← pool.className (← Reader.uint16)
  let superName ← pool.className? (← Reader.uint16)
  let interfaces ← classNames pool
  let fields ← Reader.counted (pendingMember pool)
  let methods ← Reader.counted (pendingMember pool)
  let attributes ← rawAttributes pool
  return { minorVersion, majorVersion, pool, access, name, superName, interfaces, fields, methods,
           attributes }

/-- A row of the inner-class table. -/
def innerClass (pool : ConstantPool) : Reader InnerClass := do
  let name ← pool.className (← Reader.uint16)
  let outerName ← pool.className? (← Reader.uint16)
  let innerName ← pool.utf8? (← Reader.uint16)
  let access ← Reader.uint16
  return { name, outerName, innerName, access }

/-- The class and the method that enclose a class; a zero index stands for no method. -/
def enclosingMethod (pool : ConstantPool) : Reader (String × Option (String × String)) := do
  let outer ← pool.className (← Reader.uint16)
  let index ← Reader.uint16
  if index = 0 then return (outer, none)
  else return (outer, some (← pool.nameAndType index))

/-- Adds what one attribute of a class says. -/
def addClassAttribute (pool : ConstantPool) (node : ClassNode) (raw : RawAttribute) :
    Except FormatError ClassNode :=
  match raw.name with
  | "SourceFile" => do
    let index ← Reader.onBytes Reader.uint16 raw.data
    return { node with sourceFile := some (← pool.utf8 index) }
  | "Signature" => do
    let index ← Reader.onBytes Reader.uint16 raw.data
    return { node with signature := some (← pool.utf8 index) }
  | "InnerClasses" => do
    let rows ← Reader.onBytes (Reader.counted (innerClass pool)) raw.data
    return { node with innerClasses := node.innerClasses ++ rows }
  | "EnclosingMethod" => do
    let (outer, method) ← Reader.onBytes (enclosingMethod pool) raw.data
    match method with
    | none => return { node with outerClass := some outer }
    | some (name, desc) =>
      return { node with
        outerClass := some outer, outerMethod := some name, outerMethodDesc := some desc }
  | "NestHost" => do
    let index ← Reader.onBytes Reader.uint16 raw.data
    return { node with nestHost := some (← pool.className index) }
  | "NestMembers" =>
    return { node with nestMembers := ← Reader.onBytes (classNames pool) raw.data }
  | "PermittedSubclasses" =>
    return { node with permittedSubclasses := ← Reader.onBytes (classNames pool) raw.data }
  | "RuntimeVisibleAnnotations" =>
    return { node with visibleAnnotations := ← Reader.onBytes (annotations pool) raw.data }
  | "RuntimeInvisibleAnnotations" =>
    return { node with invisibleAnnotations := ← Reader.onBytes (annotations pool) raw.data }
  | "BootstrapMethods" => return node
  | _ => return { node with attributes := node.attributes ++ [raw] }

/-- The pool with the bootstrap table of the class; of several tables the first counts. -/
def withBootstrap (pool : ConstantPool) (attributes : List RawAttribute) :
    Except FormatError ConstantPool :=
  match attributes.find? (·.name == "BootstrapMethods") with
  | some raw => do
    let table ← Reader.onBytes bootstrapTable raw.data
    return { pool with bootstrap := table.toArray }
  | none => return pool

end Decode

/-- Reads a class file. -/
def ClassNode.ofBytes (bytes : List UInt8) : Except FormatError ClassNode := do
  let pending ← Reader.onBytes Decode.pendingClass bytes
  let pool ← Decode.withBootstrap pending.pool pending.attributes
  let node : ClassNode :=
    { minorVersion := pending.minorVersion, majorVersion := pending.majorVersion,
      access := pending.access, name := pending.name, superName := pending.superName,
      interfaces := pending.interfaces, sourcePool := some pool }
  let node ← pending.attributes.foldlM (Decode.addClassAttribute pool) node
  let fields ← pending.fields.mapM (Decode.field pool)
  let methods ← pending.methods.mapM (Decode.method pool pending.name)
  return { node with fields, methods }

end JvmArchive
