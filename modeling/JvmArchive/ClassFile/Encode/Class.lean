import JvmArchive.ClassFile.Encode.Code

/-!
# Writing classes

A class tree as the bytes of a class file. If the tree still has the pool that it was read with, that
pool is kept at the front of the new one, and attributes outside the model are written as they are;
otherwise only those of them are written that hold no pool index.
-/
namespace JvmArchive

namespace Encode

/-- An attribute that holds what an optional text says. -/
def optionalText (name : String) : Option String → PoolWriter (List Attribute)
  | some text => return [← textAttribute name text]
  | none => return []

/-- An attribute of classes, if there are any. -/
def someClasses (name : String) (classes : List String) : PoolWriter (List Attribute) := do
  if classes.isEmpty then return [] else return [← classesAttribute name classes]

/-- The attribute of a constant field. -/
def constantValue : Option Constant → PoolWriter (List Attribute)
  | some value => do
    let index ← PoolBuilder.constant value
    return [← Attribute.named "ConstantValue" (Bytes.ofUInt16 index)]
  | none => return []

/-- The bytes of a field. -/
def field (keepAll : Bool) (field : FieldNode) : PoolWriter (List UInt8) := do
  let name ← textIndex field.name
  let desc ← textIndex field.desc
  let value ← constantValue field.value
  let signature ← optionalText "Signature" field.signature
  let annotations ← annotationAttributes field.visibleAnnotations field.invisibleAnnotations
  let raw ← rawAttributes keepAll field.attributes
  return Bytes.ofUInt16 field.access ++ name ++ desc ++
    attributesBytes (value ++ signature ++ annotations ++ raw)

/-- The code attribute of a method, if it has instructions. -/
def codeAttribute (settings : Settings) (keepAll : Bool) (version : UInt16) (owner : String)
    (method : MethodNode) : PoolWriter (List Attribute) := do
  if method.instructions.isEmpty then return []
  else return [← Attribute.named "Code" (← code settings keepAll version owner method)]

/-- The default value of an annotation element, if it has one. -/
def annotationDefault : Option ElementValue → PoolWriter (List Attribute)
  | some value => return [← Attribute.named "AnnotationDefault" (← elementValue value)]
  | none => return []

def parameter (parameter : ParameterNode) : PoolWriter (List UInt8) := do
  return (← optional textIndex parameter.name) ++ Bytes.ofUInt16 parameter.access

/-- The parameters of a method behind their number in one byte, if they are stated. -/
def parametersAttribute (parameters : List ParameterNode) : PoolWriter (List Attribute) := do
  if parameters.isEmpty then return []
  else
    let rows ← concatM parameter parameters
    return [← Attribute.named "MethodParameters" (parameters.length.toUInt8 :: rows)]

/-- The bytes of a method of a class. -/
def method (settings : Settings) (keepAll : Bool) (version : UInt16) (owner : String)
    (method : MethodNode) : PoolWriter (List UInt8) := do
  let name ← textIndex method.name
  let desc ← textIndex method.desc
  let code ← codeAttribute settings keepAll version owner method
  let exceptions ← someClasses "Exceptions" method.exceptions
  let signature ← optionalText "Signature" method.signature
  let annotations ← annotationAttributes method.visibleAnnotations method.invisibleAnnotations
  let visible ←
    parameterAnnotationsAttribute "RuntimeVisibleParameterAnnotations"
      method.visibleParameterAnnotations
  let invisible ←
    parameterAnnotationsAttribute "RuntimeInvisibleParameterAnnotations"
      method.invisibleParameterAnnotations
  let default ← annotationDefault method.annotationDefault
  let parameters ← parametersAttribute method.parameters
  let raw ← rawAttributes keepAll method.attributes
  return Bytes.ofUInt16 method.access ++ name ++ desc ++
    attributesBytes (code ++ exceptions ++ signature ++ annotations ++ visible ++ invisible ++
      default ++ parameters ++ raw)

/-- A row of the inner-class table. -/
def innerClass (inner : InnerClass) : PoolWriter (List UInt8) := do
  let name ← classIndex inner.name
  let outer ← optional classIndex inner.outerName
  let simple ← optional textIndex inner.innerName
  return name ++ outer ++ simple ++ Bytes.ofUInt16 inner.access

/-- The inner-class table, if it has rows. -/
def innerClasses (rows : List InnerClass) : PoolWriter (List Attribute) := do
  if rows.isEmpty then return []
  else return [← Attribute.named "InnerClasses" (← counted innerClass rows)]

/-- The index of an enclosing method, which needs a name and a descriptor. -/
def enclosingMethodIndex : Option String → Option String → PoolWriter UInt16
  | some name, some desc => PoolBuilder.nameAndType name desc
  | _, _ => return 0

/-- The class and the method around a class, if it has an outer class. -/
def enclosingMethod (node : ClassNode) : PoolWriter (List Attribute) := do
  match node.outerClass with
  | none => return []
  | some outer =>
    let outer ← classIndex outer
    let index ← enclosingMethodIndex node.outerMethod node.outerMethodDesc
    return [← Attribute.named "EnclosingMethod" (outer ++ Bytes.ofUInt16 index)]

/-- The host of the nest that a class belongs to, if there is one. -/
def nestHost : Option String → PoolWriter (List Attribute)
  | some host => return [← Attribute.named "NestHost" (← classIndex host)]
  | none => return []

/-- The attributes of a class but for its bootstrap table. -/
def classAttributes (keepAll : Bool) (node : ClassNode) : PoolWriter (List Attribute) := do
  let source ← optionalText "SourceFile" node.sourceFile
  let signature ← optionalText "Signature" node.signature
  let inner ← innerClasses node.innerClasses
  let enclosing ← enclosingMethod node
  let host ← nestHost node.nestHost
  let members ← someClasses "NestMembers" node.nestMembers
  let permitted ← someClasses "PermittedSubclasses" node.permittedSubclasses
  let annotations ← annotationAttributes node.visibleAnnotations node.invisibleAnnotations
  let raw ← rawAttributes keepAll node.attributes
  return source ++ signature ++ inner ++ enclosing ++ host ++ members ++ permitted ++
    annotations ++ raw

/-- A row of the bootstrap table. -/
def bootstrapRow (entry : BootstrapEntry) : List UInt8 :=
  Bytes.ofUInt16 entry.handle ++ Bytes.ofNat16 entry.arguments.length ++
    entry.arguments.flatMap Bytes.ofUInt16

/-- The bootstrap table as the pool builder has collected it, if it has rows. -/
def bootstrapMethods : PoolWriter (List Attribute) := do
  if (← get).bootstrap.isEmpty then return []
  else
    let name ← PoolBuilder.utf8 "BootstrapMethods"
    let rows := (← get).bootstrap
    return [{ name, data := Bytes.ofNat16 rows.size ++ rows.toList.flatMap bootstrapRow }]

/-- What stands behind the pool in a class file. -/
def classBody (settings : Settings) (node : ClassNode) : PoolWriter (List UInt8) := do
  let keepAll := node.sourcePool.isSome
  let name ← classIndex node.name
  let superName ← optional classIndex node.superName
  let interfaces ← counted classIndex node.interfaces
  let fields ← counted (field keepAll) node.fields
  let methods ← counted (method settings keepAll node.majorVersion node.name) node.methods
  let attributes ← classAttributes keepAll node
  let bootstrap ← bootstrapMethods
  return Bytes.ofUInt16 node.access ++ name ++ superName ++ interfaces ++ fields ++ methods ++
    attributesBytes (attributes ++ bootstrap)

/-- The pool that a class starts to be written with. -/
def initialPool (node : ClassNode) : PoolBuilder :=
  match node.sourcePool with
  | some pool => PoolBuilder.ofPool pool
  | none => {}

end Encode

/-- Writes a class file. -/
def ClassNode.toBytes (settings : Encode.Settings) (node : ClassNode) :
    Except WriteError (List UInt8) := do
  let (body, pool) ← (Encode.classBody settings node).run (Encode.initialPool node)
  return Bytes.ofUInt32 0xCAFEBABE ++ Bytes.ofUInt16 node.minorVersion ++
    Bytes.ofUInt16 node.majorVersion ++ ConstantPool.bytesOfEntries pool.entries ++ body

end JvmArchive
