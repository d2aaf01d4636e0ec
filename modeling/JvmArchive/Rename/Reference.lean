import JvmArchive.Rename.Renamer

/-!
# Renamed references

Annotations, handles, constants and instructions with every name in them exchanged.
-/
namespace JvmArchive.Renamer

mutual
/-- The value of an annotation element with its names exchanged. -/
def mapValue (renamer : Renamer) : ElementValue → ElementValue
  | .enum desc name =>
    .enum (renamer.mapDescriptor desc)
      (((Descriptor.objectName? desc).bind fun owner => renamer.fieldImage? owner name).getD name)
  | .class desc => .class (renamer.mapDescriptor desc)
  | .nested desc values =>
    .nested (renamer.mapDescriptor desc)
      (AnnotationNode.collect (mapElements renamer (Descriptor.objectName? desc) values))
  | .array values => .array (mapValues renamer values)
  | value => value

def mapValues (renamer : Renamer) : List ElementValue → List ElementValue
  | [] => []
  | value :: values => mapValue renamer value :: mapValues renamer values

/-- The elements of an annotation, given its type. -/
def mapElements (renamer : Renamer) (type : Option String) :
    List (String × ElementValue) → List (String × ElementValue)
  | [] => []
  | (name, value) :: rest =>
    ((type.map fun owner => renamer.mapElement owner name).getD name, mapValue renamer value) ::
      mapElements renamer type rest
end

/-- An annotation with its names exchanged. Elements that come to have one name are joined. -/
def mapAnnotationNode (renamer : Renamer) (node : AnnotationNode) : AnnotationNode where
  desc := renamer.mapDescriptor node.desc
  values :=
    AnnotationNode.collect (renamer.mapElements (Descriptor.objectName? node.desc) node.values)

def mapHandle (renamer : Renamer) (handle : Handle) : Handle where
  kind := handle.kind
  owner := renamer.mapType handle.owner
  name :=
    match HandleKind.fieldOpcode? handle.kind with
    | some opcode => renamer.mapField handle.owner handle.name handle.desc opcode
    | none => renamer.mapMethod handle.owner handle.name handle.desc
  desc := renamer.mapDescriptor handle.desc
  interface := handle.interface

mutual
/-- A constant with its names exchanged. The name of a computed constant is no member's name. -/
def mapConstant (renamer : Renamer) : Constant → Constant
  | .class name => .class (renamer.mapType name)
  | .methodType desc => .methodType (renamer.mapDescriptor desc)
  | .methodHandle handle => .methodHandle (renamer.mapHandle handle)
  | .dynamic name desc bootstrap arguments =>
    .dynamic name (renamer.mapDescriptor desc) (renamer.mapHandle bootstrap)
      (mapConstants renamer arguments)
  | constant => constant

def mapConstants (renamer : Renamer) : List Constant → List Constant
  | [] => []
  | constant :: rest => mapConstant renamer constant :: mapConstants renamer rest
end

/-- The class whose bootstrap methods make lambdas. -/
def lambdaFactory : String := "java/lang/invoke/LambdaMetafactory"

/-- What a call site is called. That of a lambda has the name of the interface method that the lambda
implements; other names mean something to their bootstrap method alone. -/
def mapCallSite (renamer : Renamer) (name desc : String) (bootstrap : Handle)
    (arguments : List Constant) : String :=
  match Descriptor.objectName? (Descriptor.returnType desc), arguments with
  | some interface, .methodType erased :: _ =>
    if bootstrap.owner = lambdaFactory then renamer.mapMethod interface name erased else name
  | _, _ => name

def mapVerificationType (renamer : Renamer) : VerificationType → VerificationType
  | .object name => .object (renamer.mapType name)
  | type => type

/-- An instruction with its names exchanged. -/
def mapInstruction (renamer : Renamer) : Instruction → Instruction
  | .frame frame =>
    .frame
      { locals := frame.locals.map renamer.mapVerificationType
        stack := frame.stack.map renamer.mapVerificationType }
  | .type op name => .type op (renamer.mapType name)
  | .field op owner name desc =>
    .field op (renamer.mapType owner) (renamer.mapField owner name desc op)
      (renamer.mapDescriptor desc)
  | .method op owner name desc interface =>
    .method op (renamer.mapType owner) (renamer.mapMethod owner name desc)
      (renamer.mapDescriptor desc) interface
  | .invokeDynamic name desc bootstrap arguments =>
    .invokeDynamic (renamer.mapCallSite name desc bootstrap arguments)
      (renamer.mapDescriptor desc) (renamer.mapHandle bootstrap)
      (renamer.mapConstants arguments)
  | .ldc constant => .ldc (renamer.mapConstant constant)
  | .multiANewArray desc dimensions =>
    .multiANewArray (renamer.mapDescriptor desc) dimensions
  | instruction => instruction

end JvmArchive.Renamer
