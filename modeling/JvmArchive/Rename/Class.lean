import JvmArchive.Graph.Resolve
import JvmArchive.Rename.Reference

/-!
# Renamed classes

A class with every name in it exchanged, and a class graph whose classes are all renamed at once.
-/
namespace JvmArchive
namespace Renamer

/-- The simple name of an inner class: what follows its outer class and a dollar sign, or else its last
part behind a dollar sign. -/
def innerSimpleName (name : String) (outer : Option String) : String :=
  let behindOuter := outer.bind fun outer => Text.dropLeading? (outer.toList ++ ['$']) name.toList
  let behindDollar := (Text.cutLast? '$' name.toList).map (·.2)
  ((behindOuter.or behindDollar).map String.ofList).getD (Descriptor.simpleName name)

/-- A row of an inner-class table. The simple name follows the name if that changes. -/
def mapInnerClass (renamer : Renamer) (inner : InnerClass) : InnerClass :=
  let name := renamer.mapType inner.name
  let outerName := inner.outerName.map renamer.mapType
  { inner with
    name, outerName
    innerName := inner.innerName.map fun simple =>
      if name = inner.name then simple else innerSimpleName name outerName }

def mapAnnotations (renamer : Renamer) (entries : List AnnotationEntry) : List AnnotationEntry :=
  entries.map fun entry => { entry with node := renamer.mapAnnotationNode entry.node }

/-- What the enclosing method of a class is called. -/
def mapOuterMethod (renamer : Renamer) (node : ClassNode) : Option String :=
  match node.outerClass, node.outerMethod, node.outerMethodDesc with
  | some outer, some name, some desc => some (renamer.mapMethod outer name desc)
  | _, _, _ => node.outerMethod

/-- What a class says of itself, without what it declares. Without an enclosing class an enclosing
method is left alone. -/
def mapHeader (renamer : Renamer) (node : ClassNode) : ClassNode :=
  { node with
    name := renamer.mapType node.name
    superName := node.superName.map renamer.mapType
    interfaces := node.interfaces.map renamer.mapType
    signature := node.signature.map renamer.mapSignature
    outerClass := node.outerClass.map renamer.mapType
    outerMethod := renamer.mapOuterMethod node
    outerMethodDesc :=
      if node.outerClass.isSome then node.outerMethodDesc.map renamer.mapDescriptor
      else node.outerMethodDesc
    nestHost := node.nestHost.map renamer.mapType
    nestMembers := node.nestMembers.map renamer.mapType
    permittedSubclasses := node.permittedSubclasses.map renamer.mapType
    invisibleAnnotations := node.invisibleAnnotations.map renamer.mapAnnotationNode }

/-- A field of a class. -/
def mapFieldEntry (renamer : Renamer) (owner : String) (field : FieldEntry) : FieldEntry :=
  { field with
    node :=
      { field.node with
        name := renamer.mapDeclaredField owner field.name
        desc := renamer.mapDescriptor field.desc
        signature := field.node.signature.map renamer.mapSignature
        invisibleAnnotations := field.node.invisibleAnnotations.map renamer.mapAnnotationNode }
    annotations := renamer.mapAnnotations field.annotations }

/-- What a method says of itself, but for its name. -/
def mapMethodNode (renamer : Renamer) (node : MethodNode) : MethodNode :=
  { node with
    desc := renamer.mapDescriptor node.desc
    signature := node.signature.map renamer.mapSignature
    exceptions := node.exceptions.map renamer.mapType
    invisibleAnnotations := node.invisibleAnnotations.map renamer.mapAnnotationNode
    visibleParameterAnnotations :=
      node.visibleParameterAnnotations.map (·.map (·.map renamer.mapAnnotationNode))
    invisibleParameterAnnotations :=
      node.invisibleParameterAnnotations.map (·.map (·.map renamer.mapAnnotationNode))
    annotationDefault := node.annotationDefault.map renamer.mapValue
    tryCatches := node.tryCatches.map fun range =>
      { range with catchType := range.catchType.map renamer.mapType }
    localVariables := node.localVariables.map fun declared =>
      { declared with
        desc := renamer.mapDescriptor declared.desc
        signature := declared.signature.map renamer.mapSignature } }

/-- A method of a class. -/
def mapMethodEntry (renamer : Renamer) (owner : String) (method : MethodEntry) : MethodEntry :=
  { method with
    node :=
      { renamer.mapMethodNode method.node with name := renamer.mapDeclaredMethod owner method }
    annotations := renamer.mapAnnotations method.annotations
    editor := method.editor.edit (·.map renamer.mapInstruction) }

/-- A class with every name in it exchanged. -/
def mapClass (renamer : Renamer) (entry : ClassEntry) : ClassEntry :=
  { entry with
    node := renamer.mapHeader entry.node
    innerClasses := entry.innerClasses.map fun inner =>
      { inner with node := renamer.mapInnerClass inner.node }
    annotations := renamer.mapAnnotations entry.annotations
    fields := entry.fields.map (renamer.mapFieldEntry entry.name)
    methods := entry.methods.map (renamer.mapMethodEntry entry.name) }

end Renamer

namespace ClassGraph

/-- The graph with its links, which are computed if they are stale. -/
def ensureResolved (graph : ClassGraph) : ClassGraph :=
  if graph.resolved then graph else graph.resolve

/-- Exchanges every name in a graph and links it again under the new names. -/
def rename (graph : ClassGraph) (store : Mapping.Store) : ClassGraph :=
  let graph := graph.ensureResolved
  (ofList (graph.toList.map (Renamer.ofStore graph store).mapClass)).resolve

/-- How many classes of a graph get another name from a store. -/
def renamedCount (graph : ClassGraph) (store : Mapping.Store) : Nat :=
  let graph := graph.ensureResolved
  let renamer := Renamer.ofStore graph store
  graph.toList.countP fun entry => renamer.mapType entry.name ≠ entry.name

end ClassGraph
end JvmArchive
