import JvmArchive.ClassFile.Decode.Class
import JvmArchive.ClassFile.Encode.Class
import JvmArchive.Code.CodeEditor
import JvmArchive.Descriptor.Parts

/-!
# Classes in a graph

A class, its members, its inner-class records and its visible annotations, each with the links that tie
it to other classes of one graph. A link is the position of a class in the graph; links are set when
the graph is resolved and say nothing before.
-/
namespace JvmArchive

/-- The position of a class in its graph. -/
structure ClassId where
  index : Nat
  deriving Repr, DecidableEq, Inhabited

def ClassId.text (id : ClassId) : String := "#" ++ toString id.index

/-- A visible annotation and the class of its type. -/
structure AnnotationEntry where
  node : AnnotationNode
  class? : Option ClassId := none
  deriving Repr, DecidableEq, Inhabited

namespace AnnotationEntry

/-- The name of the annotation type. -/
def typeName? (entry : AnnotationEntry) : Option String := Descriptor.objectName? entry.node.desc

/-- The value of an element. -/
def value? (entry : AnnotationEntry) (key : String) : Option ElementValue :=
  entry.node.values.lookup key

/-- The first annotation of a type. -/
def find? (entries : List AnnotationEntry) (type : String) : Option AnnotationEntry :=
  entries.find? fun entry => entry.typeName? == some type

end AnnotationEntry

/-- A row of an inner-class table and the class that it names. -/
structure InnerClassEntry where
  node : InnerClass
  class? : Option ClassId := none
  deriving Repr, DecidableEq, Inhabited

/-- A field. Its visible annotations stand apart from its node. -/
structure FieldEntry where
  node : FieldNode
  annotations : List AnnotationEntry := []
  parent : Option ClassId := none
  deriving Repr, DecidableEq, Inhabited

namespace FieldEntry

def ofNode (node : FieldNode) : FieldEntry where
  node := { node with visibleAnnotations := [] }
  annotations := node.visibleAnnotations.map ({ node := · })

def toNode (field : FieldEntry) : FieldNode :=
  { field.node with visibleAnnotations := field.annotations.map (·.node) }

def name (field : FieldEntry) : String := field.node.name
def desc (field : FieldEntry) : String := field.node.desc
def access (field : FieldEntry) : Access := field.node.access

/-- Whether two fields have the same name, descriptor and access word. -/
def same (a b : FieldEntry) : Bool :=
  a.name == b.name && a.desc == b.desc && a.access == b.access

end FieldEntry

/-- A method. Its visible annotations and its instructions stand apart from its node. -/
structure MethodEntry where
  node : MethodNode
  annotations : List AnnotationEntry := []
  editor : CodeEditor := {}
  parent : Option ClassId := none
  /-- The method of an ancestor that this one overrides: its class and its index there. -/
  base : Option (ClassId × Nat) := none
  deriving Repr, Inhabited

namespace MethodEntry

def ofNode (node : MethodNode) : MethodEntry where
  node := { node with visibleAnnotations := [], instructions := [], upcomingLabel := none }
  annotations := node.visibleAnnotations.map ({ node := · })
  editor :=
    .ofCodeList { CodeList.ofList node.instructions with nextLabel := node.nextLabel }

def toNode (method : MethodEntry) : MethodNode :=
  { method.node with
    visibleAnnotations := method.annotations.map (·.node)
    instructions := method.editor.code.toList
    upcomingLabel := some method.editor.code.nextLabel }

def name (method : MethodEntry) : String := method.node.name
def desc (method : MethodEntry) : String := method.node.desc
def access (method : MethodEntry) : Access := method.node.access

/-- Whether two methods have the same name, descriptor and access word. A method with other flags is
never the same method. -/
def same (a b : MethodEntry) : Bool :=
  a.name == b.name && a.desc == b.desc && a.access == b.access

/-- Whether the method is where a program starts, by its name and descriptor. -/
def isMain (method : MethodEntry) : Bool :=
  method.name == "main" && method.desc == "([Ljava/lang/String;)V"

end MethodEntry

/-- A class. What it declares as lists of entries stands apart from its node. -/
structure ClassEntry where
  node : ClassNode
  fields : List FieldEntry := []
  methods : List MethodEntry := []
  innerClasses : List InnerClassEntry := []
  annotations : List AnnotationEntry := []
  /-- Whether the archive starts with this class. -/
  isMain : Bool := false
  /-- Whether the class has an outer class, or another class declares it as an inner one. -/
  isInner : Bool := false
  superclass : Option ClassId := none
  /-- The interfaces that are in the graph. -/
  interfaces : List ClassId := []
  outer : Option ClassId := none
  /-- Every class above this one, depth first and the superclass before the interfaces. A class that
  is reached on two ways stands here twice. -/
  ancestors : List ClassId := []
  deriving Repr, Inhabited

namespace ClassEntry

def ofNode (node : ClassNode) : ClassEntry where
  node := { node with fields := [], methods := [], innerClasses := [], visibleAnnotations := [] }
  fields := node.fields.map .ofNode
  methods := node.methods.map .ofNode
  innerClasses := node.innerClasses.map ({ node := · })
  annotations := node.visibleAnnotations.map ({ node := · })

/-- The class as a tree, without its links. -/
def toNode (entry : ClassEntry) : ClassNode :=
  { entry.node with
    fields := entry.fields.map FieldEntry.toNode
    methods := entry.methods.map MethodEntry.toNode
    innerClasses := entry.innerClasses.map (·.node)
    visibleAnnotations := entry.annotations.map (·.node) }

/-- Reads a class file. -/
def ofBytes (bytes : List UInt8) : Except FormatError ClassEntry :=
  (ClassNode.ofBytes bytes).map .ofNode

/-- Writes a class file. -/
def toBytes (settings : Encode.Settings) (entry : ClassEntry) : Except WriteError (List UInt8) :=
  entry.toNode.toBytes settings

/-- The class file version of classes that are not read from a file. -/
def defaultVersion : UInt16 := 52

/-- A class without members. Its source file is named for it. -/
def create (majorVersion : UInt16) (access : Access) (name : String) (superName : Option String)
    (interfaces : List String) : ClassEntry :=
  .ofNode
    { majorVersion, access, name, superName, interfaces
      sourceFile := some (Descriptor.simpleName name ++ ".java") }

def name (entry : ClassEntry) : String := entry.node.name
def access (entry : ClassEntry) : Access := entry.node.access

/-- The outer class that the class declares itself: the class around its enclosing method, or else
the outer class in its own inner-class record. -/
def outerName? (entry : ClassEntry) : Option String :=
  match entry.node.outerClass with
  | some outer => some outer
  | none =>
    (entry.innerClasses.find? (·.node.name = entry.name)).bind (·.node.outerName)

/-- The index of the first field with a name and a descriptor. -/
def fieldIndex? (entry : ClassEntry) (name desc : String) : Option Nat :=
  entry.fields.findIdx? fun field => field.name == name && field.desc == desc

/-- The index of the first method with a name and a descriptor. -/
def methodIndex? (entry : ClassEntry) (name desc : String) : Option Nat :=
  entry.methods.findIdx? fun method => method.name == name && method.desc == desc

/-- How code refers to the field at an index. -/
def fieldReference? (entry : ClassEntry) (index : Nat) : Option MemberReference :=
  (entry.fields[index]?).map fun field =>
    { owner := entry.name, name := field.name, desc := field.desc, access := field.access
      interface := entry.access.isInterface }

/-- How code refers to the method at an index. -/
def methodReference? (entry : ClassEntry) (index : Nat) : Option MemberReference :=
  (entry.methods[index]?).map fun method =>
    { owner := entry.name, name := method.name, desc := method.desc, access := method.access
      interface := entry.access.isInterface }

end ClassEntry
end JvmArchive
