import JvmArchive.Graph.Entry

/-!
# Editing classes

Changes to what a class and its members declare. Links are not touched; they fit again when the graph
has been resolved.
-/
namespace JvmArchive

/-- Gives a field another name, descriptor and access word. -/
def FieldEntry.redeclare (field : FieldEntry) (name desc : String) (access : Access) : FieldEntry :=
  { field with node := { field.node with name, desc, access } }

/-- Gives a method another name, descriptor and access word. -/
def MethodEntry.redeclare (method : MethodEntry) (name desc : String) (access : Access) :
    MethodEntry :=
  { method with node := { method.node with name, desc, access } }

namespace ClassEntry

def setName (entry : ClassEntry) (name : String) : ClassEntry :=
  { entry with node := { entry.node with name } }

def setSuper (entry : ClassEntry) (superName : Option String) : ClassEntry :=
  { entry with node := { entry.node with superName } }

def setAccess (entry : ClassEntry) (access : Access) : ClassEntry :=
  { entry with node := { entry.node with access } }

/-- Says around which method's class the class stands. -/
def setOuter (entry : ClassEntry) (outer : String) : ClassEntry :=
  { entry with node := { entry.node with outerClass := some outer } }

def setMain (entry : ClassEntry) (isMain : Bool) : ClassEntry := { entry with isMain }

/-- Adds a field behind the others. -/
def addField (entry : ClassEntry) (field : FieldNode) : ClassEntry :=
  { entry with fields := entry.fields ++ [.ofNode field] }

/-- Adds a method behind the others. -/
def addMethod (entry : ClassEntry) (method : MethodNode) : ClassEntry :=
  { entry with methods := entry.methods ++ [.ofNode method] }

def addInnerClass (entry : ClassEntry) (inner : InnerClass) : ClassEntry :=
  { entry with innerClasses := entry.innerClasses ++ [{ node := inner }] }

/-- Changes the field at an index. -/
def modifyField (entry : ClassEntry) (index : Nat) (f : FieldEntry → FieldEntry) : ClassEntry :=
  { entry with fields := entry.fields.modify index f }

/-- Changes the method at an index. -/
def modifyMethod (entry : ClassEntry) (index : Nat) (f : MethodEntry → MethodEntry) : ClassEntry :=
  { entry with methods := entry.methods.modify index f }

end ClassEntry
end JvmArchive
