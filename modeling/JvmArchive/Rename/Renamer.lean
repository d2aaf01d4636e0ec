import JvmArchive.Graph.Lookup
import JvmArchive.Mapping.Store
import JvmArchive.Signature.Mapping

/-!
# Renamers

What every name becomes under a flat table of mappings. Code names the class through which it reaches a
member, often one below the class that declares it, so a member that the table does not know under that
class is searched in the class graph and looked up under the class that declares it. A name without a
mapping is kept.
-/
namespace JvmArchive

/-- A table of mappings together with the class graph whose names it exchanges. -/
structure Renamer where
  graph : ClassGraph
  table : Table String String
  deriving Repr, Inhabited

namespace Renamer

/-- The renamer of a store in its direction. -/
def ofStore (graph : ClassGraph) (store : Mapping.Store) : Renamer :=
  { graph, table := store.flatten }

/-- The mapping of a field under a class. -/
def fieldImage? (renamer : Renamer) (owner name : String) : Option String :=
  renamer.table.get? (Mapping.Store.fieldKey owner name)

/-- The mapping of a method under a class. -/
def methodImage? (renamer : Renamer) (owner name desc : String) : Option String :=
  renamer.table.get? (Mapping.Store.methodKey owner name desc)

def mapDescriptor (renamer : Renamer) (desc : String) : String :=
  Descriptor.map renamer.table.get? desc

def mapSignature (renamer : Renamer) (signature : String) : String :=
  Signature.map renamer.table.get? signature

/-- What a class is called, or an array type as instructions and constants name it. -/
def mapType (renamer : Renamer) (name : String) : String :=
  if name.toList.head? = some '[' then renamer.mapDescriptor name
  else (renamer.table.get? name).getD name

/-- The class that declares the field which an instruction reaches through a class. -/
def declaringField? (renamer : Renamer) (owner name desc : String) (opcode : Opcode) :
    Option String := do
  let id ← renamer.graph.idOf? owner
  let (declaring, _) ← renamer.graph.findField id opcode name desc
  renamer.graph.nameOf? declaring

/-- What a field is called where an instruction reaches it through a class. -/
def mapField (renamer : Renamer) (owner name desc : String) (opcode : Opcode) : String :=
  match renamer.fieldImage? owner name with
  | some mapping => mapping
  | none =>
    ((renamer.declaringField? owner name desc opcode).bind fun declaring =>
      renamer.fieldImage? declaring name).getD name

/-- The class that declares the method which a call reaches through a class. -/
def declaringMethod? (renamer : Renamer) (owner name desc : String) : Option String := do
  let id ← renamer.graph.idOf? owner
  let (declaring, _) ← renamer.graph.findMethod id name desc
  renamer.graph.nameOf? declaring

/-- What a method is called where a call reaches it through a class. -/
def mapMethod (renamer : Renamer) (owner name desc : String) : String :=
  match renamer.methodImage? owner name desc with
  | some mapping => mapping
  | none =>
    ((renamer.declaringMethod? owner name desc).bind fun declaring =>
      renamer.methodImage? declaring name desc).getD name

/-- The mapping of the method that a method overrides. -/
def baseImage? (renamer : Renamer) (method : MethodEntry) : Option String := do
  let place ← method.base
  let declaring ← renamer.graph.nameOf? place.1
  let base ← renamer.graph.methodAt? place
  renamer.methodImage? declaring base.name base.desc

/-- What a method is called where it is declared. An override without a mapping takes that of what it
overrides. -/
def mapDeclaredMethod (renamer : Renamer) (owner : String) (method : MethodEntry) : String :=
  match renamer.methodImage? owner method.name method.desc with
  | some mapping => mapping
  | none => (renamer.baseImage? method).getD method.name

/-- What a field is called where it is declared. -/
def mapDeclaredField (renamer : Renamer) (owner name : String) : String :=
  (renamer.fieldImage? owner name).getD name

/-- What an element of an annotation type is called: the mapping of the method without arguments that
declares it. -/
def mapElement (renamer : Renamer) (type name : String) : String :=
  ((do
    let entry ← renamer.graph.get? type
    let element ← entry.methods.find? fun method =>
      method.name == name && method.desc.startsWith "()"
    renamer.methodImage? type name element.desc) : Option String).getD name

end Renamer
end JvmArchive
