import JvmArchive.Descriptor.Parts
import JvmArchive.Table

/-!
# Mapping stores

Which names the classes, fields and methods of an archive have and which ones they get instead. A store
can be read in both directions and answers for a class under either of its names. What has been said
first stays, except that a class which only a member has implied makes room for one that is given.
-/
namespace JvmArchive.Mapping

/-- The direction in which names are exchanged: each name for its mapping, or back. -/
inductive Direction
  | applying
  | reversing
  deriving Repr, DecidableEq, Inhabited

namespace Direction

def flipped : Direction → Direction
  | applying => reversing
  | reversing => applying

/-- What is exchanged and what for, given a name and its mapping. -/
def orient {α : Type} (direction : Direction) (name mapping : α) : α × α :=
  match direction with
  | applying => (name, mapping)
  | reversing => (mapping, name)

end Direction

structure ClassMapping where
  name : String
  mapping : String
  deriving Repr, DecidableEq, Inhabited

structure FieldMapping where
  name : String
  mapping : String
  /-- The type of the field; empty if it has not been told. -/
  desc : String
  mappedDesc : String := desc
  deriving Repr, DecidableEq, Inhabited

structure MethodMapping where
  name : String
  mapping : String
  desc : String
  mappedDesc : String := desc
  deriving Repr, DecidableEq, Inhabited

def MethodMapping.returnType (method : MethodMapping) : String := Descriptor.returnType method.desc

def MethodMapping.mappedReturnType (method : MethodMapping) : String :=
  Descriptor.returnType method.mappedDesc

/-- The mappings of one archive. Members stand under the names of their classes. -/
structure Store where
  /-- The mapping of each class. -/
  classes : Table String String := .empty
  /-- The class that was first mapped to each name. -/
  names : Table String String := .empty
  /-- The classes that stand here only because a member names them. -/
  implied : List String := []
  fields : Table String (List FieldMapping) := .empty
  methods : Table String (List MethodMapping) := .empty
  direction : Direction := .applying
  deriving Repr, Inhabited

namespace Store

def empty (direction : Direction) : Store := { direction }

/-- Whether a store holds no mapping of any kind. -/
def isEmpty (store : Store) : Bool :=
  store.classes.isEmpty && store.fields.isEmpty && store.methods.isEmpty

def classCount (store : Store) : Nat := store.classes.length
def fieldCount (store : Store) : Nat := store.fields.values.flatten.length
def methodCount (store : Store) : Nat := store.methods.values.flatten.length

/-! ## Adding mappings -/

/-- Whether a class has a mapping that a later one does not replace. -/
def hasGivenClass (store : Store) (name : String) : Bool :=
  store.classes.contains name && !store.implied.contains name

/-- Takes back that a class is implied. If it still stands under its own name, it leaves that place. -/
def withoutImplied (store : Store) (name : String) : Store :=
  { store with
    implied := store.implied.erase name
    names := if store.names.get? name = some name then store.names.erase name else store.names }

/-- Gives a class a mapping unless it has been given one. -/
def mapClass (store : Store) (name mapping : String) : Store :=
  if store.hasGivenClass name then store
  else
    let store := if store.classes.contains name then store.withoutImplied name else store
    { store with
      names := store.names.insertIfNew mapping name
      classes := store.classes.insert name mapping }

/-- Maps a class to itself unless it is mapped. -/
def ensureClass (store : Store) (name : String) : Store :=
  if store.classes.contains name then store
  else
    let store := store.mapClass name name
    { store with implied := name :: store.implied }

def classFields (store : Store) (name : String) : List FieldMapping :=
  (store.fields.get? name).getD []

def classMethods (store : Store) (name : String) : List MethodMapping :=
  (store.methods.get? name).getD []

/-- Whether a class has a mapping for a field of this name and type. -/
def hasField (store : Store) (className : String) (field : FieldMapping) : Bool :=
  (store.classFields className).any fun other =>
    other.name == field.name && other.desc == field.desc

/-- Adds a field mapping unless there is one for the name and the type. -/
def mapField (store : Store) (className : String) (field : FieldMapping) : Store :=
  if store.hasField className field then store
  else
    { store with fields := store.fields.insert className (store.classFields className ++ [field]) }

/-- Whether a class has a mapping for a method of this name and descriptor. -/
def hasMethod (store : Store) (className : String) (method : MethodMapping) : Bool :=
  (store.classMethods className).any fun other =>
    other.name == method.name && other.desc == method.desc

/-- Adds a method mapping unless there is one for the name and the descriptor. -/
def mapMethod (store : Store) (className : String) (method : MethodMapping) : Store :=
  if store.hasMethod className method then store
  else
    { store with
      methods := store.methods.insert className (store.classMethods className ++ [method]) }

/-! ## Looking mappings up -/

/-- The mapping of the class with a name. -/
def class? (store : Store) (name : String) : Option ClassMapping :=
  (store.classes.get? name).map fun mapping => { name, mapping }

/-- The mapping of the class that was first mapped to a name. -/
def classByMapping? (store : Store) (mapping : String) : Option ClassMapping :=
  (store.names.get? mapping).bind store.class?

/-- The mapping of a class under either of its names, its own name before its mapping. -/
def classFor? (store : Store) (key : String) : Option ClassMapping :=
  (store.class? key).or (store.classByMapping? key)

/-- The mapping of a class, or its own name without one. -/
def mappedName (store : Store) (name : String) : String := (store.classes.get? name).getD name

/-- The name under which the members of a class stand, from either of its names. -/
def memberKey (store : Store) (name : String) : String :=
  if store.classes.contains name then name else (store.names.get? name).getD name

def fieldsOf (store : Store) (className : String) : List FieldMapping :=
  store.classFields (store.memberKey className)

def methodsOf (store : Store) (className : String) : List MethodMapping :=
  store.classMethods (store.memberKey className)

def method? (store : Store) (className name desc : String) : Option MethodMapping :=
  (store.methodsOf className).find? fun method => method.name == name && method.desc == desc

def methodByMapping? (store : Store) (className mapping mappedDesc : String) :
    Option MethodMapping :=
  (store.methodsOf className).find? fun method =>
    method.mapping == mapping && method.mappedDesc == mappedDesc

/-- The mapping of a field. One whose type has not been told fits every type. -/
def field? (store : Store) (className name desc : String) : Option FieldMapping :=
  (store.fieldsOf className).find? fun field =>
    field.name == name && (field.desc.isEmpty || field.desc == desc)

def fieldByMapping? (store : Store) (className mapping mappedDesc : String) :
    Option FieldMapping :=
  (store.fieldsOf className).find? fun field =>
    field.mapping == mapping && (field.mappedDesc.isEmpty || field.mappedDesc == mappedDesc)

/-- A descriptor with every class name exchanged for the mapping of its class. -/
def mapType (store : Store) (desc : String) : String :=
  Descriptor.map (fun name => (store.classFor? name).map (·.mapping)) desc

/-! ## Whole stores -/

/-- Computes the mapped types of all members from their types and the class mappings. -/
def completeDescriptors (store : Store) : Store :=
  { store with
    fields := store.fields.map fun _ fields =>
      fields.map fun field => { field with mappedDesc := store.mapType field.desc }
    methods := store.methods.map fun _ methods =>
      methods.map fun method => { method with mappedDesc := store.mapType method.desc } }

/-- The name of a class on the side from which names are exchanged. -/
def ownerName (store : Store) (className : String) : String :=
  match store.direction with
  | .applying => className
  | .reversing => store.mappedName className

/-- The key of a field in a flat table. -/
def fieldKey (owner name : String) : String := owner ++ "." ++ name

/-- The key of a method in a flat table. -/
def methodKey (owner name desc : String) : String := owner ++ "." ++ name ++ desc

def classRows (store : Store) : List (String × String) :=
  store.classes.entries.map fun (name, mapping) => store.direction.orient name mapping

def fieldRows (store : Store) : List (String × String) :=
  store.fields.entries.flatMap fun (className, fields) =>
    fields.map fun field =>
      let (name, image) := store.direction.orient field.name field.mapping
      (fieldKey (store.ownerName className) name, image)

def methodRows (store : Store) : List (String × String) :=
  store.methods.entries.flatMap fun (className, methods) =>
    methods.map fun method =>
      let (name, image) := store.direction.orient method.name method.mapping
      let (desc, _) := store.direction.orient method.desc method.mappedDesc
      (methodKey (store.ownerName className) name desc, image)

/-- One table for all exchanges in the direction of the store. Of rows with one key the first stays. -/
def flatten (store : Store) : Table String String :=
  Table.firsts (store.classRows ++ store.fieldRows ++ store.methodRows)

/-- Every class mapping of a store exchanged, added to another store. -/
def addInverseClasses (target source : Store) : Store :=
  source.classes.entries.foldl (fun store (name, mapping) => store.mapClass mapping name) target

def addInverseFields (target source : Store) : Store :=
  source.fields.entries.foldl (fun store (className, fields) =>
    fields.foldl (fun store field =>
      store.mapField (source.mappedName className)
        { name := field.mapping, mapping := field.name
          desc := field.mappedDesc, mappedDesc := field.desc }) store) target

def addInverseMethods (target source : Store) : Store :=
  source.methods.entries.foldl (fun store (className, methods) =>
    methods.foldl (fun store method =>
      store.mapMethod (source.mappedName className)
        { name := method.mapping, mapping := method.name
          desc := method.mappedDesc, mappedDesc := method.desc }) store) target

/-- The same mappings with names and mappings exchanged, in the same direction. -/
def inverse (store : Store) : Store :=
  (((empty store.direction).addInverseClasses store).addInverseFields store).addInverseMethods store

/-- Whether two stores hold the same, in whatever order their tables are. -/
def same (a b : Store) : Bool :=
  a.classes.same b.classes && a.names.same b.names && a.implied.length == b.implied.length &&
    a.implied.all b.implied.contains && a.fields.same b.fields && a.methods.same b.methods &&
    a.direction == b.direction

end Store
end JvmArchive.Mapping
