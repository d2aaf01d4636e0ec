import JvmArchive.Graph.Lookup
import JvmArchive.Mapping.Error
import JvmArchive.Mapping.Names
import JvmArchive.Mapping.Store

/-!
# Generated mappings

A new name for everything in a class graph that can be renamed. Outer classes come before their inner
ones, an override takes the name of what it overrides, and an inherited field is mapped under each class
that inherits it.
-/
namespace JvmArchive.Mapping

/-- Methods of the runtime library that classes override or rely on. -/
def reservedMethods : List String := ["valueOf", "values", "ordinal", "toString", "hashCode"]

/-- Whether a method may be renamed: it is not native, not compiler-made, not where the program starts
and not reserved. -/
def isChangeable (reserved : List String) (method : MethodEntry) : Bool :=
  !method.access.isNative && method.name.toList.head? != some '<' &&
    !method.name.toList.contains '$' && !method.isMain && !reserved.contains method.name

/-! ## The order of classes -/

/-- How many classes lie around a class, given the innermost of them; a circle of them is cut off. -/
def depthAround (graph : ClassGraph) : Nat → Option ClassId → Nat
  | _, none => 0
  | 0, some _ => 1
  | room + 1, some outer => depthAround graph room ((graph.at? outer).bind (·.outer)) + 1

def nestingDepth (graph : ClassGraph) (entry : ClassEntry) : Nat :=
  depthAround graph graph.size entry.outer

/-- The classes that are not inner ones, then the inner ones by their depth. -/
def classOrder (graph : ClassGraph) : List (ClassId × ClassEntry) :=
  let (inner, outer) := graph.enumerate.partition fun (_, entry) => entry.isInner
  outer ++ inner.mergeSort fun (_, a) (_, b) =>
    decide (nestingDepth graph a ≤ nestingDepth graph b)

/-! ## Declarations -/

section
variable {σ : Type} (source : NameSource σ)

/-- The mapping of a class: a new name, below the mapped name of its outer class if it has one. -/
def mapClassName (graph : ClassGraph) (entry : ClassEntry) (state : Store × σ) : Store × σ :=
  let (store, names) := state
  if entry.isMain then state
  else
    let (short, names) := source.draw .classes names
    let mapping :=
      match entry.outer.bind graph.nameOf? with
      | some outer => store.mappedName outer ++ "$" ++ short
      | none => short
    (store.mapClass entry.name mapping, names)

/-- A new name for a field. -/
def mapDeclaredField (className : String) (state : Store × σ) (field : FieldEntry) : Store × σ :=
  let (mapping, names) := source.draw .fields state.2
  (state.1.mapField className { name := field.name, mapping, desc := field.desc }, names)

/-- A new name for a method that overrides nothing, if it may be renamed. -/
def mapDeclaredMethod (reserved : List String) (className : String) (state : Store × σ)
    (method : MethodEntry) : Store × σ :=
  if method.base.isSome || !isChangeable reserved method then state
  else
    let (mapping, names) := source.draw .methods state.2
    (state.1.mapMethod className { name := method.name, mapping, desc := method.desc }, names)

/-- New names for a class and what it declares. The fields of an enum keep their names. -/
def mapDeclarations (reserved : List String) (graph : ClassGraph) (state : Store × σ)
    (entry : ClassEntry) : Store × σ :=
  let (store, names) := mapClassName source graph entry state
  let state := (store, source.enterClass names)
  let state :=
    if entry.access.isEnum then state
    else entry.fields.foldl (mapDeclaredField source entry.name) state
  entry.methods.foldl (mapDeclaredMethod source reserved entry.name) state

end

/-! ## Overrides and inherited fields -/

/-- The method at the end of a chain of overrides. -/
def rootDeclaration (graph : ClassGraph) : Nat → ClassId × Nat → ClassId × Nat
  | 0, place => place
  | room + 1, place =>
    match (graph.methodAt? place).bind (·.base) with
    | some base => rootDeclaration graph room base
    | none => place

/-- The mapping of the method at the root of a method's overrides. -/
def rootMapping? (graph : ClassGraph) (store : Store) (method : MethodEntry) : Option String := do
  let root := rootDeclaration graph graph.size (← method.base)
  let owner ← graph.nameOf? root.1
  let declared ← graph.methodAt? root
  let mapping ← store.method? owner declared.name declared.desc
  pure mapping.mapping

/-- The overrides of a class, mapped like what they override. -/
def mapOverrides (graph : ClassGraph) (store : Store) (entry : ClassEntry) : Store :=
  entry.methods.foldl (fun store method =>
    match rootMapping? graph store method with
    | some mapping =>
      store.mapMethod entry.name { name := method.name, mapping, desc := method.desc }
    | none => store) store

/-- The fields that a class inherits, mapped under it like where they are declared. -/
def mapInheritedFields (graph : ClassGraph) (store : Store) (place : ClassId × ClassEntry) :
    Store :=
  (graph.ancestorEntries place.1).foldl (fun store (above, declaring) =>
    match graph.nameOf? above with
    | none => store
    | some owner =>
      declaring.fields.foldl (fun store field =>
        match store.field? owner field.name field.desc with
        | some mapping => store.mapField place.2.name mapping
        | none => store) store) store

/-! ## Generating -/

/-- Adds a mapping for everything in a graph. -/
def addAll {σ : Type} (source : NameSource σ) (reserved : List String) (graph : ClassGraph)
    (state : Store × σ) : Store × σ :=
  let (store, names) :=
    (classOrder graph).foldl (fun state place =>
      mapDeclarations source reserved graph state place.2) state
  let store := graph.toList.foldl (mapOverrides graph) store
  let store := graph.enumerate.foldl (mapInheritedFields graph) store
  (store.completeDescriptors, names)

/-- Generates mappings into a store, which has to be empty, for a graph, which has to be resolved. -/
def generateInto {σ : Type} (source : NameSource σ) (reserved : List String) (graph : ClassGraph)
    (store : Store) (names : σ) : Except GenerateError (Store × σ) :=
  if !graph.resolved then throw .notResolved
  else if !store.isEmpty then throw (.storeNotEmpty store.classCount)
  else pure (addAll source reserved graph (store, names))

/-- Generates mappings to be applied. -/
def generate {σ : Type} (source : NameSource σ) (reserved : List String) (graph : ClassGraph)
    (names : σ) : Except GenerateError (Store × σ) :=
  generateInto source reserved graph (.empty .applying) names

/-! ## Local variables -/

/-- New names for local variables, except for the receiver. -/
def renameVariables {σ : Type} (source : NameSource σ) :
    List LocalVariable → σ → List LocalVariable × σ
  | [], names => ([], names)
  | declared :: rest, names =>
    if declared.name = "this" then
      let (rest, names) := renameVariables source rest names
      (declared :: rest, names)
    else
      let (name, names) := source.draw .locals names
      let (rest, names) := renameVariables source rest names
      ({ declared with name } :: rest, names)

/-- New names for the local variables of methods one after the other. -/
def renameMethodLocals {σ : Type} (source : NameSource σ) :
    List MethodEntry → σ → List MethodEntry × σ
  | [], names => ([], names)
  | method :: rest, names =>
    let (localVariables, names) :=
      renameVariables source method.node.localVariables (source.enterMethod names)
    let (rest, names) := renameMethodLocals source rest names
    ({ method with node := { method.node with localVariables } } :: rest, names)

/-- New names for the local variables of classes one after the other. -/
def renameClassLocals {σ : Type} (source : NameSource σ) :
    List (String × ClassEntry) → σ → List (String × ClassEntry) × σ
  | [], names => ([], names)
  | (key, entry) :: rest, names =>
    let (methods, names) := renameMethodLocals source entry.methods names
    let (rest, names) := renameClassLocals source rest names
    ((key, { entry with methods }) :: rest, names)

theorem map_fst_renameClassLocals {σ : Type} (source : NameSource σ)
    (entries : List (String × ClassEntry)) (names : σ) :
    (renameClassLocals source entries names).1.map (·.1) = entries.map (·.1) := by
  induction entries generalizing names with
  | nil => rfl
  | cons entry rest ih => simp [renameClassLocals, ih]

/-- New names for all local variables of a graph. -/
def renameLocals {σ : Type} (source : NameSource σ) (graph : ClassGraph) (names : σ) :
    ClassGraph × σ :=
  let renamed := renameClassLocals source graph.classes.entries names
  ({ graph with
      classes :=
        { entries := renamed.1
          nodup_keys := by
            rw [map_fst_renameClassLocals]
            exact graph.classes.nodup_keys } },
    renamed.2)

/-- How many local variables of a graph get new names. -/
def renamableLocals (graph : ClassGraph) : Nat :=
  let methods := graph.toList.flatMap (·.methods)
  (methods.flatMap (·.node.localVariables)).countP (·.name ≠ "this")

end JvmArchive.Mapping
