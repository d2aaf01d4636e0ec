import JvmArchive.Graph.Basic

/-!
# Resolving class graphs

The links of a class graph: every name is looked up among the names that the classes have by now, and
from the links between classes follow the ancestors of each class and the methods that are overridden.
The result depends on what the classes declare, not on links from before.
-/
namespace JvmArchive

/-- The last index at which a predicate holds. -/
def lastIndexWhere? {α : Type} (p : α → Bool) (items : List α) : Option Nat :=
  (items.reverse.findIdx? p).map fun index => items.length - 1 - index

namespace ClassGraph

/-- The class with a name; of several classes that have been given one name, the last. -/
def lookUp (entries : List ClassEntry) (name : String) : Option ClassId :=
  (lastIndexWhere? (·.name == name) entries).map .mk

/-- An annotation linked to the class of its type. -/
def linkAnnotations (lookUp : String → Option ClassId) (entries : List AnnotationEntry) :
    List AnnotationEntry :=
  entries.map fun entry => { entry with class? := entry.typeName?.bind lookUp }

/-- A class with its names looked up. -/
def linkClass (lookUp : String → Option ClassId) (id : ClassId) (entry : ClassEntry) :
    ClassEntry :=
  { entry with
    superclass := entry.node.superName.bind lookUp
    interfaces := entry.node.interfaces.filterMap lookUp
    innerClasses := entry.innerClasses.map fun inner =>
      { inner with class? := lookUp inner.node.name }
    outer := entry.outerName?.bind lookUp
    annotations := linkAnnotations lookUp entry.annotations
    fields := entry.fields.map fun field =>
      { field with parent := some id, annotations := linkAnnotations lookUp field.annotations }
    methods := entry.methods.map fun method =>
      { method with
        parent := some id, base := none
        annotations := linkAnnotations lookUp method.annotations } }

/-- The classes that a class declares as inner classes of a class in the graph. -/
def declaredInner (lookUp : String → Option ClassId) (entry : ClassEntry) : List ClassId :=
  entry.innerClasses.filterMap fun inner =>
    if (inner.node.outerName.bind lookUp).isSome then inner.class? else none

/-- The classes right above a class: its superclass, then its interfaces. -/
def parents (entry : ClassEntry) : List ClassId := entry.superclass.toList ++ entry.interfaces

/-- The classes right above the class at a position. -/
def parentsAt (entries : List ClassEntry) (id : ClassId) : List ClassId :=
  match entries[id.index]? with
  | some entry => parents entry
  | none => []

/-- The ancestors of the class at a position, which is on the path with those below it: depth first,
and without entering a class that is on the path. -/
def ancestorsFrom (entries : List ClassEntry) (path : List ClassId) (id : ClassId) :
    List ClassId :=
  (parentsAt entries id).flatMap fun parent =>
    if path.contains parent then []
    else if parent.index < entries.length then
      parent :: ancestorsFrom entries (parent :: path) parent
    else [parent]
termination_by unvisited entries.length path
decreasing_by exact unvisited_cons_lt (by assumption) (by simp_all)

/-- The ancestors of the class at a position. -/
def ancestorsOf (entries : List ClassEntry) (id : ClassId) : List ClassId :=
  ancestorsFrom entries [id] id

/-- The first method among the given ancestors that is the same as a method. -/
def baseOf (entries : List ClassEntry) (ancestors : List ClassId) (method : MethodEntry) :
    Option (ClassId × Nat) :=
  ancestors.findSome? fun id =>
    (entries[id.index]?).bind fun entry =>
      (entry.methods.findIdx? (·.same method)).map fun index => (id, index)

/-- The classes with everything above them. -/
def buildHierarchy (entries : List ClassEntry) : List ClassEntry :=
  entries.zipIdx.map fun (entry, index) =>
    let ancestors := ancestorsOf entries ⟨index⟩
    { entry with
      ancestors
      methods := entry.methods.map fun method =>
        { method with base := baseOf entries ancestors method } }

/-- The classes with all their links. -/
def linkAll (entries : List ClassEntry) : List ClassEntry :=
  let find := lookUp entries
  let linked := entries.zipIdx.map fun (entry, index) => linkClass find ⟨index⟩ entry
  let inner := linked.flatMap (declaredInner find)
  let marked := linked.zipIdx.map fun (entry, index) =>
    { entry with isInner := entry.outer.isSome || inner.contains ⟨index⟩ }
  buildHierarchy marked

theorem map_fst_zip_sublist {α β : Type} (keys : List α) (values : List β) :
    ((keys.zip values).map (·.1)).Sublist keys := by
  induction keys generalizing values with
  | nil => simp
  | cons key keys ih =>
    cases values with
    | nil => simp
    | cons value values => simpa using ih values

/-- Exchanges the classes for others in the same places. -/
def withEntries (graph : ClassGraph) (entries : List ClassEntry) : Table String ClassEntry where
  entries := (graph.classes.keys.zip entries)
  nodup_keys := by
    exact (map_fst_zip_sublist _ _).nodup graph.classes.nodup_keys

/-- Links the classes of a graph. -/
def resolve (graph : ClassGraph) : ClassGraph :=
  { classes := graph.withEntries (linkAll graph.toList), resolved := true }

/-- Whether a class is named like an inner class and does not say what its outer class is. -/
def lacksOuter (entry : ClassEntry) : Bool :=
  entry.name.contains '$' && entry.node.outerClass.isNone &&
    !entry.innerClasses.any fun inner =>
      inner.node.name == entry.name && inner.node.outerName.isSome

/-- The outer class that the name of a class tells, if the class does not say it and the graph has
it: what stands before the first dollar sign. -/
def missingOuter? (graph : ClassGraph) (entry : ClassEntry) : Option String :=
  if lacksOuter entry then
    ((Text.cut? '$' entry.name.toList).map fun cut => String.ofList cut.1).filter graph.contains
  else none

/-- Gives an outer class to every class that lacks one. The number of such classes comes along. -/
def repairOuter (graph : ClassGraph) : ClassGraph × Nat :=
  let count := graph.toList.countP fun entry => (graph.missingOuter? entry).isSome
  let repaired := graph.map fun entry =>
    match graph.missingOuter? entry with
    | some outer => { entry with node := { entry.node with outerClass := some outer } }
    | none => entry
  (if count = 0 then graph else repaired.invalidate, count)

end ClassGraph
end JvmArchive
