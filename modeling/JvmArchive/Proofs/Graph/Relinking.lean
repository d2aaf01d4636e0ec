import JvmArchive.Graph.Edit
import JvmArchive.Proofs.Graph.NameLinks

/-!
# Resolving again

Resolving sets every link of a graph anew. What links there were before, from an earlier run, from other
names or from classes that are gone, leaves no trace, so a graph can be resolved again after every edit.
Main statement: `resolve_of_declared`.
-/
namespace JvmArchive

/-! ## Without links -/

def AnnotationEntry.unlinked (entry : AnnotationEntry) : AnnotationEntry := { node := entry.node }

def InnerClassEntry.unlinked (entry : InnerClassEntry) : InnerClassEntry := { node := entry.node }

def FieldEntry.unlinked (field : FieldEntry) : FieldEntry where
  node := field.node
  annotations := field.annotations.map AnnotationEntry.unlinked

def MethodEntry.unlinked (method : MethodEntry) : MethodEntry where
  node := method.node
  annotations := method.annotations.map AnnotationEntry.unlinked
  editor := method.editor

/-- A class as it is before its links are set. -/
def ClassEntry.unlinked (entry : ClassEntry) : ClassEntry where
  node := entry.node
  fields := entry.fields.map FieldEntry.unlinked
  methods := entry.methods.map MethodEntry.unlinked
  innerClasses := entry.innerClasses.map InnerClassEntry.unlinked
  annotations := entry.annotations.map AnnotationEntry.unlinked
  isMain := entry.isMain

/-- All that resolving sets in a class: its links and those of its members. Whether the program starts
with the class is not among it. -/
def ClassEntry.resolution (entry : ClassEntry) : ClassLinks × MemberLinks :=
  ({ entry.links with isMain := false }, entry.memberLinks)

theorem ClassEntry.toNode_unlinked (entry : ClassEntry) : entry.unlinked.toNode = entry.toNode := by
  simp [toNode, unlinked, FieldEntry.toNode, FieldEntry.unlinked, MethodEntry.toNode,
    MethodEntry.unlinked, AnnotationEntry.unlinked, InnerClassEntry.unlinked, Function.comp_def]

namespace ClassGraph

/-- A graph as it is before it is resolved. -/
def unlinked (graph : ClassGraph) : ClassGraph := (graph.map ClassEntry.unlinked).invalidate

/-- The trees of the classes, in order. -/
def nodes (graph : ClassGraph) : List ClassNode := graph.toList.map ClassEntry.toNode

/-- All that resolving sets in the classes, in order. -/
def resolution (graph : ClassGraph) : List (ClassLinks × MemberLinks) :=
  graph.toList.map ClassEntry.resolution

/-! ## Links from before -/

/-- A change that keeps the classes right above each class keeps all ancestors. -/
theorem ancestorsOf_map (f : ClassEntry → ClassEntry)
    (hf : ∀ entry, ((f entry).superclass, (f entry).interfaces) = (entry.superclass, entry.interfaces))
    (entries : List ClassEntry) : ancestorsOf (entries.map f) = ancestorsOf entries := by
  funext id
  refine ancestorsOf_congr ?_ id
  rw [List.map_map]
  exact List.map_congr_left fun entry _ => hf entry

/-- A change that keeps the methods of each class keeps all bases. -/
theorem baseOf_map (f : ClassEntry → ClassEntry) (hf : ∀ entry, (f entry).methods = entry.methods)
    (entries : List ClassEntry) : baseOf (entries.map f) = baseOf entries := by
  funext ancestors method
  refine baseOf_congr ?_ ancestors rfl
  rw [List.map_map]
  exact List.map_congr_left fun entry _ => congrArg (List.map MethodEntry.identity) (hf entry)

theorem linkAnnotations_unlinked (find : String → Option ClassId) (entries : List AnnotationEntry) :
    linkAnnotations find (entries.map AnnotationEntry.unlinked) = linkAnnotations find entries := by
  simp only [linkAnnotations, List.map_map]
  rfl

/-- A class as it is before its ancestors are found. -/
def rootless (entry : ClassEntry) : ClassEntry := { entry with ancestors := [] }

/-- Looking up the names in a class keeps of its links only those that are set later. -/
theorem linkClass_unlinked (find : String → Option ClassId) (id : ClassId) (entry : ClassEntry) :
    linkClass find id entry.unlinked =
      { rootless (linkClass find id entry) with isInner := false } := by
  have houter : entry.unlinked.outerName? = entry.outerName? := by
    rw [outerName?_eq, outerName?_eq, ← declaration_toNode, ← declaration_toNode,
      ClassEntry.toNode_unlinked]
  simp only [linkClass, houter, rootless]
  simp [ClassEntry.unlinked, FieldEntry.unlinked, MethodEntry.unlinked, InnerClassEntry.unlinked,
    linkAnnotations_unlinked, Function.comp_def]

theorem marked_map_unlinked (entries : List ClassEntry) :
    marked (entries.map ClassEntry.unlinked) = (marked entries).map rootless := by
  have hfind : lookUp (entries.map ClassEntry.unlinked) = lookUp entries :=
    lookUp_congr (List.map_map ..)
  simp only [marked, hfind, List.zipIdx_map, List.map_map, List.flatMap_map, Function.comp_def,
    Prod.map, linkClass_unlinked]
  rfl

/-- Ancestors from before do not matter to those that are found. -/
theorem buildHierarchy_map_rootless (entries : List ClassEntry) :
    buildHierarchy (entries.map rootless) = buildHierarchy entries := by
  rw [buildHierarchy, buildHierarchy, ancestorsOf_map rootless fun _ => rfl,
    baseOf_map rootless fun _ => rfl, List.zipIdx_map, List.map_map]
  rfl

/-- Links from before do not matter to those that are set. -/
theorem linkAll_map_unlinked (entries : List ClassEntry) :
    linkAll (entries.map ClassEntry.unlinked) = linkAll entries := by
  rw [linkAll_eq, linkAll_eq, marked_map_unlinked, buildHierarchy_map_rootless]

/-- Linking changes nothing but links. -/
theorem map_unlinked_linkAll (entries : List ClassEntry) :
    (linkAll entries).map ClassEntry.unlinked = entries.map ClassEntry.unlinked := by
  apply List.ext_getElem?
  intro index
  obtain ⟨isInner, hmarked⟩ := getElem?_marked entries index
  rw [List.getElem?_map, List.getElem?_map, linkAll_eq, getElem?_buildHierarchy, hmarked,
    Option.map_map, Option.map_map]
  congr 1
  funext entry
  simp [linkClass, linkAnnotations, ClassEntry.unlinked, FieldEntry.unlinked, MethodEntry.unlinked,
    InnerClassEntry.unlinked, AnnotationEntry.unlinked, Function.comp_def]

/-- With which class the program starts does not matter to the links. -/
theorem linkAll_map_setMain (entries : List ClassEntry) :
    linkAll (entries.map (·.setMain false)) = (linkAll entries).map (·.setMain false) := by
  have hfind : lookUp (entries.map (·.setMain false)) = lookUp entries :=
    lookUp_congr (List.map_map ..)
  have hmarked : marked (entries.map (·.setMain false)) = (marked entries).map (·.setMain false) := by
    simp only [marked, hfind, List.zipIdx_map, List.map_map, List.flatMap_map, Function.comp_def,
      Prod.map]
    rfl
  rw [linkAll_eq, linkAll_eq, hmarked, buildHierarchy, buildHierarchy,
    ancestorsOf_map (·.setMain false) fun _ => rfl, baseOf_map (·.setMain false) fun _ => rfl,
    List.zipIdx_map, List.map_map, List.map_map]
  rfl

/-- All that linking sets follows from the trees of the classes. -/
theorem resolution_linkAll_of_nodes {entries others : List ClassEntry}
    (h : entries.map ClassEntry.toNode = others.map ClassEntry.toNode) :
    (linkAll entries).map ClassEntry.resolution = (linkAll others).map ClassEntry.resolution := by
  have hdeclared : entries.map ClassEntry.declaration = others.map ClassEntry.declaration :=
    map_eq_of_map_eq (fun a b hsame => by
      rw [← declaration_toNode, ← declaration_toNode, hsame]) h
  have hlinks : (linkAll (entries.map (·.setMain false))).map ClassEntry.links =
      (linkAll (others.map (·.setMain false))).map ClassEntry.links := by
    refine links_linkAll_of_declarations ?_
    rw [List.map_map, List.map_map]
    exact map_eq_of_map_eq (fun a b hsame => congrArg (·, false) hsame) hdeclared
  have hmembers := memberLinks_linkAll_of_declarations hdeclared
  rw [linkAll_map_setMain, linkAll_map_setMain, List.map_map, List.map_map] at hlinks
  have hzip : ∀ entries : List ClassEntry, entries.map ClassEntry.resolution =
      (entries.map (ClassEntry.links ∘ (·.setMain false))).zip (entries.map ClassEntry.memberLinks) :=
    fun entries => (List.zip_map' ..).symm
  rw [hzip, hzip, hlinks, hmembers]

/-! ## Graphs -/

theorem names_unlinked (graph : ClassGraph) : graph.unlinked.names = graph.names :=
  List.map_map ..

theorem toList_unlinked (graph : ClassGraph) :
    graph.unlinked.toList = graph.toList.map ClassEntry.unlinked := by
  simp only [unlinked, invalidate, ClassGraph.map, Table.map, toList, Table.values, List.map_map]
  rfl

/-- A graph is its classes under their names. -/
theorem eq_of_names_toList {graph other : ClassGraph} (hnames : graph.names = other.names)
    (hclasses : graph.toList = other.toList) (hresolved : graph.resolved = other.resolved) :
    graph = other := by
  obtain ⟨⟨entries, hkeys⟩, resolved⟩ := graph
  obtain ⟨⟨others, hkeys'⟩, resolved'⟩ := other
  simp only [names, toList, Table.keys, Table.values] at hnames hclasses hresolved
  have hentries : entries = others := by
    rw [← List.zip_unzip entries, ← List.zip_unzip others, List.unzip_eq_map, List.unzip_eq_map]
    rw [hnames, hclasses]
  subst hentries hresolved
  rfl

theorem resolve_unlinked (graph : ClassGraph) : graph.unlinked.resolve = graph.resolve := by
  refine eq_of_names_toList ?_ ?_ rfl
  · rw [names_resolve, names_resolve, names_unlinked]
  · rw [toList_resolve, toList_resolve, toList_unlinked, linkAll_map_unlinked]

theorem unlinked_resolve (graph : ClassGraph) : graph.resolve.unlinked = graph.unlinked := by
  refine eq_of_names_toList ?_ ?_ rfl
  · rw [names_unlinked, names_unlinked, names_resolve]
  · rw [toList_unlinked, toList_unlinked, toList_resolve, map_unlinked_linkAll]

/-- Whether an edit sees nothing of the links. -/
def IgnoresLinks (edit : ClassGraph → ClassGraph) : Prop :=
  ∀ graph other : ClassGraph, graph.unlinked = other.unlinked →
    (edit graph).unlinked = (edit other).unlinked

/-- An edit of one class that sees nothing of its links. -/
theorem ignoresLinks_update (name : String) {f : ClassEntry → ClassEntry}
    (hf : ∀ entry, (f entry).unlinked = f entry.unlinked) : IgnoresLinks (·.update name f) := by
  have hupdate : ∀ graph : ClassGraph,
      (graph.update name f).unlinked = graph.unlinked.update name f := by
    intro graph
    simp only [unlinked, invalidate, update, Table.update, ClassGraph.map, Table.map, List.map_map,
      ClassGraph.mk.injEq, Table.mk.injEq, and_true]
    refine List.map_congr_left fun entry _ => ?_
    simp only [Function.comp_apply]
    split
    · rw [hf]
    · rfl
  intro graph other h
  rw [hupdate, hupdate, h]

/-- All that resolving sets follows from the trees of the classes and their order, and what else a graph
holds but links it keeps: graphs that differ in links alone resolve to the same graph. So a resolved graph
stays as it is when it is resolved again, and after any edit that does not go by links it resolves as if it
never had been resolved before. -/
theorem resolve_of_declared :
    (∀ graph other : ClassGraph, graph.names = other.names → graph.nodes = other.nodes →
      graph.resolve.names = other.resolve.names ∧
        graph.resolve.resolution = other.resolve.resolution) ∧
    (∀ graph other : ClassGraph, graph.unlinked = other.unlinked → graph.resolve = other.resolve) ∧
    (∀ graph : ClassGraph, graph.resolve.resolve = graph.resolve) ∧
    ∀ edit : ClassGraph → ClassGraph, IgnoresLinks edit →
      ∀ graph, (edit graph.resolve).resolve = (edit graph).resolve := by
  have hsame : ∀ graph other : ClassGraph, graph.unlinked = other.unlinked →
      graph.resolve = other.resolve := by
    intro graph other h
    rw [← resolve_unlinked graph, h, resolve_unlinked]
  refine ⟨fun graph other hnames hnodes => ⟨?_, ?_⟩, hsame, fun graph => ?_, fun edit hedit graph => ?_⟩
  · rw [names_resolve, names_resolve, hnames]
  · rw [resolution, resolution, toList_resolve, toList_resolve]
    exact resolution_linkAll_of_nodes hnodes
  · exact hsame _ _ (unlinked_resolve graph)
  · exact hsame _ _ (hedit _ _ (unlinked_resolve graph))

/-- Two classes with one method each, the second of which extends the first and overrides its method. -/
def twinGraph : ClassGraph :=
  .ofList
    [.ofNode { access := 1, name := "p/A", methods := [{ access := 1, name := "m", desc := "()V" }] },
      .ofNode
        { access := 1, name := "p/B", superName := some "p/A"
          methods := [{ access := 1, name := "m", desc := "()V" }] }]

/-- Says what the superclass of the second class is. -/
def adopt (superName : Option String) (graph : ClassGraph) : ClassGraph :=
  graph.update "p/B" (·.setSuper superName)

/-- A class that has lost its superclass still has the links from before, and they are gone when the graph
is resolved again. When it has got its superclass back, the graph resolves as it did at first. -/
theorem resolve_of_declared_orphaned :
    IgnoresLinks (adopt none) ∧
      (adopt none twinGraph.resolve).names = (adopt none twinGraph).names ∧
      (adopt none twinGraph.resolve).nodes = (adopt none twinGraph).nodes ∧
      (adopt none twinGraph.resolve).resolution ≠ (adopt none twinGraph).resolution ∧
      (adopt none twinGraph.resolve).resolve.resolution = (adopt none twinGraph).resolve.resolution ∧
      (adopt none twinGraph.resolve).resolve = (adopt none twinGraph).resolve ∧
      (adopt (some "p/A") (adopt none twinGraph.resolve)).unlinked = twinGraph.unlinked ∧
      (adopt (some "p/A") (adopt none twinGraph.resolve)).resolve = twinGraph.resolve := by
  obtain ⟨hdeclared, hlinks, -, hedit⟩ := resolve_of_declared
  have hignores : IgnoresLinks (adopt none) := ignoresLinks_update "p/B" fun _ => rfl
  have hnames : (adopt none twinGraph.resolve).names = (adopt none twinGraph).names := by
    decide +kernel
  have hnodes : (adopt none twinGraph.resolve).nodes = (adopt none twinGraph).nodes := rfl
  have hback : (adopt (some "p/A") (adopt none twinGraph.resolve)).unlinked = twinGraph.unlinked := rfl
  exact ⟨hignores, hnames, hnodes, by decide +kernel, (hdeclared _ _ hnames hnodes).2,
    hedit _ hignores twinGraph, hback, hlinks _ _ hback⟩

end ClassGraph
end JvmArchive
