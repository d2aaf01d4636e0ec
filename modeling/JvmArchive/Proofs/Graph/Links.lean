import JvmArchive.Graph.Lookup
import JvmArchive.Graph.Resolve

/-!
# Links of resolved graphs

What resolving leaves alone and what it sets: every class keeps its place and its declarations, and the
base of a method is the first method of an ancestor with the same name, descriptor and access word.
-/
namespace JvmArchive.ClassGraph

theorem length_linkAll (entries : List ClassEntry) : (linkAll entries).length = entries.length := by
  simp [linkAll, buildHierarchy]

/-- Resolving exchanges the classes for the linked ones, each in its place. -/
theorem toList_resolve (graph : ClassGraph) : graph.resolve.toList = linkAll graph.toList := by
  have hlength : (linkAll graph.toList).length ≤ graph.classes.keys.length := by
    simp [length_linkAll, toList, Table.keys, Table.values]
  simp [resolve, withEntries, toList, Table.values] at hlength ⊢
  rw [List.map_snd_zip]
  simpa using hlength

theorem at?_eq_getElem? (graph : ClassGraph) (id : ClassId) :
    graph.at? id = graph.toList[id.index]? := by
  simp [at?, toList, Table.values]

/-- The index of the first method of a class that is the same as a method. -/
def baseIn? (entries : List ClassEntry) (method : MethodEntry) (id : ClassId) : Option Nat :=
  (entries[id.index]?).bind fun entry => entry.methods.findIdx? (·.same method)

theorem baseOf_eq_findSome? (entries : List ClassEntry) (ancestors : List ClassId)
    (method : MethodEntry) :
    baseOf entries ancestors method =
      ancestors.findSome? fun id => (baseIn? entries method id).map fun index => (id, index) := by
  simp only [baseOf, baseIn?, Option.map_bind]
  rfl

/-- The base of a method in a graph with links is a method of the graph that is the same. -/
theorem same_of_base {entries : List ClassEntry} {entry : ClassEntry} {method : MethodEntry}
    {place : ClassId × Nat} (hentry : entry ∈ buildHierarchy entries)
    (hmethod : method ∈ entry.methods) (hbase : method.base = some place) :
    ∃ above base, (buildHierarchy entries)[place.1.index]? = some above ∧
      above.methods[place.2]? = some base ∧ base.same method = true := by
  obtain ⟨⟨old, index⟩, -, rfl⟩ := List.mem_map.1 hentry
  obtain ⟨original, -, rfl⟩ := List.mem_map.1 hmethod
  obtain ⟨id, -, hid⟩ := List.exists_of_findSome?_eq_some hbase
  obtain ⟨above, habove, hfound⟩ := Option.bind_eq_some_iff.1 hid
  obtain ⟨k, hk, rfl⟩ := Option.map_eq_some_iff.1 hfound
  obtain ⟨hlt, hsame, -⟩ := List.findIdx?_eq_some_iff_getElem.1 hk
  have hplace : (buildHierarchy entries)[id.index]? =
      some { above with
        ancestors := ancestorsOf entries id
        methods := above.methods.map fun method =>
          { method with base := baseOf entries (ancestorsOf entries id) method } } := by
    simp [buildHierarchy, habove]
  refine ⟨_, _, hplace, List.getElem?_eq_getElem (by simpa using hlt), ?_⟩
  simpa [MethodEntry.same, MethodEntry.name, MethodEntry.desc, MethodEntry.access] using hsame

/-- In a resolved graph the base of a method is a method of the graph with the same name and
descriptor. -/
theorem methodAt?_base {graph : ClassGraph} {id : ClassId} {entry : ClassEntry}
    {method : MethodEntry} {place : ClassId × Nat} (hentry : graph.resolve.at? id = some entry)
    (hmethod : method ∈ entry.methods) (hbase : method.base = some place) :
    ∃ base, graph.resolve.methodAt? place = some base ∧ base.name = method.name ∧
      base.desc = method.desc := by
  rw [at?_eq_getElem?, toList_resolve] at hentry
  obtain ⟨above, base, habove, hat, hsame⟩ :=
    same_of_base (List.mem_of_getElem? hentry) hmethod hbase
  refine ⟨base, ?_, ?_⟩
  · rw [methodAt?, at?_eq_getElem?, toList_resolve]
    exact Option.bind_eq_some_iff.2 ⟨above, habove, hat⟩
  · simp only [MethodEntry.same, Bool.and_eq_true, beq_iff_eq] at hsame
    exact hsame.1

/-- What a search for a method finds has the name and the descriptor searched for. -/
theorem methodAt?_of_findMethod {graph : ClassGraph} {id : ClassId} {name desc : String}
    {place : ClassId × Nat} (h : graph.findMethod id name desc = some place) :
    ∃ method, graph.methodAt? place = some method ∧ method.name = name ∧ method.desc = desc := by
  obtain ⟨entry, hentry, hfound⟩ := Option.bind_eq_some_iff.1 h
  obtain ⟨⟨owner, declaring⟩, hmem, hindex⟩ := List.exists_of_findSome?_eq_some hfound
  obtain ⟨k, hk, rfl⟩ := Option.map_eq_some_iff.1 hindex
  obtain ⟨hlt, hmatch, -⟩ := List.findIdx?_eq_some_iff_getElem.1 hk
  have hat : graph.at? owner = some declaring := by
    rcases List.mem_cons.1 hmem with heq | habove
    · obtain ⟨rfl, rfl⟩ := Prod.mk.inj heq
      exact hentry
    · rw [ancestorEntries, hentry] at habove
      obtain ⟨above, -, habove⟩ := List.mem_filterMap.1 habove
      obtain ⟨e, he, heq⟩ := Option.map_eq_some_iff.1 habove
      obtain ⟨rfl, rfl⟩ := Prod.mk.inj heq
      exact he
  refine ⟨declaring.methods[k], ?_, by simpa using hmatch⟩
  rw [methodAt?, hat]
  exact List.getElem?_eq_getElem hlt

end JvmArchive.ClassGraph
