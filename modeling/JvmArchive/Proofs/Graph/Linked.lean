import JvmArchive.Proofs.Graph.Links
import JvmArchive.Proofs.Table
import Mathlib.Data.List.Nodup
import Mathlib.Data.List.Perm.Subperm

/-!
# What links depend on

The links of a resolved graph are a function of what its classes declare. In a list of linked classes
every link is what a lookup in that very list gives, and two lists whose classes have the same parents
have the same ancestors.
-/
namespace JvmArchive

/-- There are no more classes in a graph than it has places. -/
theorem ClassId.length_le_of_nodup {ids : List ClassId} {size : Nat} (hnodup : ids.Nodup)
    (hsize : ∀ id ∈ ids, id.index < size) : ids.length ≤ size := by
  have hindices : (ids.map (·.index)).Nodup :=
    hnodup.map fun a b h => by cases a; cases b; simpa using h
  have hrange : ids.map (·.index) ⊆ List.range size := by
    intro index hindex
    obtain ⟨id, hid, rfl⟩ := List.mem_map.1 hindex
    exact List.mem_range.2 (hsize id hid)
  simpa using (List.subperm_of_subset hindices hrange).length_le

/-- What tells whether two methods are the same. -/
def MethodEntry.identity (method : MethodEntry) : String × String × Access :=
  (method.name, method.desc, method.access)

namespace ClassGraph

/-! ## Lookups -/

theorem findIdx?_congr {α : Type} {p q : α → Bool} {items : List α}
    (h : ∀ item ∈ items, p item = q item) : items.findIdx? p = items.findIdx? q := by
  induction items with
  | nil => rfl
  | cons item items ih =>
    rw [List.findIdx?_cons, List.findIdx?_cons, h item List.mem_cons_self,
      ih fun other hother => h other (List.mem_cons_of_mem _ hother)]

theorem lastIndexWhere?_map {α β : Type} (p : β → Bool) (f : α → β) (items : List α) :
    lastIndexWhere? p (items.map f) = lastIndexWhere? (fun item => p (f item)) items := by
  simp only [lastIndexWhere?, ← List.map_reverse, List.findIdx?_map, List.length_map]
  rfl

theorem lastIndexWhere?_congr {α : Type} {p q : α → Bool} {items : List α}
    (h : ∀ item ∈ items, p item = q item) : lastIndexWhere? p items = lastIndexWhere? q items := by
  rw [lastIndexWhere?, lastIndexWhere?,
    findIdx?_congr fun item hitem => h item (List.mem_reverse.1 hitem)]

/-- Lookups see only the names of the classes. -/
theorem lookUp_congr {entries others : List ClassEntry}
    (h : entries.map (·.name) = others.map (·.name)) : lookUp entries = lookUp others := by
  funext name
  have hnames : ∀ entries : List ClassEntry, lastIndexWhere? (·.name == name) entries =
      lastIndexWhere? (· == name) (entries.map (·.name)) := fun entries =>
    (lastIndexWhere?_map (· == name) (·.name) entries).symm
  rw [lookUp, lookUp, hnames, hnames, h]

/-- A lookup under new names finds the class that was found under the old ones, if no class takes the
new name of another. -/
theorem lookUp_map {entries : List ClassEntry} {f : ClassEntry → ClassEntry}
    {rename : String → String} {name : String}
    (hf : ∀ entry ∈ entries, (f entry).name = rename entry.name)
    (hname : ∀ entry ∈ entries, rename entry.name = rename name → entry.name = name) :
    lookUp (entries.map f) (rename name) = lookUp entries name := by
  rw [lookUp, lookUp, lastIndexWhere?_map]
  congr 1
  refine lastIndexWhere?_congr fun entry hentry => ?_
  rw [hf entry hentry, Bool.eq_iff_iff, beq_iff_eq, beq_iff_eq]
  exact ⟨hname entry hentry, congrArg rename⟩

/-! ## Ancestors -/

/-- Ancestors follow from the parents alone. -/
theorem ancestorsFrom_congr {entries others : List ClassEntry} (hlength : entries.length = others.length)
    (hparents : ∀ id, parentsAt entries id = parentsAt others id) (path : List ClassId)
    (id : ClassId) : ancestorsFrom entries path id = ancestorsFrom others path id := by
  induction path, id using ancestorsFrom.induct entries with
  | case1 path id ih =>
    rw [ancestorsFrom, ancestorsFrom, hparents]
    congr 1
    funext parent
    split
    · rfl
    · rename_i hpath
      by_cases hlt : parent.index < entries.length
      · rw [if_pos hlt, if_pos (hlength ▸ hlt), ih parent hpath hlt]
      · rw [if_neg hlt, if_neg (hlength ▸ hlt)]

/-! ## Linked classes -/

/-- What a class and another one in its place must share for all links to be the same: the names of the
classes right above it. -/
theorem parentsAt_congr {entries others : List ClassEntry}
    (h : entries.map (fun entry => (entry.superclass, entry.interfaces)) =
      others.map fun entry => (entry.superclass, entry.interfaces)) (id : ClassId) :
    parentsAt entries id = parentsAt others id := by
  have hparents : ∀ entries : List ClassEntry, parentsAt entries id =
      (((entries.map fun entry => (entry.superclass, entry.interfaces))[id.index]?).map fun above =>
        above.1.toList ++ above.2).getD [] := by
    intro entries
    unfold parentsAt
    rw [List.getElem?_map]
    cases entries[id.index]? <;> rfl
  rw [hparents, hparents, h]

theorem ancestorsOf_congr {entries others : List ClassEntry}
    (h : entries.map (fun entry => (entry.superclass, entry.interfaces)) =
      others.map fun entry => (entry.superclass, entry.interfaces)) (id : ClassId) :
    ancestorsOf entries id = ancestorsOf others id := by
  have hlength : entries.length = others.length := by simpa using congrArg List.length h
  exact ancestorsFrom_congr hlength (parentsAt_congr h) _ _

theorem same_eq_beq (a b : MethodEntry) : a.same b = (a.identity == b.identity) := by
  rw [Bool.eq_iff_iff]
  simp [MethodEntry.same, MethodEntry.identity, and_assoc]

/-- Bases see only the names, descriptors and access words of methods. -/
theorem baseOf_congr {entries others : List ClassEntry}
    (h : entries.map (fun entry => entry.methods.map MethodEntry.identity) =
      others.map fun entry => entry.methods.map MethodEntry.identity) (ancestors : List ClassId)
    {method other : MethodEntry} (hmethod : method.identity = other.identity) :
    baseOf entries ancestors method = baseOf others ancestors other := by
  have hsame : ∀ (entry : ClassEntry) (method : MethodEntry),
      entry.methods.findIdx? (·.same method) =
        (entry.methods.map MethodEntry.identity).findIdx? (· == method.identity) := by
    intro entry method
    simp only [List.findIdx?_map, same_eq_beq]
    rfl
  have hbase : ∀ (entries : List ClassEntry) (method : MethodEntry),
      baseOf entries ancestors method = ancestors.findSome? fun id =>
        ((entries.map fun entry => entry.methods.map MethodEntry.identity)[id.index]?).bind fun keys =>
          (keys.findIdx? (· == method.identity)).map fun index => (id, index) := by
    intro entries method
    unfold baseOf
    congr 1
    funext id
    rw [List.getElem?_map]
    cases entries[id.index]? with
    | none => rfl
    | some entry => simp [hsame]
  rw [hbase, hbase, h, hmethod]

/-- Whether the links of classes are those that lookups in their own list give. -/
structure Linked (entries : List ClassEntry) : Prop where
  superclass : ∀ entry ∈ entries, entry.superclass = entry.node.superName.bind (lookUp entries)
  interfaces : ∀ entry ∈ entries, entry.interfaces = entry.node.interfaces.filterMap (lookUp entries)
  ancestors : ∀ {index : Nat} {entry : ClassEntry}, entries[index]? = some entry →
    entry.ancestors = ancestorsOf entries ⟨index⟩
  base : ∀ entry ∈ entries, ∀ method ∈ entry.methods,
    method.base = baseOf entries entry.ancestors method

/-- The classes with all their links but those along the hierarchy. -/
def marked (entries : List ClassEntry) : List ClassEntry :=
  let find := lookUp entries
  let linked := entries.zipIdx.map fun (entry, index) => linkClass find ⟨index⟩ entry
  let inner := linked.flatMap (declaredInner find)
  linked.zipIdx.map fun (entry, index) =>
    { entry with isInner := entry.outer.isSome || inner.contains ⟨index⟩ }

theorem linkAll_eq (entries : List ClassEntry) : linkAll entries = buildHierarchy (marked entries) := rfl

theorem getElem?_marked (entries : List ClassEntry) (index : Nat) :
    ∃ isInner, (marked entries)[index]? = (entries[index]?).map fun entry =>
      { linkClass (lookUp entries) ⟨index⟩ entry with isInner } := by
  cases h : entries[index]? with
  | none => exact ⟨false, by simpa [marked] using h⟩
  | some entry => exact ⟨_, by simp [marked, h]; rfl⟩

theorem getElem?_buildHierarchy (entries : List ClassEntry) (index : Nat) :
    (buildHierarchy entries)[index]? = (entries[index]?).map fun entry =>
      { entry with
        ancestors := ancestorsOf entries ⟨index⟩
        methods := entry.methods.map fun method =>
          { method with base := baseOf entries (ancestorsOf entries ⟨index⟩) method } } := by
  simp [buildHierarchy]
  cases entries[index]? <;> rfl

/-- What linking leaves alone in a class, and the links to the classes right above it. -/
structure LinkedFrom (entries : List ClassEntry) (declared entry : ClassEntry) : Prop where
  node : entry.node = declared.node
  isMain : entry.isMain = declared.isMain
  fields : entry.fields.map (·.node) = declared.fields.map (·.node)
  methods : entry.methods.map (·.node) = declared.methods.map (·.node)
  innerClasses : entry.innerClasses.map (·.node) = declared.innerClasses.map (·.node)
  superclass : entry.superclass = declared.node.superName.bind (lookUp entries)
  interfaces : entry.interfaces = declared.node.interfaces.filterMap (lookUp entries)

theorem exists_of_getElem?_linkAll {entries : List ClassEntry} {index : Nat} {entry : ClassEntry}
    (h : (linkAll entries)[index]? = some entry) :
    ∃ declared, entries[index]? = some declared ∧ LinkedFrom entries declared entry := by
  obtain ⟨isInner, hmarked⟩ := getElem?_marked entries index
  rw [linkAll_eq, getElem?_buildHierarchy, hmarked, Option.map_map] at h
  obtain ⟨declared, hdeclared, rfl⟩ := Option.map_eq_some_iff.1 h
  refine ⟨declared, hdeclared, ?_⟩
  constructor <;> simp [linkClass, Function.comp_def]

/-- What linking leaves alone in each class, it leaves alone in all of them. -/
theorem map_linkAll {α : Type} (entries : List ClassEntry) {f : ClassEntry → α}
    (h : ∀ declared entry, LinkedFrom entries declared entry → f entry = f declared) :
    (linkAll entries).map f = entries.map f := by
  apply List.ext_getElem?
  intro index
  rw [List.getElem?_map, List.getElem?_map]
  cases hentry : (linkAll entries)[index]? with
  | none =>
    rw [List.getElem?_eq_none_iff, length_linkAll, ← List.getElem?_eq_none_iff] at hentry
    rw [hentry, Option.map_none]
  | some entry =>
    obtain ⟨declared, hdeclared, hlinked⟩ := exists_of_getElem?_linkAll hentry
    rw [hdeclared]
    exact congrArg some (h declared entry hlinked)

theorem names_linkAll (entries : List ClassEntry) :
    (linkAll entries).map (·.name) = entries.map (·.name) :=
  map_linkAll entries fun _ _ h => congrArg ClassNode.name h.node

theorem lookUp_linkAll (entries : List ClassEntry) : lookUp (linkAll entries) = lookUp entries :=
  lookUp_congr (names_linkAll entries)

/-- Setting ancestors and bases changes neither parents nor what methods declare. -/
theorem map_buildHierarchy {α : Type} (entries : List ClassEntry) {f : ClassEntry → α}
    (h : ∀ entry ancestors (base : MethodEntry → Option (ClassId × Nat)),
      f { entry with ancestors, methods := entry.methods.map fun m => { m with base := base m } } =
        f entry) :
    (buildHierarchy entries).map f = entries.map f := by
  apply List.ext_getElem?
  intro index
  rw [List.getElem?_map, List.getElem?_map, getElem?_buildHierarchy, Option.map_map]
  congr 1
  funext entry
  exact h entry _ _

/-- Linking changes nothing that a class file holds. -/
theorem declarations_linkAll (entries : List ClassEntry) :
    (linkAll entries).map (fun entry => (entry.toNode, entry.isMain)) =
      entries.map fun entry => (entry.toNode, entry.isMain) := by
  rw [linkAll_eq, map_buildHierarchy]
  · apply List.ext_getElem?
    intro index
    obtain ⟨isInner, hmarked⟩ := getElem?_marked entries index
    rw [List.getElem?_map, List.getElem?_map, hmarked, Option.map_map]
    congr 1
    funext entry
    simp [linkClass, linkAnnotations, ClassEntry.toNode, FieldEntry.toNode, MethodEntry.toNode,
      Function.comp_def]
  · intro entry ancestors base
    simp [ClassEntry.toNode, MethodEntry.toNode, Function.comp_def]

theorem ancestorsOf_linkAll (entries : List ClassEntry) (id : ClassId) :
    ancestorsOf (linkAll entries) id = ancestorsOf (marked entries) id := by
  rw [linkAll_eq]
  exact ancestorsOf_congr (map_buildHierarchy _ fun _ _ _ => rfl) id

theorem baseOf_linkAll (entries : List ClassEntry) (ancestors : List ClassId) (method : MethodEntry) :
    baseOf (linkAll entries) ancestors method = baseOf (marked entries) ancestors method := by
  rw [linkAll_eq]
  refine baseOf_congr (map_buildHierarchy _ fun entry ancestors base => ?_) ancestors rfl
  rw [List.map_map]
  rfl

/-- The links that resolving sets are those that lookups in the resolved list give. -/
theorem linked_linkAll (entries : List ClassEntry) : Linked (linkAll entries) where
  superclass entry hentry := by
    obtain ⟨index, hindex⟩ := List.getElem?_of_mem hentry
    obtain ⟨declared, -, h⟩ := exists_of_getElem?_linkAll hindex
    rw [lookUp_linkAll, h.superclass, h.node]
  interfaces entry hentry := by
    obtain ⟨index, hindex⟩ := List.getElem?_of_mem hentry
    obtain ⟨declared, -, h⟩ := exists_of_getElem?_linkAll hindex
    rw [lookUp_linkAll, h.interfaces, h.node]
  ancestors {index entry} h := by
    rw [ancestorsOf_linkAll]
    rw [linkAll_eq, getElem?_buildHierarchy] at h
    obtain ⟨marked, -, rfl⟩ := Option.map_eq_some_iff.1 h
    rfl
  base entry hentry method hmethod := by
    obtain ⟨index, hindex⟩ := List.getElem?_of_mem hentry
    rw [linkAll_eq, getElem?_buildHierarchy] at hindex
    obtain ⟨marked, -, rfl⟩ := Option.map_eq_some_iff.1 hindex
    obtain ⟨declared, -, rfl⟩ := List.mem_map.1 hmethod
    rw [baseOf_linkAll]
    rfl

/-! ## Names -/

/-- Whether every class of a graph stands under its own name. -/
def KeepsNames (graph : ClassGraph) : Prop := graph.names = graph.toList.map (·.name)

instance (graph : ClassGraph) : Decidable graph.KeepsNames :=
  inferInstanceAs (Decidable (_ = _))

variable {graph : ClassGraph}

theorem names_resolve (graph : ClassGraph) : graph.resolve.names = graph.names := by
  have hlength : graph.classes.keys.length ≤ (linkAll graph.toList).length := by
    simp [length_linkAll, toList, Table.keys, Table.values]
  exact List.map_fst_zip hlength

theorem KeepsNames.resolve (h : graph.KeepsNames) : graph.resolve.KeepsNames := by
  rw [KeepsNames, names_resolve, toList_resolve, names_linkAll]
  exact h

theorem KeepsNames.nodup (h : graph.KeepsNames) : (graph.toList.map (·.name)).Nodup := by
  rw [← h]
  exact graph.classes.nodup_keys

theorem KeepsNames.nameOf? (h : graph.KeepsNames) (id : ClassId) :
    graph.nameOf? id = (graph.at? id).map (·.name) := by
  have hname := congrArg (·[id.index]?) h
  simp only [names, Table.keys, List.getElem?_map, toList, Table.values] at hname
  rw [ClassGraph.nameOf?, hname, at?]

/-- The class at a position is found under its name. -/
theorem KeepsNames.idOf? (h : graph.KeepsNames) {id : ClassId} {entry : ClassEntry}
    (hentry : graph.at? id = some entry) : graph.idOf? entry.name = some id := by
  have hname := h.nameOf? id
  rw [hentry, Option.map_some] at hname
  obtain ⟨found, hfound, hkey⟩ := Option.map_eq_some_iff.1 hname
  obtain ⟨hlt, hget⟩ := List.getElem?_eq_some_iff.1 hfound
  have hindex : graph.classes.indexOf? entry.name = some id.index := by
    rw [Table.indexOf?, List.findIdx?_eq_some_iff_getElem]
    refine ⟨hlt, by simp [hget, hkey], fun earlier hearlier hmatch => ?_⟩
    have hsame : earlier = id.index := by
      refine (List.getElem?_inj ?_ graph.classes.nodup_keys).1 ?_
      · simp only [List.length_map]
        omega
      · simp only [List.getElem?_map, hfound, List.getElem?_eq_getElem (Nat.lt_trans hearlier hlt),
          Option.map_some, hkey]
        simpa using hmatch
    omega
  rw [ClassGraph.idOf?, hindex]
  rfl

/-- Classes with different names come one by one. -/
theorem toList_ofList {entries : List ClassEntry} (h : (entries.map (·.name)).Nodup) :
    (ofList entries).toList = entries := by
  have hkeys : ((entries.map fun entry => (entry.name, entry)).map (·.1)).Nodup := by
    simpa [Function.comp_def] using h
  simp only [ofList, toList, Table.values, Table.entries_ofList hkeys, List.map_map,
    Function.comp_def, List.map_id']

/-- Classes with different names stand under their names. -/
theorem keepsNames_ofList {entries : List ClassEntry} (h : (entries.map (·.name)).Nodup) :
    (ofList entries).KeepsNames := by
  have hkeys : ((entries.map fun entry => (entry.name, entry)).map (·.1)).Nodup := by
    simpa [Function.comp_def] using h
  rw [KeepsNames, toList_ofList h]
  simp [names, ofList, Table.keys, Table.entries_ofList hkeys, Function.comp_def]

theorem linked_resolve (graph : ClassGraph) : Linked graph.resolve.toList := by
  rw [toList_resolve]
  exact linked_linkAll _

end ClassGraph
end JvmArchive
