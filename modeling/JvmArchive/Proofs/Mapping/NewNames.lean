import JvmArchive.Proofs.Mapping.Steps

/-!
# New names in generated stores

Drawn names hold none of the characters that keys and descriptors are put together with, so neither do
the new names of classes, which are made of drawn names, dollar signs and names of outer classes, and
those of members.
-/
namespace JvmArchive.Mapping

open ClassGraph Store

/-! ## Drawn names -/

/-- Whether a name that a source draws never holds a character that keys or descriptors are put together
with. -/
def NameSource.Plain {σ : Type} (source : NameSource σ) : Prop :=
  ∀ scope names, ∀ c ∈ (source.draw scope names).1.toList, c ∉ ['.', ';', '[', '(']

theorem NameSource.Alphanumeric.plain {σ : Type} {source : NameSource σ} (h : source.Alphanumeric) :
    source.Plain := by
  have hplain : randomCharacters.all (fun c => decide (c ∉ ['.', ';', '[', '('])) = true := by decide
  intro scope names c hc
  exact of_decide_eq_true (List.all_eq_true.1 hplain c ((h scope _ ⟨names, rfl⟩).mem c hc))

/-! ## Names of classes -/

/-- Whether a name can be that of a class: it holds no separator of keys and descriptors and is no array
type. -/
structure PlainClass (name : String) : Prop where
  dot : '.' ∉ name.toList
  semicolon : ';' ∉ name.toList
  array : name.toList.head? ≠ some '['

instance (name : String) : Decidable (PlainClass name) :=
  decidable_of_iff (_ ∧ _ ∧ _) ⟨fun h => ⟨h.1, h.2.1, h.2.2⟩, fun h => ⟨h.dot, h.semicolon, h.array⟩⟩

theorem plainClass_draw {σ : Type} {source : NameSource σ} (hsource : source.Plain) (scope : Scope)
    (names : σ) : PlainClass (source.draw scope names).1 where
  dot h := hsource scope names _ h (by simp)
  semicolon h := hsource scope names _ h (by simp)
  array h := by
    obtain ⟨rest, hrest⟩ := List.head?_eq_some_iff.1 h
    exact hsource scope names '[' (by simp [hrest]) (by simp)

/-- The new name of an inner class. -/
theorem PlainClass.inner {outer short : String} (houter : PlainClass outer)
    (hshort : PlainClass short) : PlainClass (outer ++ "$" ++ short) where
  dot := by simpa using ⟨houter.dot, hshort.dot⟩
  semicolon := by simpa using ⟨houter.semicolon, hshort.semicolon⟩
  array := by
    have harray := houter.array
    rw [String.toList_append, String.toList_append]
    cases hlist : outer.toList with
    | nil => simp
    | cons c rest =>
      rw [hlist] at harray
      simpa using harray

/-! ## Stores with new names of a kind -/

/-- Whether the new names of the classes and of the members of a store have a property each. -/
structure NamesWith (onClass onMember : String → Prop) (store : Store) : Prop where
  classes : ∀ name mapping, store.classes.get? name = some mapping → onClass mapping
  fields : ∀ className, ∀ row ∈ store.classFields className, onMember row.mapping
  methods : ∀ className, ∀ row ∈ store.classMethods className, onMember row.mapping

namespace NamesWith

variable {onClass onMember : String → Prop} {store : Store}

theorem empty : NamesWith onClass onMember (.empty .applying) where
  classes name mapping h := by simp [Store.empty] at h
  fields className row h := by simp [Store.empty, classFields] at h
  methods className row h := by simp [Store.empty, classMethods] at h

theorem mappedName (h : NamesWith onClass onMember store) {name : String} (hname : onClass name) :
    onClass (store.mappedName name) := by
  rw [Store.mappedName]
  cases hmapping : store.classes.get? name with
  | none => exact hname
  | some mapping => exact h.classes name mapping hmapping

theorem mapClass (h : NamesWith onClass onMember store) (himplied : store.implied = []) (name : String)
    {mapping : String} (hmapping : onClass mapping) :
    NamesWith onClass onMember (store.mapClass name mapping) := by
  rw [mapClass_eq himplied]
  split
  · exact h
  · refine ⟨fun other image himage => ?_, h.fields, h.methods⟩
    rw [Table.get?_insert] at himage
    split at himage
    · exact Option.some.inj himage ▸ hmapping
    · exact h.classes other image himage

theorem mapField (h : NamesWith onClass onMember store) (className : String) {row : FieldMapping}
    (hrow : onMember row.mapping) : NamesWith onClass onMember (store.mapField className row) where
  classes := by
    rw [mapField_eq_with]
    exact h.classes
  fields other found hfound := by
    rw [classFields_mapField, List.mem_append] at hfound
    rcases hfound with hold | hnew
    · exact h.fields other found hold
    · split at hnew
      · exact List.mem_singleton.1 hnew ▸ hrow
      · simp at hnew
  methods := by simpa using h.methods

theorem mapMethod (h : NamesWith onClass onMember store) (className : String) {row : MethodMapping}
    (hrow : onMember row.mapping) : NamesWith onClass onMember (store.mapMethod className row) where
  classes := by
    rw [mapMethod_eq_with]
    exact h.classes
  fields := by simpa using h.fields
  methods other found hfound := by
    rw [classMethods_mapMethod, List.mem_append] at hfound
    rcases hfound with hold | hnew
    · exact h.methods other found hold
    · split at hnew
      · exact List.mem_singleton.1 hnew ▸ hrow
      · simp at hnew

theorem completeDescriptors (h : NamesWith onClass onMember store) :
    NamesWith onClass onMember store.completeDescriptors where
  classes := h.classes
  fields className row hrow := by
    rw [classFields_completeDescriptors] at hrow
    obtain ⟨old, hold, rfl⟩ := List.mem_map.1 hrow
    exact h.fields className old hold
  methods className row hrow := by
    rw [classMethods_completeDescriptors] at hrow
    obtain ⟨old, hold, rfl⟩ := List.mem_map.1 hrow
    exact h.methods className old hold

end NamesWith

section
variable {σ : Type} {source : NameSource σ} {reserved : List String} {graph : ClassGraph}
  {onClass onMember : String → Prop}

/-- If drawn names have the properties, the names of the graph have that of classes, and inner classes
get it from their parts, the new names of a generated store have them. -/
theorem namesWith_generated (hclass : ∀ name, Drawn source .classes name → onClass name)
    (hmember : ∀ scope name, Drawn source scope name → onMember name)
    (hinner : ∀ {outer short : String}, onClass outer → onClass short →
      onClass (outer ++ "$" ++ short))
    (hnames : ∀ name ∈ graph.names, onClass name) (names : σ) :
    NamesWith onClass onMember (generated source reserved graph names) := by
  refine generated_induction source (P := NamesWith onClass onMember) ?_ .empty
    (fun h => h.completeDescriptors) names
  intro store next himplied hadds h
  cases hadds with
  | newClass hmem hdrawn hmade =>
    rcases hmade with rfl | ⟨outer, houter, rfl⟩
    · exact h.mapClass himplied _ (hclass _ hdrawn)
    · exact h.mapClass himplied _ (hinner (h.mappedName (hnames outer houter)) (hclass _ hdrawn))
  | newField hnamed =>
    rcases hnamed with hdrawn | ⟨owner, other, hother, hsame⟩
    · exact h.mapField _ (hmember .fields _ hdrawn)
    · exact h.mapField _ (hsame ▸ h.fields owner other hother)
  | newMethod hnamed =>
    rcases hnamed with hdrawn | ⟨owner, other, hother, hsame⟩
    · exact h.mapMethod _ (hmember .methods _ hdrawn)
    · exact h.mapMethod _ (hsame ▸ h.methods owner other hother)

/-- Whether the new names of a store can stand in keys and descriptors. -/
def PlainMappings (store : Store) : Prop :=
  NamesWith PlainClass (fun name => '(' ∉ name.toList) store

/-- A generated store has plain new names. -/
theorem plainMappings_generated (hsource : source.Plain) (hkeeps : graph.KeepsNames)
    (hplain : ∀ entry ∈ graph.toList, PlainClass entry.name) (names : σ) :
    PlainMappings (generated source reserved graph names) := by
  refine namesWith_generated (fun name hdrawn => ?_) (fun scope name hdrawn hmem => ?_)
    PlainClass.inner (fun name hname => ?_) names
  · obtain ⟨names, rfl⟩ := hdrawn
    exact plainClass_draw hsource .classes names
  · obtain ⟨names, rfl⟩ := hdrawn
    exact hsource scope names _ hmem (by simp)
  · rw [hkeeps] at hname
    obtain ⟨entry, hentry, rfl⟩ := List.mem_map.1 hname
    exact hplain entry hentry

end

/-! ## Rows of members -/

/-- Whether no class of a store has two rows for one member. -/
structure DistinctMembers (store : Store) : Prop where
  fields : ∀ className, ((store.classFields className).map fun row => (row.name, row.desc)).Nodup
  methods : ∀ className, ((store.classMethods className).map fun row => (row.name, row.desc)).Nodup

namespace DistinctMembers

variable {store : Store}

theorem empty (direction : Direction) : DistinctMembers (.empty direction) where
  fields className := by simp [Store.empty, classFields]
  methods className := by simp [Store.empty, classMethods]

theorem mapClass (h : DistinctMembers store) (himplied : store.implied = []) (name mapping : String) :
    DistinctMembers (store.mapClass name mapping) := by
  rw [mapClass_eq himplied]
  split
  · exact h
  · exact ⟨h.fields, h.methods⟩

theorem mapField (h : DistinctMembers store) (className : String) (row : FieldMapping) :
    DistinctMembers (store.mapField className row) where
  fields other := by
    rw [classFields_mapField, List.map_append, List.nodup_append]
    refine ⟨h.fields other, by split <;> simp, fun key hkey found hfound => ?_⟩
    split at hfound
    · rename_i hnew
      obtain ⟨old, hold, rfl⟩ := List.mem_map.1 hkey
      obtain rfl : found = (row.name, row.desc) := by simpa using hfound
      have hmiss := List.find?_eq_none.1 hnew.2 old (hnew.1 ▸ hold)
      simpa using hmiss
    · simp at hfound
  methods := by simpa using h.methods

theorem mapMethod (h : DistinctMembers store) (className : String) (row : MethodMapping) :
    DistinctMembers (store.mapMethod className row) where
  fields := by simpa using h.fields
  methods other := by
    rw [classMethods_mapMethod, List.map_append, List.nodup_append]
    refine ⟨h.methods other, by split <;> simp, fun key hkey found hfound => ?_⟩
    split at hfound
    · rename_i hnew
      obtain ⟨old, hold, rfl⟩ := List.mem_map.1 hkey
      obtain rfl : found = (row.name, row.desc) := by simpa using hfound
      have hmiss := List.find?_eq_none.1 hnew.2 old (hnew.1 ▸ hold)
      simpa using hmiss
    · simp at hfound

theorem completeDescriptors (h : DistinctMembers store) :
    DistinctMembers store.completeDescriptors where
  fields className := by
    rw [classFields_completeDescriptors, List.map_map]
    exact h.fields className
  methods className := by
    rw [classMethods_completeDescriptors, List.map_map]
    exact h.methods className

/-- Every row of a class for a method is the one that is found for it. -/
theorem methodRow?_of_mem (h : DistinctMembers store) {className : String} {row : MethodMapping}
    (hrow : row ∈ store.classMethods className) :
    store.methodRow? className row.name row.desc = some row := by
  obtain ⟨found, hfound⟩ : ∃ found, store.methodRow? className row.name row.desc = some found :=
    Option.isSome_iff_exists.1 (List.find?_isSome.2 ⟨row, hrow, by simp⟩)
  have hkey : (found.name, found.desc) = (row.name, row.desc) := by
    simpa using List.find?_some hfound
  rw [hfound, List.inj_on_of_nodup_map (h.methods className) (List.mem_of_find?_eq_some hfound) hrow hkey]

end DistinctMembers

/-- Whether each new name of a class leads back to the first class that has it. -/
def NamesFirst (store : Store) : Prop :=
  ∀ key, store.names.get? key = (store.classes.entries.find? (·.2 = key)).map (·.1)

theorem NamesFirst.mapClass {store : Store} (h : NamesFirst store) (himplied : store.implied = [])
    (name mapping : String) : NamesFirst (store.mapClass name mapping) := by
  rw [mapClass_eq himplied]
  split
  · exact h
  · rename_i hnew
    have hentries : (store.classes.insert name mapping).entries =
        store.classes.entries ++ [(name, mapping)] := by
      exact Table.insertEntry_of_not_mem fun hmem => hnew (Table.isSome_get?_iff.2 hmem)
    intro key
    dsimp only
    rw [Table.get?_insertIfNew, h key, hentries, List.find?_append, Option.map_or]
    congr 1
    by_cases hkey : mapping = key <;> simp [hkey]

/-- Whether every row for a method is the one that is found for it. -/
def DistinctRows (store : Store) : Prop :=
  ∀ className, ∀ row ∈ store.classMethods className,
    store.methodRow? className row.name row.desc = some row

/-- Whether the mapped types of all members have been computed from the classes. -/
structure Completed (store : Store) : Prop where
  fields : ∀ className, ∀ row ∈ store.classFields className, row.mappedDesc = store.mapType row.desc
  methods : ∀ className, ∀ row ∈ store.classMethods className,
    row.mappedDesc = store.mapType row.desc

section
variable {σ : Type} (source : NameSource σ) (reserved : List String) (graph : ClassGraph) (names : σ)

theorem distinctMembers_generated : DistinctMembers (generated source reserved graph names) := by
  refine generated_induction source (P := DistinctMembers) ?_ (.empty _)
    (fun h => h.completeDescriptors) names
  intro store next himplied hadds h
  cases hadds with
  | newClass => exact h.mapClass himplied _ _
  | newField => exact h.mapField _ _
  | newMethod => exact h.mapMethod _ _

theorem distinctRows_generated : DistinctRows (generated source reserved graph names) :=
  fun _ _ hrow => (distinctMembers_generated source reserved graph names).methodRow?_of_mem hrow

/-- A generated store leads each new name back to the first class that got it. -/
theorem namesFirst_generated : NamesFirst (generated source reserved graph names) := by
  refine generated_induction source (P := NamesFirst) ?_ (fun _ => rfl) (fun h => h) names
  intro store next himplied hadds h
  cases hadds with
  | newClass => exact h.mapClass himplied _ _
  | newField =>
    rw [mapField_eq_with]
    exact h
  | newMethod =>
    rw [mapMethod_eq_with]
    exact h

theorem completed_generated : Completed (generated source reserved graph names) where
  fields className row hrow := by
    rw [generated, classFields_completeDescriptors] at hrow
    obtain ⟨old, -, rfl⟩ := List.mem_map.1 hrow
    rfl
  methods className row hrow := by
    rw [generated, classMethods_completeDescriptors] at hrow
    obtain ⟨old, -, rfl⟩ := List.mem_map.1 hrow
    rfl

end

end JvmArchive.Mapping
