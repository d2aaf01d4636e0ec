import JvmArchive.Proofs.Mapping.Chains
import JvmArchive.Proofs.Mapping.Rows

/-!
# What generated stores describe

Generating adds one mapping after another. Each is about a class, a field or a method that the graph
declares, and no class is implied, so the names of the graph alone decide whether the keys of the flat
table can be taken apart.
-/
namespace JvmArchive
namespace Mapping.Store

variable {store : Store}

/-! ## What an insertion leaves alone -/

theorem mapField_eq_with (store : Store) (className : String) (row : FieldMapping) :
    store.mapField className row = { store with fields := (store.mapField className row).fields } := by
  unfold mapField
  split <;> rfl

theorem mapMethod_eq_with (store : Store) (className : String) (row : MethodMapping) :
    store.mapMethod className row =
      { store with methods := (store.mapMethod className row).methods } := by
  unfold mapMethod
  split <;> rfl

/-- While no class is implied, a class keeps its first mapping. -/
theorem mapClass_eq (himplied : store.implied = []) (name mapping : String) :
    store.mapClass name mapping =
      if (store.classes.get? name).isSome then store
      else
        { store with
          names := store.names.insertIfNew mapping name
          classes := store.classes.insert name mapping } := by
  unfold mapClass
  rw [hasGivenClass, Table.contains_eq_isSome, himplied]
  cases store.classes.get? name <;> simp [himplied]

theorem classFields_completeDescriptors (store : Store) (className : String) :
    store.completeDescriptors.classFields className =
      (store.classFields className).map fun row =>
        { row with mappedDesc := store.mapType row.desc } := by
  unfold completeDescriptors classFields
  rw [Table.get?_map]
  cases store.fields.get? className <;> rfl

theorem classMethods_completeDescriptors (store : Store) (className : String) :
    store.completeDescriptors.classMethods className =
      (store.classMethods className).map fun row =>
        { row with mappedDesc := store.mapType row.desc } := by
  unfold completeDescriptors classMethods
  rw [Table.get?_map]
  cases store.methods.get? className <;> rfl

end Mapping.Store

namespace ClassGraph

/-- Whether classes and their members have names as class files allow them: class names without dots
that are no array types, member names without parentheses, and method descriptors. -/
structure PlainNames (entries : List ClassEntry) : Prop where
  classes : ∀ entry ∈ entries, '.' ∉ entry.name.toList ∧ entry.name.toList.head? ≠ some '['
  fields : ∀ entry ∈ entries, ∀ field ∈ entry.fields, '(' ∉ field.name.toList
  methods : ∀ entry ∈ entries, ∀ method ∈ entry.methods,
    '(' ∉ method.name.toList ∧ Mapping.Store.StartsMethod method.desc

instance (entries : List ClassEntry) : Decidable (PlainNames entries) :=
  decidable_of_iff (_ ∧ _ ∧ _)
    ⟨fun h => ⟨h.1, h.2.1, h.2.2⟩, fun h => ⟨h.classes, h.fields, h.methods⟩⟩

end ClassGraph

namespace Mapping

open ClassGraph Store

/-- Whether a store tells only of what a graph declares, its methods among those with a property. -/
structure Describes (property : MethodEntry → Prop) (graph : ClassGraph) (store : Store) : Prop where
  direction : store.direction = .applying
  implied : store.implied = []
  classes : ∀ name, (store.classes.get? name).isSome → ∃ entry ∈ graph.toList, entry.name = name
  names : ∀ mapping name, store.names.get? mapping = some name →
    store.classes.get? name = some mapping
  fields : ∀ className, ∀ row ∈ store.classFields className,
    (∃ entry ∈ graph.toList, entry.name = className) ∧
      ∃ entry ∈ graph.toList, ∃ field ∈ entry.fields, field.name = row.name ∧ field.desc = row.desc
  methods : ∀ className, ∀ row ∈ store.classMethods className,
    ∃ entry ∈ graph.toList, entry.name = className ∧
      ∃ method ∈ entry.methods, property method ∧ method.name = row.name ∧ method.desc = row.desc

namespace Describes

variable {property : MethodEntry → Prop} {graph : ClassGraph} {store : Store}

theorem empty : Describes property graph (.empty .applying) where
  direction := rfl
  implied := rfl
  classes name h := by simp [Store.empty] at h
  names mapping name h := by simp [Store.empty] at h
  fields className row h := by simp [Store.empty, classFields] at h
  methods className row h := by simp [Store.empty, classMethods] at h

theorem mono {weaker : MethodEntry → Prop} (h : Describes property graph store)
    (himp : ∀ method, property method → weaker method) : Describes weaker graph store where
  direction := h.direction
  implied := h.implied
  classes := h.classes
  names := h.names
  fields := h.fields
  methods className row hrow := by
    obtain ⟨entry, hentry, hname, method, hmethod, hproperty, hrow⟩ := h.methods className row hrow
    exact ⟨entry, hentry, hname, method, hmethod, himp method hproperty, hrow⟩

theorem mapClass (h : Describes property graph store) {entry : ClassEntry}
    (hentry : entry ∈ graph.toList) (mapping : String) :
    Describes property graph (store.mapClass entry.name mapping) := by
  rw [mapClass_eq h.implied]
  split
  · exact h
  · rename_i hnew
    refine ⟨h.direction, h.implied, ?_, ?_, h.fields, h.methods⟩
    · intro name hname
      rw [Table.get?_insert] at hname
      split at hname
      · rename_i heq
        exact ⟨entry, hentry, heq⟩
      · exact h.classes name hname
    · intro image name himage
      rw [Table.get?_insertIfNew] at himage
      rw [Table.get?_insert]
      cases hold : store.names.get? image with
      | some old =>
        rw [hold, Option.some_or, Option.some.injEq] at himage
        subst himage
        have hgiven := h.names image old hold
        rw [if_neg]
        · exact hgiven
        · rintro rfl
          rw [hgiven] at hnew
          exact hnew rfl
      | none =>
        rw [hold, Option.none_or, Option.ite_none_right_eq_some, Option.some.injEq] at himage
        rw [if_pos himage.2, himage.1]

theorem mapField (h : Describes property graph store) {entry declaring : ClassEntry}
    {field : FieldEntry} {row : FieldMapping} (hentry : entry ∈ graph.toList)
    (hdeclaring : declaring ∈ graph.toList) (hfield : field ∈ declaring.fields)
    (hname : field.name = row.name) (hdesc : field.desc = row.desc) :
    Describes property graph (store.mapField entry.name row) where
  direction := by
    rw [mapField_eq_with]
    exact h.direction
  implied := by
    rw [mapField_eq_with]
    exact h.implied
  classes := by
    rw [mapField_eq_with]
    exact h.classes
  names := by
    rw [mapField_eq_with]
    exact h.names
  fields className other hother := by
    rw [classFields_mapField, List.mem_append] at hother
    rcases hother with hold | hnew
    · exact h.fields className other hold
    · split at hnew
      · rename_i hclass
        rw [List.mem_singleton] at hnew
        subst hnew
        exact ⟨⟨entry, hentry, hclass.1⟩, declaring, hdeclaring, field, hfield, hname, hdesc⟩
      · simp at hnew
  methods := by simpa using h.methods

theorem mapMethod (h : Describes property graph store) {entry : ClassEntry} {method : MethodEntry}
    {row : MethodMapping} (hentry : entry ∈ graph.toList) (hmethod : method ∈ entry.methods)
    (hproperty : property method) (hname : method.name = row.name) (hdesc : method.desc = row.desc) :
    Describes property graph (store.mapMethod entry.name row) where
  direction := by
    rw [mapMethod_eq_with]
    exact h.direction
  implied := by
    rw [mapMethod_eq_with]
    exact h.implied
  classes := by
    rw [mapMethod_eq_with]
    exact h.classes
  names := by
    rw [mapMethod_eq_with]
    exact h.names
  fields := by simpa using h.fields
  methods className other hother := by
    rw [classMethods_mapMethod, List.mem_append] at hother
    rcases hother with hold | hnew
    · exact h.methods className other hold
    · split at hnew
      · rename_i hclass
        rw [List.mem_singleton] at hnew
        subst hnew
        exact ⟨entry, hentry, hclass.1, method, hmethod, hproperty, hname, hdesc⟩
      · simp at hnew

theorem completeDescriptors (h : Describes property graph store) :
    Describes property graph store.completeDescriptors where
  direction := h.direction
  implied := h.implied
  classes := h.classes
  names := h.names
  fields className row hrow := by
    rw [classFields_completeDescriptors] at hrow
    obtain ⟨old, hold, rfl⟩ := List.mem_map.1 hrow
    exact h.fields className old hold
  methods className row hrow := by
    rw [classMethods_completeDescriptors] at hrow
    obtain ⟨old, hold, rfl⟩ := List.mem_map.1 hrow
    exact h.methods className old hold

/-- What a store describes has the names of the graph. -/
theorem plain (h : Describes property graph store) (hplain : PlainNames graph.toList) :
    store.Plain where
  classes name hname := by
    obtain ⟨entry, hentry, rfl⟩ := h.classes name hname
    exact (hplain.classes entry hentry).1
  fields className row hrow := by
    obtain ⟨⟨entry, hentry, rfl⟩, declaring, hdeclaring, field, hfield, hname, -⟩ :=
      h.fields className row hrow
    exact ⟨(hplain.classes entry hentry).1, hname ▸ hplain.fields declaring hdeclaring field hfield⟩
  methods className row hrow := by
    obtain ⟨entry, hentry, rfl, method, hmethod, -, hname, hdesc⟩ := h.methods className row hrow
    obtain ⟨hopen, hstarts⟩ := hplain.methods entry hentry method hmethod
    exact ⟨(hplain.classes entry hentry).1, hname ▸ hopen, hdesc ▸ hstarts⟩

end Describes

/-! ## The steps of generating -/

section
variable {σ : Type} (source : NameSource σ) {reserved : List String} {graph : ClassGraph}

/-- The methods that get a name of their own: those that override nothing and may be renamed. -/
def IsNamed (reserved : List String) (method : MethodEntry) : Prop :=
  method.base = none ∧ isChangeable reserved method = true

theorem describes_mapClassName {state : Store × σ} {entry : ClassEntry}
    (h : Describes (IsNamed reserved) graph state.1) (hentry : entry ∈ graph.toList) :
    Describes (IsNamed reserved) graph (mapClassName source graph entry state).1 := by
  unfold mapClassName
  dsimp only
  split
  · exact h
  · exact h.mapClass hentry _

theorem describes_mapDeclaredField {state : Store × σ} {entry : ClassEntry} {field : FieldEntry}
    (h : Describes (IsNamed reserved) graph state.1) (hentry : entry ∈ graph.toList)
    (hfield : field ∈ entry.fields) :
    Describes (IsNamed reserved) graph (mapDeclaredField source entry.name state field).1 :=
  h.mapField hentry hentry hfield rfl rfl

theorem describes_mapDeclaredMethod {state : Store × σ} {entry : ClassEntry} {method : MethodEntry}
    (h : Describes (IsNamed reserved) graph state.1) (hentry : entry ∈ graph.toList)
    (hmethod : method ∈ entry.methods) :
    Describes (IsNamed reserved) graph
      (mapDeclaredMethod source reserved entry.name state method).1 := by
  unfold mapDeclaredMethod
  split
  · exact h
  · rename_i hnamed
    refine h.mapMethod hentry hmethod ?_ rfl rfl
    simpa [IsNamed, Option.isSome_eq_false_iff] using hnamed

theorem describes_mapDeclarations {state : Store × σ} {entry : ClassEntry}
    (h : Describes (IsNamed reserved) graph state.1) (hentry : entry ∈ graph.toList) :
    Describes (IsNamed reserved) graph (mapDeclarations source reserved graph state entry).1 := by
  unfold mapDeclarations
  dsimp only
  refine List.foldlRecOn entry.methods _ (motive := fun state : Store × σ =>
    Describes (IsNamed reserved) graph state.1) ?_ fun state hstate method hmethod =>
      describes_mapDeclaredMethod source hstate hentry hmethod
  split
  · exact describes_mapClassName source h hentry
  · exact List.foldlRecOn entry.fields _ (motive := fun state : Store × σ =>
      Describes (IsNamed reserved) graph state.1) (describes_mapClassName source h hentry)
        fun state hstate field hfield => describes_mapDeclaredField source hstate hentry hfield

theorem mem_of_mem_classOrder {place : ClassId × ClassEntry} (h : place ∈ classOrder graph) :
    place ∈ graph.enumerate := by
  unfold classOrder at h
  simp only [List.partition_eq_filter_filter, List.mem_append, List.mem_mergeSort,
    List.mem_filter] at h
  rcases h with h | h
  · exact h.1
  · exact h.1

theorem at?_of_mem_enumerate {place : ClassId × ClassEntry} (h : place ∈ graph.enumerate) :
    graph.at? place.1 = some place.2 := by
  obtain ⟨⟨entry, index⟩, hmem, rfl⟩ := List.mem_map.1 h
  rw [at?_eq_getElem?]
  exact List.mem_zipIdx_iff_getElem?.1 hmem

theorem mem_of_mem_enumerate {place : ClassId × ClassEntry} (h : place ∈ graph.enumerate) :
    place.2 ∈ graph.toList :=
  mem_of_at? (at?_of_mem_enumerate h)

/-- The store and the names once every class has been declared. -/
def declareAll (reserved : List String) (graph : ClassGraph) (names : σ) : Store × σ :=
  (classOrder graph).foldl (fun state place =>
    mapDeclarations source reserved graph state place.2) (.empty .applying, names)

theorem describes_declareAll (names : σ) :
    Describes (IsNamed reserved) graph (declareAll source reserved graph names).1 :=
  List.foldlRecOn (classOrder graph) _
    (motive := fun state : Store × σ => Describes (IsNamed reserved) graph state.1) .empty
    fun _ hstate _ hplace => describes_mapDeclarations source hstate
      (mem_of_mem_enumerate (mem_of_mem_classOrder hplace))

end

section
variable {graph : ClassGraph} {store : Store}

/-- An override gets a mapping that the store has already. -/
theorem exists_row_of_rootMapping? {method : MethodEntry} {mapping : String}
    (h : rootMapping? graph store method = some mapping) :
    ∃ owner, ∃ row ∈ store.classMethods owner, row.mapping = mapping := by
  simp only [rootMapping?, Option.bind_eq_bind, Option.pure_def, Option.bind_eq_some_iff,
    Option.some.injEq] at h
  obtain ⟨-, -, owner, -, declared, -, row, hrow, rfl⟩ := h
  exact ⟨store.memberKey owner, row, List.mem_of_find?_eq_some hrow, rfl⟩

/-- What every mapping of an override keeps, mapping the overrides of a class keeps. -/
theorem mapOverrides_induction {P : Store → Prop} {entry : ClassEntry} (hstart : P store)
    (hstep : ∀ store, P store → ∀ method ∈ entry.methods, ∀ owner, ∀ row ∈ store.classMethods owner,
      P (store.mapMethod entry.name
        { name := method.name, mapping := row.mapping, desc := method.desc })) :
    P (mapOverrides graph store entry) := by
  refine List.foldlRecOn entry.methods _ (motive := P) hstart fun store hstore method hmethod => ?_
  cases hroot : rootMapping? graph store method with
  | none => simpa only [hroot] using hstore
  | some mapping =>
    obtain ⟨owner, row, hrow, rfl⟩ := exists_row_of_rootMapping? hroot
    simpa only [hroot] using hstep store hstore method hmethod owner row hrow

/-- What every mapping of an inherited field keeps, mapping the fields that a class inherits keeps. Such
a field comes with a mapping that the store has already. -/
theorem mapInheritedFields_induction {P : Store → Prop} {place : ClassId × ClassEntry}
    (hstart : P store)
    (hstep : ∀ store, P store → ∀ owner, ∀ row ∈ store.classFields owner,
      P (store.mapField place.2.name row)) :
    P (mapInheritedFields graph store place) := by
  refine List.foldlRecOn _ _ (motive := P) hstart fun store hstore ⟨above, declaring⟩ _ => ?_
  dsimp only
  split
  · exact hstore
  · refine List.foldlRecOn _ _ (motive := P) hstore fun store hstore field _ => ?_
    split
    · rename_i row hrow
      exact hstep store hstore _ row (List.mem_of_find?_eq_some hrow)
    · exact hstore

theorem describes_mapOverrides {entry : ClassEntry} (h : Describes (fun _ => True) graph store)
    (hentry : entry ∈ graph.toList) :
    Describes (fun _ => True) graph (mapOverrides graph store entry) :=
  mapOverrides_induction h fun _ hstore _ hmethod _ _ _ =>
    hstore.mapMethod hentry hmethod trivial rfl rfl

/-- A field that a store knows is one that the graph declares. -/
theorem describes_mapInheritedFields {place : ClassId × ClassEntry}
    (h : Describes (fun _ => True) graph store) (hplace : place ∈ graph.enumerate) :
    Describes (fun _ => True) graph (mapInheritedFields graph store place) := by
  refine mapInheritedFields_induction h fun store hstore owner row hrow => ?_
  obtain ⟨-, declaring, hdeclaring, declared, hdeclared, hname, hdesc⟩ := hstore.fields owner row hrow
  exact hstore.mapField (mem_of_mem_enumerate hplace) hdeclaring hdeclared hname hdesc

end

/-! ## Generated stores -/

section
variable {σ : Type} (source : NameSource σ) (reserved : List String) (graph : ClassGraph) (names : σ)

/-- The store once the overrides have been mapped. -/
def overrideAll : Store :=
  graph.toList.foldl (mapOverrides graph) (declareAll source reserved graph names).1

/-- The store once the inherited fields have been mapped. -/
def inheritAll : Store :=
  graph.enumerate.foldl (mapInheritedFields graph) (overrideAll source reserved graph names)

/-- The store that generating gives. -/
def generated : Store := (inheritAll source reserved graph names).completeDescriptors

/-- Generating for a resolved graph succeeds. -/
theorem generate_eq_ok (hresolved : graph.resolved = true) :
    generate source reserved graph names =
      .ok (generated source reserved graph names, (declareAll source reserved graph names).2) := by
  rw [generate, generateInto, hresolved]
  rfl

theorem describes_overrideAll :
    Describes (fun _ => True) graph (overrideAll source reserved graph names) :=
  List.foldlRecOn graph.toList _ ((describes_declareAll source names).mono fun _ _ => trivial)
    fun _ hstore _ hentry => describes_mapOverrides hstore hentry

theorem describes_inheritAll :
    Describes (fun _ => True) graph (inheritAll source reserved graph names) :=
  List.foldlRecOn graph.enumerate _ (describes_overrideAll source reserved graph names)
    fun _ hstore _ hplace => describes_mapInheritedFields hstore hplace

theorem describes_generated :
    Describes (fun _ => True) graph (generated source reserved graph names) :=
  (describes_inheritAll source reserved graph names).completeDescriptors

end

end Mapping
end JvmArchive
