import JvmArchive.Proofs.Mapping.Consistency

/-!
# Inherited fields in generated stores

The flat table knows one mapping for each name of a field in a class, that of the first row. A class
that does not declare a name itself has it from the first of its ancestors that does: its first row for
the name is the first row of that ancestor, unless the ancestor is an enum, whose fields get no rows of
their own.
-/
namespace JvmArchive.Mapping

open ClassGraph

namespace Store

/-- The first row of a class for a field of a name, whatever its type is. -/
def firstRow? (store : Store) (className name : String) : Option FieldMapping :=
  (store.classFields className).find? (·.name == name)

variable {store : Store}

/-- A field mapping is the first for its name if there has been none. -/
theorem firstRow?_mapField (store : Store) (className other name : String) (row : FieldMapping) :
    (store.mapField className row).firstRow? other name =
      (store.firstRow? other name).or
        (if className = other ∧ row.name = name then some row else none) := by
  rw [firstRow?, classFields_mapField, List.find?_append, ← firstRow?]
  by_cases h : className = other ∧ row.name = name
  · obtain ⟨rfl, rfl⟩ := h
    cases hrow : store.fieldRow? className row.name row.desc with
    | none => simp
    | some found =>
      have hfound := List.find?_some hrow
      rw [Bool.and_eq_true] at hfound
      have hsome : (store.firstRow? className row.name).isSome :=
        List.find?_isSome.2 ⟨found, List.mem_of_find?_eq_some hrow, hfound.1⟩
      obtain ⟨first, hfirst⟩ := Option.isSome_iff_exists.1 hsome
      simp [hfirst]
  · rw [if_neg h]
    congr 1
    split
    · rename_i hnew
      have hname : row.name ≠ name := fun hname => h ⟨hnew.1, hname⟩
      simp [hname]
    · rfl

@[simp]
theorem firstRow?_mapMethod (store : Store) (className other name : String) (row : MethodMapping) :
    (store.mapMethod className row).firstRow? other name = store.firstRow? other name := by
  rw [firstRow?, classFields_mapMethod, firstRow?]

@[simp]
theorem firstRow?_mapClass (himplied : store.implied = []) (className mapping other name : String) :
    (store.mapClass className mapping).firstRow? other name = store.firstRow? other name := by
  rw [mapClass_eq himplied]
  split <;> rfl

/-- A first match of a weaker predicate that has the stronger one is the first match of that too. -/
theorem find?_eq_some_of_imp {α : Type} {p q : α → Bool} {items : List α} {item : α}
    (h : items.find? q = some item) (hp : p item = true) (himp : ∀ x, p x = true → q x = true) :
    items.find? p = some item := by
  obtain ⟨-, before, after, rfl, hbefore⟩ := List.find?_eq_some_iff_append.1 h
  refine List.find?_eq_some_iff_append.2 ⟨hp, before, after, rfl, fun x hx => ?_⟩
  have hx := hbefore x hx
  rw [Bool.not_eq_true'] at hx ⊢
  exact Bool.eq_false_iff.2 fun hpx => by rw [himp x hpx] at hx; exact absurd hx (by simp)

/-- A lookup by the type of the first row finds the first row. -/
theorem field?_of_firstRow? {owner name desc : String} {row : FieldMapping}
    (hkey : store.memberKey owner = owner) (h : store.firstRow? owner name = some row)
    (hdesc : row.desc = desc) : store.field? owner name desc = some row := by
  rw [field?, fieldsOf, hkey]
  refine find?_eq_some_of_imp h ?_ fun other hother => ?_
  · have hname := List.find?_some h
    simp [hname, hdesc]
  · rw [Bool.and_eq_true] at hother
    exact hother.1

end Store

open Store

section
variable {σ : Type} (source : NameSource σ) {reserved : List String} {graph : ClassGraph}

/-! ## Rows of declared fields -/

theorem foldl_mapDeclaredField (className other name : String) (fields : List FieldEntry)
    (state : Store × σ) :
    ∃ row : Option FieldMapping,
      (fields.foldl (mapDeclaredField source className) state).1.firstRow? other name =
          (state.1.firstRow? other name).or (if className = other then row else none) ∧
        row.map (·.desc) = (fields.find? (·.name == name)).map (·.desc) := by
  induction fields generalizing state with
  | nil => exact ⟨none, by simp⟩
  | cons field fields ih =>
    obtain ⟨row, hrow, hdesc⟩ := ih (mapDeclaredField source className state field)
    rw [List.foldl_cons, hrow, mapDeclaredField, firstRow?_mapField]
    by_cases hname : field.name = name
    · refine ⟨some { name := field.name, mapping := (source.draw .fields state.2).1
                     desc := field.desc }, ?_, by simp [hname]⟩
      by_cases hclass : className = other <;> simp [hname, hclass]
    · exact ⟨row, by simp [hname], by simpa [hname] using hdesc⟩

theorem firstRow?_mapClassName {state : Store × σ} {entry : ClassEntry}
    (himplied : state.1.implied = []) (other name : String) :
    (mapClassName source graph entry state).1.firstRow? other name =
      state.1.firstRow? other name := by
  unfold mapClassName
  dsimp only
  split
  · rfl
  · exact firstRow?_mapClass himplied _ _ _ _

theorem firstRow?_mapDeclaredMethod (className : String) (state : Store × σ) (method : MethodEntry)
    (other name : String) :
    (mapDeclaredMethod source reserved className state method).1.firstRow? other name =
      state.1.firstRow? other name := by
  unfold mapDeclaredMethod
  split
  · rfl
  · exact firstRow?_mapMethod _ _ _ _ _

/-- Declaring a class gives it rows for the fields that it declares, unless it is an enum. -/
theorem firstRow?_mapDeclarations (reserved : List String) {state : Store × σ} (entry : ClassEntry)
    (himplied : state.1.implied = []) (other name : String) :
    ∃ row : Option FieldMapping,
      (mapDeclarations source reserved graph state entry).1.firstRow? other name =
          (state.1.firstRow? other name).or (if entry.name = other then row else none) ∧
        (entry.access.isEnum = false →
          row.map (·.desc) = (entry.fields.find? (·.name == name)).map (·.desc)) ∧
        (entry.fields.find? (·.name == name) = none → row = none) := by
  have hmethods : ∀ state : Store × σ,
      (entry.methods.foldl (mapDeclaredMethod source reserved entry.name) state).1.firstRow? other
        name = state.1.firstRow? other name := by
    intro state
    exact List.foldlRecOn entry.methods _
      (motive := fun after : Store × σ => after.1.firstRow? other name = state.1.firstRow? other name)
      rfl fun after hafter method _ => (firstRow?_mapDeclaredMethod source _ _ _ _ _).trans hafter
  unfold mapDeclarations
  dsimp only
  rw [hmethods]
  split
  · rename_i henum
    refine ⟨none, ?_, fun h => absurd henum (by simp [h]), fun _ => rfl⟩
    simpa using firstRow?_mapClassName source himplied other name
  · obtain ⟨row, hrow, hdesc⟩ := foldl_mapDeclaredField source entry.name other name entry.fields
      ((mapClassName source graph entry state).1,
        source.enterClass (mapClassName source graph entry state).2)
    refine ⟨row, by rw [hrow, firstRow?_mapClassName source himplied], fun _ => hdesc, fun h => ?_⟩
    rw [h, Option.map_none, Option.map_eq_none_iff] at hdesc
    exact hdesc

theorem mem_classOrder {place : ClassId × ClassEntry} (h : place ∈ graph.enumerate) :
    place ∈ classOrder graph := by
  unfold classOrder
  simp only [List.partition_eq_filter_filter, List.mem_append, List.mem_mergeSort, List.mem_filter]
  cases hinner : place.2.isInner <;> simp [h, hinner]

theorem mem_enumerate_of_at? {id : ClassId} {entry : ClassEntry} (h : graph.at? id = some entry) :
    (id, entry) ∈ graph.enumerate := by
  rw [at?_eq_getElem?] at h
  exact List.mem_map.2 ⟨(entry, id.index), List.mem_zipIdx_iff_getElem?.2 h, rfl⟩

theorem eq_of_name_eq (hkeeps : graph.KeepsNames) {entry other : ClassEntry}
    (hentry : entry ∈ graph.toList) (hother : other ∈ graph.toList) (h : entry.name = other.name) :
    entry = other :=
  List.inj_on_of_nodup_map hkeeps.nodup hentry hother h

/-- Declaring a class that is no enum gives it a first row for its first field with a name. -/
theorem exists_firstRow?_mapDeclarations (hkeeps : graph.KeepsNames) {state : Store × σ}
    (himplied : state.1.implied = []) {entry declaring : ClassEntry} {field : FieldEntry}
    {name : String} (hentry : entry ∈ graph.toList) (hdeclaring : declaring ∈ graph.toList)
    (henum : declaring.access.isEnum = false)
    (hfield : declaring.fields.find? (·.name == name) = some field) :
    ∃ row : FieldMapping, row.desc = field.desc ∧
      (mapDeclarations source reserved graph state entry).1.firstRow? declaring.name name =
        (state.1.firstRow? declaring.name name).or
          (if entry.name = declaring.name then some row else none) := by
  obtain ⟨row, hrow, hdesc, -⟩ :=
    firstRow?_mapDeclarations source reserved entry himplied declaring.name name
  by_cases hname : entry.name = declaring.name
  · obtain rfl := eq_of_name_eq hkeeps hentry hdeclaring hname
    have hdesc := hdesc henum
    rw [hfield, Option.map_some] at hdesc
    obtain ⟨found, rfl, hfound⟩ := Option.map_eq_some_iff.1 hdesc
    exact ⟨found, hfound, hrow⟩
  · exact ⟨{ name, mapping := name, desc := field.desc }, rfl, by rw [hrow, if_neg hname, if_neg hname]⟩

/-- Once all classes have been declared, the first row of a class that is no enum is for its first field
with the name. -/
theorem firstRow?_declareAll (names : σ) (hkeeps : graph.KeepsNames) {id : ClassId}
    {declaring : ClassEntry} {field : FieldEntry} {name : String}
    (hdeclaring : graph.at? id = some declaring) (henum : declaring.access.isEnum = false)
    (hfield : declaring.fields.find? (·.name == name) = some field) :
    ∃ row, (declareAll source reserved graph names).1.firstRow? declaring.name name = some row ∧
      row.desc = field.desc := by
  let P := fun state : Store × σ => Describes (IsNamed reserved) graph state.1 ∧
    ∀ row, state.1.firstRow? declaring.name name = some row → row.desc = field.desc
  let Q := fun (place : ClassId × ClassEntry) (state : Store × σ) =>
    place.2.name = declaring.name → (state.1.firstRow? declaring.name name).isSome
  let step := fun (state : Store × σ) (place : ClassId × ClassEntry) =>
    mapDeclarations source reserved graph state place.2
  have hrows : ∀ state, P state → ∀ place ∈ classOrder graph, ∃ row : FieldMapping,
      row.desc = field.desc ∧ (step state place).1.firstRow? declaring.name name =
        (state.1.firstRow? declaring.name name).or
          (if place.2.name = declaring.name then some row else none) :=
    fun state hstate place hplace => exists_firstRow?_mapDeclarations source hkeeps hstate.1.implied
      (mem_of_mem_enumerate (mem_of_mem_classOrder hplace)) (mem_of_at? hdeclaring) henum hfield
  have hstep : ∀ state, P state → ∀ place ∈ classOrder graph,
      P (step state place) ∧ Q place (step state place) := by
    intro state hstate place hplace
    obtain ⟨row, hdesc, hrow⟩ := hrows state hstate place hplace
    refine ⟨⟨?_, fun other hother => ?_⟩, fun hname => ?_⟩
    · exact describes_mapDeclarations source hstate.1
        (mem_of_mem_enumerate (mem_of_mem_classOrder hplace))
    · rw [hrow, Option.or_eq_some_iff] at hother
      rcases hother with hold | ⟨-, hnew⟩
      · exact hstate.2 other hold
      · rw [Option.ite_none_right_eq_some, Option.some.injEq] at hnew
        exact hnew.2 ▸ hdesc
    · rw [hrow, if_pos hname, Option.isSome_or]
      simp
  have hkeep : ∀ state, P state → ∀ place ∈ classOrder graph,
      ∀ other, Q other state → Q other (step state place) := by
    intro state hstate place hplace other hother hname
    obtain ⟨row, -, hrow⟩ := hrows state hstate place hplace
    rw [hrow, Option.isSome_or, hother hname, Bool.true_or]
  have hstart : P (.empty .applying, names) :=
    ⟨.empty, fun row hrow => by simp [firstRow?, classFields, Store.empty] at hrow⟩
  obtain ⟨hall, hsettled⟩ := foldl_settles (classOrder graph) hstart hstep hkeep
  obtain ⟨row, hrow⟩ := Option.isSome_iff_exists.1
    (hsettled (id, declaring) (mem_classOrder (mem_enumerate_of_at? hdeclaring)) rfl)
  exact ⟨row, hrow, hall.2 row hrow⟩

/-- A class has no row for a name that it does not declare, until it inherits one. -/
theorem firstRow?_declareAll_eq_none (names : σ) (hkeeps : graph.KeepsNames) {entry : ClassEntry}
    {name : String} (hentry : entry ∈ graph.toList)
    (hown : entry.fields.find? (·.name == name) = none) :
    (declareAll source reserved graph names).1.firstRow? entry.name name = none := by
  let P := fun state : Store × σ => Describes (IsNamed reserved) graph state.1 ∧
    state.1.firstRow? entry.name name = none
  have hstart : P (.empty .applying, names) := ⟨.empty, by simp [firstRow?, classFields, Store.empty]⟩
  refine (List.foldlRecOn (classOrder graph) _ (motive := P) hstart
    fun state hstate place hplace => ?_).2
  have hmem := mem_of_mem_enumerate (mem_of_mem_classOrder hplace)
  refine ⟨describes_mapDeclarations source hstate.1 hmem, ?_⟩
  obtain ⟨row, hrow, -, hnone⟩ :=
    firstRow?_mapDeclarations source reserved place.2 hstate.1.implied entry.name name
  rw [hrow, hstate.2, Option.none_or]
  split
  · rename_i hname
    exact hnone (eq_of_name_eq hkeeps hmem hentry hname ▸ hown)
  · rfl

end

/-! ## Rows of inherited fields -/

section
variable {graph : ClassGraph}

/-- Maps a field of an owner under another class. -/
def inheritField (className owner : String) (store : Store) (field : FieldEntry) : Store :=
  (store.field? owner field.name field.desc).elim store (store.mapField className)

/-- Maps the fields of one ancestor under a class. -/
def inheritFields (graph : ClassGraph) (className : String) (store : Store)
    (above : ClassId × ClassEntry) : Store :=
  (graph.nameOf? above.1).elim store fun owner =>
    above.2.fields.foldl (inheritField className owner) store

theorem mapInheritedFields_eq (store : Store) (place : ClassId × ClassEntry) :
    mapInheritedFields graph store place =
      (graph.ancestorEntries place.1).foldl (inheritFields graph place.2.name) store := by
  unfold mapInheritedFields
  congr 1
  funext store above
  obtain ⟨id, declaring⟩ := above
  dsimp only [inheritFields]
  cases graph.nameOf? id with
  | none => rfl
  | some owner =>
    dsimp only [Option.elim_some]
    congr 1
    funext store field
    rw [inheritField]
    cases store.field? owner field.name field.desc <;> rfl

theorem firstRow?_inheritField (className owner other name : String) (store : Store)
    (field : FieldEntry) :
    (inheritField className owner store field).firstRow? other name =
      (store.firstRow? other name).or
        (if className = other ∧ field.name = name then
          store.field? owner field.name field.desc else none) := by
  rw [inheritField]
  cases hrow : store.field? owner field.name field.desc with
  | none => simp
  | some row =>
    have hname := List.find?_some hrow
    rw [Bool.and_eq_true, beq_iff_eq] at hname
    rw [Option.elim_some, firstRow?_mapField, hname.1]

/-- What is kept about a class while fields are inherited from it: its first row for a name. -/
structure Offers (store : Store) (owner name : String) (row : FieldMapping) : Prop where
  keyed : store.memberKey owner = owner
  first : store.firstRow? owner name = some row

variable {store : Store} {owner name : String} {row : FieldMapping}

theorem Offers.mapField (h : Offers store owner name row) (className : String)
    (other : FieldMapping) : Offers (store.mapField className other) owner name row where
  keyed := by
    rw [mapField_eq_with]
    exact h.keyed
  first := by rw [firstRow?_mapField, h.first, Option.some_or]

theorem Offers.inheritField (h : Offers store owner name row) (className other : String)
    (field : FieldEntry) : Offers (inheritField className other store field) owner name row := by
  rw [Mapping.inheritField]
  cases store.field? other field.name field.desc with
  | none => exact h
  | some found => exact h.mapField className found

theorem Offers.inheritFields (h : Offers store owner name row) (className : String)
    (above : ClassId × ClassEntry) :
    Offers (inheritFields graph className store above) owner name row := by
  rw [Mapping.inheritFields]
  cases graph.nameOf? above.1 with
  | none => exact h
  | some other =>
    exact List.foldlRecOn above.2.fields _ (motive := fun store => Offers store owner name row) h
      fun store hstore field _ => hstore.inheritField className other field

theorem Offers.mapInheritedFields (h : Offers store owner name row)
    (place : ClassId × ClassEntry) :
    Offers (mapInheritedFields graph store place) owner name row :=
  mapInheritedFields_induction (P := fun store => Offers store owner name row) h
    fun _ hstore _ other _ => hstore.mapField place.2.name other

/-- Fields with other names are no rows for a name. -/
theorem firstRow?_inheritFields_of_ne {className : String} {above : ClassId × ClassEntry}
    (h : ∀ field ∈ above.2.fields, field.name ≠ name) (other : String) :
    (inheritFields graph className store above).firstRow? other name =
      store.firstRow? other name := by
  rw [inheritFields]
  cases graph.nameOf? above.1 with
  | none => rfl
  | some owner =>
    refine List.foldlRecOn above.2.fields _
      (motive := fun after : Store => after.firstRow? other name = store.firstRow? other name) rfl
        fun after hafter field hfield => ?_
    rw [firstRow?_inheritField, if_neg fun hname => h field hfield hname.2, Option.or_none]
    exact hafter

/-- A class without a row for a name gets the first row of an owner once the owner's first field with
the name is mapped under it. -/
theorem firstRow?_foldl_inheritField {className : String} {fields : List FieldEntry}
    {field : FieldEntry} (hoffers : Offers store owner name row)
    (hfield : fields.find? (·.name == name) = some field) (hdesc : row.desc = field.desc)
    (hrow : store.firstRow? className name = none ∨ store.firstRow? className name = some row) :
    (fields.foldl (inheritField className owner) store).firstRow? className name = some row := by
  induction fields generalizing store with
  | nil => simp at hfield
  | cons other fields ih =>
    rw [List.foldl_cons]
    have hnext := hoffers.inheritField className owner other
    have hfirst := firstRow?_inheritField className owner className name store other
    by_cases hname : other.name = name
    · obtain rfl : other = field := by simpa [hname] using hfield
      have hfound : store.field? owner other.name other.desc = some row := by
        rw [hname]
        exact field?_of_firstRow? hoffers.keyed hoffers.first hdesc
      rw [if_pos ⟨rfl, hname⟩, hfound] at hfirst
      have hgets : (inheritField className owner store other).firstRow? className name = some row := by
        rw [hfirst]
        rcases hrow with hnone | hsome
        · rw [hnone, Option.none_or]
        · rw [hsome, Option.some_or]
      exact List.foldlRecOn fields _
        (motive := fun after : Store => after.firstRow? className name = some row) hgets
          fun after hafter field _ => by rw [firstRow?_inheritField, hafter, Option.some_or]
    · rw [if_neg fun h => hname h.2, Option.or_none] at hfirst
      refine ih hnext (by simpa [hname] using hfield) ?_
      rw [hfirst]
      exact hrow

theorem firstRow?_inheritFields (className : String) {above : ClassId × ClassEntry}
    {field : FieldEntry} (hoffers : Offers store owner name row)
    (hname : graph.nameOf? above.1 = some owner)
    (hfield : above.2.fields.find? (·.name == name) = some field) (hdesc : row.desc = field.desc)
    (hrow : store.firstRow? className name = none ∨ store.firstRow? className name = some row) :
    (inheritFields graph className store above).firstRow? className name = some row := by
  rw [inheritFields, hname, Option.elim_some]
  exact firstRow?_foldl_inheritField hoffers hfield hdesc hrow

/-- A class gets the first row of the nearest ancestor that declares a name. -/
theorem firstRow?_mapInheritedFields {place above : ClassId × ClassEntry} {field : FieldEntry}
    {before after : List (ClassId × ClassEntry)} (hoffers : Offers store owner name row)
    (hsplit : graph.ancestorEntries place.1 = before ++ above :: after)
    (hbefore : ∀ other ∈ before, ∀ field ∈ other.2.fields, field.name ≠ name)
    (hname : graph.nameOf? above.1 = some owner)
    (hfield : above.2.fields.find? (·.name == name) = some field) (hdesc : row.desc = field.desc)
    (hrow : store.firstRow? place.2.name name = none ∨
      store.firstRow? place.2.name name = some row) :
    (mapInheritedFields graph store place).firstRow? place.2.name name = some row := by
  rw [mapInheritedFields_eq, hsplit, List.foldl_append, List.foldl_cons]
  let P := fun after : Store => Offers after owner name row ∧
    after.firstRow? place.2.name name = store.firstRow? place.2.name name
  have hstart : P (before.foldl (inheritFields graph place.2.name) store) := by
    refine List.foldlRecOn before _ (motive := P) ⟨hoffers, rfl⟩ fun after hafter other hother => ?_
    refine ⟨hafter.1.inheritFields _ _, ?_⟩
    rw [firstRow?_inheritFields_of_ne (hbefore other hother), hafter.2]
  have hgets := firstRow?_inheritFields place.2.name hstart.1 hname hfield hdesc
    (by rw [hstart.2]; exact hrow)
  refine List.foldlRecOn after _
    (motive := fun after : Store => after.firstRow? place.2.name name = some row) hgets
      fun after hafter other _ => ?_
  rw [inheritFields]
  cases graph.nameOf? other.1 with
  | none => exact hafter
  | some owner =>
    exact List.foldlRecOn other.2.fields _
      (motive := fun after : Store => after.firstRow? place.2.name name = some row) hafter
        fun after hafter field _ => by rw [firstRow?_inheritField, hafter, Option.some_or]

theorem Offers.mapMethod (h : Offers store owner name row) (className : String)
    (method : MethodMapping) : Offers (store.mapMethod className method) owner name row where
  keyed := by
    rw [mapMethod_eq_with]
    exact h.keyed
  first := by rw [firstRow?_mapMethod, h.first]

theorem firstRow?_completeDescriptors (store : Store) (className name : String) :
    (store.completeDescriptors.firstRow? className name).map (·.mapping) =
      (store.firstRow? className name).map (·.mapping) := by
  rw [firstRow?, firstRow?, classFields_completeDescriptors, List.find?_map, Option.map_map]
  rfl

/-- Once the overrides have been mapped, inheriting gives a class the first row of the nearest ancestor
that declares a name. -/
theorem firstRow?_foldl_mapInheritedFields (hkeeps : graph.KeepsNames) {id : ClassId}
    {entry : ClassEntry} {above : ClassId × ClassEntry} {field : FieldEntry}
    {before after : List (ClassId × ClassEntry)} (hentry : graph.at? id = some entry)
    (hoffers : Offers store owner name row)
    (hsplit : graph.ancestorEntries id = before ++ above :: after)
    (hbefore : ∀ other ∈ before, ∀ field ∈ other.2.fields, field.name ≠ name)
    (hname : graph.nameOf? above.1 = some owner)
    (hfield : above.2.fields.find? (·.name == name) = some field) (hdesc : row.desc = field.desc)
    (hrow : store.firstRow? entry.name name = none) :
    let inherited := graph.enumerate.foldl (mapInheritedFields graph) store
    inherited.firstRow? entry.name name = some row ∧ Offers inherited owner name row := by
  intro inherited
  let P := fun store : Store => Offers store owner name row ∧
    (store.firstRow? entry.name name = none ∨ store.firstRow? entry.name name = some row)
  let Q := fun (place : ClassId × ClassEntry) (store : Store) =>
    place.2.name = entry.name → store.firstRow? entry.name name = some row
  have hgets : ∀ store, P store → ∀ place ∈ graph.enumerate, place.2.name = entry.name →
      (mapInheritedFields graph store place).firstRow? entry.name name = some row := by
    intro store hstore place hplace hsame
    have hat := at?_of_mem_enumerate hplace
    have heq : place.2 = entry :=
      eq_of_name_eq hkeeps (mem_of_mem_enumerate hplace) (mem_of_at? hentry) hsame
    have hancestors : graph.ancestorEntries place.1 = graph.ancestorEntries id := by
      rw [ancestorEntries, ancestorEntries, hat, hentry, heq]
    subst heq
    exact firstRow?_mapInheritedFields hstore.1 (hancestors.trans hsplit) hbefore hname hfield hdesc
      hstore.2
  have hother : ∀ store, ∀ place : ClassId × ClassEntry, place.2.name ≠ entry.name →
      (mapInheritedFields graph store place).firstRow? entry.name name =
        store.firstRow? entry.name name := by
    intro store place hne
    refine mapInheritedFields_induction
      (P := fun after => after.firstRow? entry.name name = store.firstRow? entry.name name) rfl
        fun after hafter _ other _ => ?_
    rw [firstRow?_mapField, if_neg fun h => hne h.1, Option.or_none]
    exact hafter
  have hstep : ∀ store, P store → ∀ place ∈ graph.enumerate,
      P (mapInheritedFields graph store place) ∧ Q place (mapInheritedFields graph store place) := by
    intro store hstore place hplace
    refine ⟨⟨hstore.1.mapInheritedFields place, ?_⟩, hgets store hstore place hplace⟩
    by_cases hsame : place.2.name = entry.name
    · exact .inr (hgets store hstore place hplace hsame)
    · rw [hother store place hsame]
      exact hstore.2
  have hkeep : ∀ store, P store → ∀ place ∈ graph.enumerate,
      ∀ other, Q other store → Q other (mapInheritedFields graph store place) := by
    intro store hstore place hplace other hsettled hsame
    by_cases hplaceName : place.2.name = entry.name
    · exact hgets store hstore place hplace hplaceName
    · rw [hother store place hplaceName]
      exact hsettled hsame
  obtain ⟨hall, hsettled⟩ := foldl_settles graph.enumerate (P := P) (Q := Q)
    ⟨hoffers, .inl hrow⟩ hstep hkeep
  exact ⟨hsettled (id, entry) (mem_enumerate_of_at? hentry) rfl, hall.1⟩

/-- The ancestors up to the first occurrence of one of them, with their entries. -/
theorem exists_ancestorEntries_eq {id above : ClassId} {entry declaring : ClassEntry}
    (hentry : graph.at? id = some entry) (habove : above ∈ entry.ancestors)
    (hdeclaring : graph.at? above = some declaring) :
    ∃ before after, graph.ancestorEntries id = before ++ (above, declaring) :: after ∧
      ∀ other ∈ before, ∃ nearer ∈ entry.ancestors.takeWhile (· ≠ above),
        graph.at? nearer = some other.2 := by
  obtain ⟨before, after, hsplit, hnew⟩ := List.eq_append_cons_of_mem habove
  have htake : entry.ancestors.takeWhile (· ≠ above) = before := by
    rw [hsplit, List.takeWhile_append_of_pos fun other hother => ?_]
    · simp
    · simpa using fun h : other = above => hnew (h ▸ hother)
  have hentries : graph.ancestorEntries id =
      entry.ancestors.filterMap fun above => (graph.at? above).map fun entry => (above, entry) := by
    rw [ancestorEntries, hentry]
  refine ⟨_, _, by rw [hentries, hsplit, List.filterMap_append, List.filterMap_cons, hdeclaring]; rfl,
    fun other hother => ?_⟩
  obtain ⟨nearer, hnearer, hfound⟩ := List.mem_filterMap.1 hother
  obtain ⟨between, hbetween, rfl⟩ := Option.map_eq_some_iff.1 hfound
  exact ⟨nearer, htake ▸ hnearer, hbetween⟩

/-- In a generated store a class that does not declare a name has the mapping of the nearest ancestor
that does, if that is no enum. -/
theorem firstRow?_generated {σ : Type} (source : NameSource σ) (reserved : List String) (names : σ)
    (hkeeps : graph.KeepsNames) (hkeyed : Keyed graph (generated source reserved graph names))
    {id above : ClassId} {entry declaring : ClassEntry} {name : String}
    (hentry : graph.at? id = some entry) (habove : above ∈ entry.ancestors)
    (hdeclaring : graph.at? above = some declaring) (henum : declaring.access.isEnum = false)
    (hdeclares : ∃ field ∈ declaring.fields, field.name = name)
    (hown : ∀ field ∈ entry.fields, field.name ≠ name)
    (hbefore : ∀ other ∈ entry.ancestors.takeWhile (· ≠ above), ∀ between,
      graph.at? other = some between → ∀ field ∈ between.fields, field.name ≠ name) :
    ((generated source reserved graph names).firstRow? entry.name name).map (·.mapping) =
      ((generated source reserved graph names).firstRow? declaring.name name).map (·.mapping) := by
  obtain ⟨field, hfield⟩ : ∃ field, declaring.fields.find? (·.name == name) = some field := by
    obtain ⟨field, hmem, hname⟩ := hdeclares
    exact Option.isSome_iff_exists.1 (List.find?_isSome.2 ⟨field, hmem, by simp [hname]⟩)
  obtain ⟨row, hrow, hdesc⟩ : ∃ row,
      (declareAll source reserved graph names).1.firstRow? declaring.name name = some row ∧
        row.desc = field.desc :=
    firstRow?_declareAll source names hkeeps hdeclaring henum hfield
  have hnone : (declareAll source reserved graph names).1.firstRow? entry.name name = none := by
    refine firstRow?_declareAll_eq_none source names hkeeps (mem_of_at? hentry) ?_
    simpa [List.find?_eq_none] using hown
  let P := fun store : Store => Offers store declaring.name name row ∧
    store.firstRow? entry.name name = none
  have hoverrides : P (overrideAll source reserved graph names) := by
    have hstart : P (declareAll source reserved graph names).1 := by
      refine ⟨⟨?_, hrow⟩, hnone⟩
      rw [← memberKey_generated]
      exact hkeyed declaring (mem_of_at? hdeclaring)
    refine List.foldlRecOn graph.toList _ (motive := P) hstart fun store hstore other _ => ?_
    refine mapOverrides_induction (P := P) hstore fun store hstore method _ _ _ _ => ?_
    exact ⟨hstore.1.mapMethod other.name _, by rw [firstRow?_mapMethod]; exact hstore.2⟩
  obtain ⟨before, after, hancestors, hnearer⟩ := exists_ancestorEntries_eq hentry habove hdeclaring
  have hfirst := firstRow?_foldl_mapInheritedFields hkeeps hentry hoverrides.1 hancestors
    (fun other hother field hfield => by
      obtain ⟨id, hid, hat⟩ := hnearer other hother
      exact hbefore id hid other.2 hat field hfield)
    (by rw [hkeeps.nameOf?, hdeclaring, Option.map_some]) hfield hdesc hoverrides.2
  rw [generated, firstRow?_completeDescriptors, firstRow?_completeDescriptors, inheritAll, hfirst.1,
    hfirst.2.first]

end

end JvmArchive.Mapping
