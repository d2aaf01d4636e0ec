import JvmArchive.Proofs.Mapping.Fields

/-!
# Inverted stores

What the inverse of a store answers. A new name of a class is mapped back to the first class that got
it, and the rows of a class, read backwards, stand under its new name, provided no other class with rows
has that new name; of rows that have become alike the first stays.
-/
namespace JvmArchive.Mapping

/-- The mapping of a field read backwards. -/
def FieldMapping.inverse (row : FieldMapping) : FieldMapping :=
  { name := row.mapping, mapping := row.name, desc := row.mappedDesc, mappedDesc := row.desc }

/-- The mapping of a method read backwards. -/
def MethodMapping.inverse (row : MethodMapping) : MethodMapping :=
  { name := row.mapping, mapping := row.name, desc := row.mappedDesc, mappedDesc := row.desc }

namespace Store

variable {store : Store}

/-! ## Adding rows one after the other -/

/-- Of several class mappings added to a store the first for each class stays. -/
theorem foldl_mapClass (pairs : List (String × String)) (store : Store)
    (himplied : store.implied = []) (key : String) :
    let added := pairs.foldl (fun store pair => store.mapClass pair.2 pair.1) store
    added.implied = [] ∧ added.direction = store.direction ∧ added.fields = store.fields ∧
      added.methods = store.methods ∧
      added.classes.get? key =
        (store.classes.get? key).or ((pairs.find? (·.2 = key)).map (·.1)) := by
  induction pairs generalizing store with
  | nil => simp [himplied]
  | cons pair pairs ih =>
    have hpair := mapClass_eq himplied pair.2 pair.1
    have hnext : (store.mapClass pair.2 pair.1).implied = [] := by
      rw [hpair]
      split
      · exact himplied
      · exact himplied
    have hget : (store.mapClass pair.2 pair.1).classes.get? key =
        (store.classes.get? key).or (if pair.2 = key then some pair.1 else none) := by
      rw [hpair]
      by_cases hkey : pair.2 = key
      · subst hkey
        cases hold : store.classes.get? pair.2 <;> simp [hold, Table.get?_insert]
      · split
        · simp
        · simp [hkey, Table.get?_insert]
    obtain ⟨hadded, hdirection, hfields, hmethods, hclasses⟩ := ih (store.mapClass pair.2 pair.1) hnext
    rw [List.foldl_cons]
    refine ⟨hadded, hdirection.trans ?_, hfields.trans ?_, hmethods.trans ?_, ?_⟩
    · rw [hpair]
      split <;> rfl
    · rw [hpair]
      split <;> rfl
    · rw [hpair]
      split <;> rfl
    · rw [hclasses, hget, Option.or_assoc]
      congr 1
      by_cases hkey : pair.2 = key <;> simp [hkey]

/-- Of several field mappings added to a store, the first for a class and a name comes first. -/
theorem firstRow?_foldl_mapField (rows : List (String × FieldMapping)) (store : Store)
    (className name : String) :
    (rows.foldl (fun store row => store.mapField row.1 row.2) store).firstRow? className name =
      (store.firstRow? className name).or
        ((rows.find? fun row => row.1 == className && row.2.name == name).map (·.2)) := by
  induction rows generalizing store with
  | nil => simp
  | cons row rows ih =>
    rw [List.foldl_cons, ih, firstRow?_mapField, Option.or_assoc]
    congr 1
    by_cases h : row.1 = className ∧ row.2.name = name
    · simp [h]
    · have hmiss : (row.1 == className && row.2.name == name) = false := by simpa using h
      simp [h, hmiss]

/-- Of several method mappings added to a store, the first for a class and a method stays. -/
theorem methodRow?_foldl_mapMethod (rows : List (String × MethodMapping)) (store : Store)
    (className name desc : String) :
    (rows.foldl (fun store row => store.mapMethod row.1 row.2) store).methodRow? className name desc =
      (store.methodRow? className name desc).or
        ((rows.find? fun row =>
          row.1 == className && (row.2.name == name && row.2.desc == desc)).map (·.2)) := by
  induction rows generalizing store with
  | nil => simp
  | cons row rows ih =>
    rw [List.foldl_cons, ih, methodRow?_mapMethod, Option.or_assoc]
    congr 1
    by_cases h : row.1 = className ∧ row.2.name = name ∧ row.2.desc = desc
    · simp [h]
    · have hmiss : (row.1 == className && (row.2.name == name && row.2.desc == desc)) = false := by
        simpa using h
      simp [h, hmiss]

/-! ## The inverse -/

/-- The fields of a store read backwards, each with the new name of its class. -/
def inverseFields (store : Store) : List (String × FieldMapping) :=
  store.fields.entries.flatMap fun entry =>
    entry.2.map fun row => (store.mappedName entry.1, row.inverse)

/-- The methods of a store read backwards, each with the new name of its class. -/
def inverseMethods (store : Store) : List (String × MethodMapping) :=
  store.methods.entries.flatMap fun entry =>
    entry.2.map fun row => (store.mappedName entry.1, row.inverse)

theorem inverse_eq (store : Store) :
    store.inverse =
      store.inverseMethods.foldl (fun target row => target.mapMethod row.1 row.2)
        (store.inverseFields.foldl (fun target row => target.mapField row.1 row.2)
          (store.classes.entries.foldl (fun target pair => target.mapClass pair.2 pair.1)
            (empty store.direction))) := by
  rw [inverseMethods, inverseFields, List.foldl_flatMap, List.foldl_flatMap]
  simp only [List.foldl_map]
  rfl

/-- Adding members leaves the classes alone. -/
theorem foldl_mapField_eq_with (rows : List (String × FieldMapping)) (store : Store) :
    rows.foldl (fun target row => target.mapField row.1 row.2) store =
      { store with fields := (rows.foldl (fun target row => target.mapField row.1 row.2) store).fields } :=
  List.foldlRecOn rows _ (motive := fun after : Store => after = { store with fields := after.fields })
    rfl fun after hafter row _ => by
      rw [mapField_eq_with]
      rw [hafter]

theorem foldl_mapMethod_eq_with (rows : List (String × MethodMapping)) (store : Store) :
    rows.foldl (fun target row => target.mapMethod row.1 row.2) store =
      { store with
        methods := (rows.foldl (fun target row => target.mapMethod row.1 row.2) store).methods } :=
  List.foldlRecOn rows _ (motive := fun after : Store => after = { store with methods := after.methods })
    rfl fun after hafter row _ => by
      rw [mapMethod_eq_with]
      rw [hafter]

theorem direction_inverse (store : Store) : store.inverse.direction = store.direction := by
  rw [inverse_eq, foldl_mapMethod_eq_with, foldl_mapField_eq_with]
  exact (foldl_mapClass store.classes.entries _ rfl "").2.1

/-- A new name of a class is mapped back to the first class that got it. -/
theorem get?_classes_inverse (store : Store) (mapping : String) :
    store.inverse.classes.get? mapping =
      (store.classes.entries.find? (·.2 = mapping)).map (·.1) := by
  rw [inverse_eq, foldl_mapMethod_eq_with, foldl_mapField_eq_with]
  have hclasses := (foldl_mapClass store.classes.entries (empty store.direction) rfl mapping).2.2.2.2
  rw [hclasses]
  rfl

theorem fields_inverse (store : Store) :
    store.inverse.fields =
      (store.inverseFields.foldl (fun target row => target.mapField row.1 row.2)
        (store.classes.entries.foldl (fun target pair => target.mapClass pair.2 pair.1)
          (empty store.direction))).fields := by
  rw [inverse_eq, foldl_mapMethod_eq_with]

/-- The rows of a class come back under its new name, in their order; of rows with one new name the
first comes first. -/
theorem firstRow?_inverse {className : String} (mapping : String)
    (hnew : ∀ other, other ≠ className → store.classFields other ≠ [] →
      store.mappedName other ≠ store.mappedName className) :
    store.inverse.firstRow? (store.mappedName className) mapping =
      ((store.classFields className).find? (·.mapping == mapping)).map FieldMapping.inverse := by
  have hstart := (foldl_mapClass store.classes.entries (empty store.direction) rfl "").2.2.1
  rw [firstRow?, classFields, fields_inverse, ← classFields, ← firstRow?, firstRow?_foldl_mapField]
  have hnone : (store.classes.entries.foldl (fun target pair => target.mapClass pair.2 pair.1)
      (empty store.direction)).firstRow? (store.mappedName className) mapping = none := by
    rw [firstRow?, classFields, hstart]
    rfl
  have hrows : store.inverseFields.find?
      (fun row => row.1 == store.mappedName className && row.2.name == mapping) =
        ((store.classFields className).map fun row =>
          (store.mappedName className, FieldMapping.inverse row)).find?
            fun row => row.1 == store.mappedName className && row.2.name == mapping := by
    refine find?_flatMap_entries store.fields
      (fun other row => (store.mappedName other, FieldMapping.inverse row)) _ className ?_
    intro other hother row hrow
    simp [hnew other hother (List.ne_nil_of_mem hrow)]
  rw [hnone, Option.none_or, hrows, List.find?_map, Option.map_map]
  simp only [Function.comp_def, beq_self_eq_true, Bool.true_and]
  rfl

theorem methodRow?_inverse {className : String} (mapping mappedDesc : String)
    (hnew : ∀ other, other ≠ className → store.classMethods other ≠ [] →
      store.mappedName other ≠ store.mappedName className) :
    store.inverse.methodRow? (store.mappedName className) mapping mappedDesc =
      ((store.classMethods className).find? fun row =>
        row.mapping == mapping && row.mappedDesc == mappedDesc).map MethodMapping.inverse := by
  rw [inverse_eq, methodRow?_foldl_mapMethod]
  have hnone : (store.inverseFields.foldl (fun target row => target.mapField row.1 row.2)
      (store.classes.entries.foldl (fun target pair => target.mapClass pair.2 pair.1)
        (empty store.direction))).methodRow? (store.mappedName className) mapping mappedDesc = none := by
    rw [foldl_mapField_eq_with, methodRow?, classMethods,
      (foldl_mapClass store.classes.entries (empty store.direction) rfl "").2.2.2.1]
    rfl
  have hrows : store.inverseMethods.find? (fun row => row.1 == store.mappedName className &&
      (row.2.name == mapping && row.2.desc == mappedDesc)) =
        ((store.classMethods className).map fun row =>
          (store.mappedName className, MethodMapping.inverse row)).find?
            fun row => row.1 == store.mappedName className &&
              (row.2.name == mapping && row.2.desc == mappedDesc) := by
    refine find?_flatMap_entries store.methods
      (fun other row => (store.mappedName other, MethodMapping.inverse row)) _ className ?_
    intro other hother row hrow
    simp [hnew other hother (List.ne_nil_of_mem hrow)]
  rw [hnone, Option.none_or, hrows, List.find?_map, Option.map_map]
  simp only [Function.comp_def, beq_self_eq_true, Bool.true_and]
  rfl

/-! ## What an inverse holds -/

theorem mem_classFields_foldl (rows : List (String × FieldMapping)) (store : Store)
    {className : String} {row : FieldMapping}
    (h : row ∈ (rows.foldl (fun target row => target.mapField row.1 row.2) store).classFields
      className) :
    row ∈ store.classFields className ∨ (className, row) ∈ rows := by
  induction rows generalizing store with
  | nil => exact .inl h
  | cons pair rows ih =>
    rw [List.foldl_cons] at h
    rcases ih _ h with hstore | hrows
    · rw [classFields_mapField, List.mem_append] at hstore
      rcases hstore with hold | hnew
      · exact .inl hold
      · split at hnew
        · rename_i hclass
          obtain rfl := List.mem_singleton.1 hnew
          exact .inr (by simp [← hclass.1])
        · simp at hnew
    · exact .inr (List.mem_cons_of_mem _ hrows)

theorem mem_classMethods_foldl (rows : List (String × MethodMapping)) (store : Store)
    {className : String} {row : MethodMapping}
    (h : row ∈ (rows.foldl (fun target row => target.mapMethod row.1 row.2) store).classMethods
      className) :
    row ∈ store.classMethods className ∨ (className, row) ∈ rows := by
  induction rows generalizing store with
  | nil => exact .inl h
  | cons pair rows ih =>
    rw [List.foldl_cons] at h
    rcases ih _ h with hstore | hrows
    · rw [classMethods_mapMethod, List.mem_append] at hstore
      rcases hstore with hold | hnew
      · exact .inl hold
      · split at hnew
        · rename_i hclass
          obtain rfl := List.mem_singleton.1 hnew
          exact .inr (by simp [← hclass.1])
        · simp at hnew
    · exact .inr (List.mem_cons_of_mem _ hrows)

/-- A row of an inverse is a row of the store read backwards. -/
theorem exists_of_mem_classFields_inverse {className : String} {row : FieldMapping}
    (h : row ∈ store.inverse.classFields className) :
    ∃ old, store.mappedName old = className ∧
      ∃ before ∈ store.classFields old, before.inverse = row := by
  rw [classFields, fields_inverse] at h
  rcases mem_classFields_foldl store.inverseFields _ h with hstart | hrows
  · rw [classFields, (foldl_mapClass store.classes.entries (empty store.direction) rfl "").2.2.1]
      at hstart
    simp [empty] at hstart
  · obtain ⟨⟨old, rows⟩, hentry, hmem⟩ := List.mem_flatMap.1 hrows
    obtain ⟨before, hbefore, heq⟩ := List.mem_map.1 hmem
    obtain ⟨hname, hrow⟩ := Prod.mk.inj heq
    refine ⟨old, hname, before, ?_, hrow⟩
    rw [classFields, Table.get?_of_mem_entries hentry]
    exact hbefore

theorem exists_of_mem_classMethods_inverse {className : String} {row : MethodMapping}
    (h : row ∈ store.inverse.classMethods className) :
    ∃ old, store.mappedName old = className ∧
      ∃ before ∈ store.classMethods old, before.inverse = row := by
  rw [inverse_eq] at h
  rcases mem_classMethods_foldl store.inverseMethods _ h with hstart | hrows
  · rw [foldl_mapField_eq_with, classMethods,
      (foldl_mapClass store.classes.entries (empty store.direction) rfl "").2.2.2.1] at hstart
    simp [empty] at hstart
  · obtain ⟨⟨old, rows⟩, hentry, hmem⟩ := List.mem_flatMap.1 hrows
    obtain ⟨before, hbefore, heq⟩ := List.mem_map.1 hmem
    obtain ⟨hname, hrow⟩ := Prod.mk.inj heq
    refine ⟨old, hname, before, ?_, hrow⟩
    rw [classMethods, Table.get?_of_mem_entries hentry]
    exact hbefore

end Store
end JvmArchive.Mapping
