import JvmArchive.Proofs.Mapping.Exchange
import JvmArchive.Proofs.Mapping.Inverse
import JvmArchive.Proofs.Mapping.RowTables

/-!
# Inverting twice

Where names and mappings can be exchanged without two of them falling together, the inverse of a store
holds every class and every row read backwards, in the same order. So the inverse of the inverse is the
store itself, and applying the inverse exchanges the same names as reversing the store.
-/
namespace JvmArchive.Mapping.Store

variable {store inverse : Store}

/-- Whether names and mappings can be exchanged: classes keep different names, no class without a
mapping whose members are mapped has the new name of another one, and of the rows of a class no two
have a new name and a new type in common. -/
structure Exchangeable (store : Store) : Prop where
  classes : store.DistinctClasses
  owners : ∀ owner, store.HasRows owner → store.classes.get? owner = none →
    ∀ name, store.classes.get? name ≠ some owner
  fields : ∀ owner, ((store.classFields owner).map fun row => (row.mapping, row.mappedDesc)).Nodup
  methods : ∀ owner, ((store.classMethods owner).map fun row => (row.mapping, row.mappedDesc)).Nodup

theorem distinctClasses_iff : store.DistinctClasses ↔ store.classes.values.Nodup := by
  constructor
  · intro h
    have hkeyed : store.classes.entries.Nodup := List.Nodup.of_map _ store.classes.nodup_keys
    refine hkeyed.map_on fun a ha b hb hsame => Prod.ext ?_ hsame
    exact h a.1 b.1 a.2 (Table.get?_of_mem_entries ha) (hsame ▸ Table.get?_of_mem_entries hb)
  · intro h name other mapping hname hother
    have hentry := List.inj_on_of_nodup_map h (Table.mem_entries_of_get? hname)
      (Table.mem_entries_of_get? hother) rfl
    exact congrArg Prod.fst hentry

theorem mem_values_iff {mapping : String} :
    mapping ∈ store.classes.values ↔ ∃ name, store.classes.get? name = some mapping := by
  constructor
  · intro h
    obtain ⟨entry, hentry, rfl⟩ := List.mem_map.1 h
    exact ⟨entry.1, Table.get?_of_mem_entries hentry⟩
  · rintro ⟨name, hname⟩
    exact List.mem_map.2 ⟨_, Table.mem_entries_of_get? hname, rfl⟩

theorem mem_keys_of_hasRows {owner : String} (h : store.HasRows owner) :
    owner ∈ store.fields.keys ++ store.methods.keys := by
  rw [List.mem_append]
  refine h.imp (fun hrows => ?_) fun hrows => ?_
  · refine Table.isSome_get?_iff.1 (Option.ne_none_iff_isSome.1 fun hnone => hrows ?_)
    rw [classFields, hnone, Option.getD_none]
  · refine Table.isSome_get?_iff.1 (Option.ne_none_iff_isSome.1 fun hnone => hrows ?_)
    rw [classMethods, hnone, Option.getD_none]

/-- Whether names and mappings can be exchanged is seen from the entries of the tables. -/
theorem exchangeable_iff :
    store.Exchangeable ↔ store.classes.values.Nodup ∧
      (∀ owner ∈ store.fields.keys ++ store.methods.keys, store.HasRows owner →
        store.classes.get? owner = none → owner ∉ store.classes.values) ∧
      (∀ entry ∈ store.fields.entries,
        (entry.2.map fun row => (row.mapping, row.mappedDesc)).Nodup) ∧
      ∀ entry ∈ store.methods.entries,
        (entry.2.map fun row => (row.mapping, row.mappedDesc)).Nodup := by
  rw [← distinctClasses_iff, ← forall_nodup_iff, ← forall_nodup_iff]
  simp only [mem_values_iff, not_exists]
  constructor
  · exact fun h => ⟨h.classes, fun owner _ => h.owners owner, h.fields, h.methods⟩
  · rintro ⟨hclasses, howners, hfields, hmethods⟩
    exact ⟨hclasses, fun owner hrows => howners owner (mem_keys_of_hasRows hrows) hrows, hfields,
      hmethods⟩

instance : Decidable store.Exchangeable := decidable_of_iff _ exchangeable_iff.symm

/-- Classes with members keep different names. -/
theorem Exchangeable.mappedName_inj (h : store.Exchangeable) {owner other : String}
    (howner : store.HasRows owner) (hother : store.HasRows other)
    (hsame : store.mappedName owner = store.mappedName other) : owner = other := by
  rw [mappedName, mappedName] at hsame
  cases hmapping : store.classes.get? owner with
  | some mapping =>
    cases himage : store.classes.get? other with
    | some image =>
      rw [hmapping, himage] at hsame
      obtain rfl : mapping = image := hsame
      exact h.classes owner other mapping hmapping himage
    | none =>
      rw [hmapping, himage] at hsame
      obtain rfl : mapping = other := hsame
      exact absurd hmapping (h.owners mapping hother himage owner)
  | none =>
    cases himage : store.classes.get? other with
    | some image =>
      rw [hmapping, himage] at hsame
      obtain rfl : owner = image := hsame
      exact absurd himage (h.owners owner howner hmapping other)
    | none => rwa [hmapping, himage] at hsame

/-! ## Inverses in order -/

/-- Whether a store holds the classes and the rows of another one read backwards, in the same order. -/
structure IsInverse (store inverse : Store) : Prop where
  direction : inverse.direction = store.direction
  implied : inverse.implied = []
  classes : inverse.classes.entries = store.classes.entries.map Prod.swap
  names : inverse.names = Table.firsts store.classes.entries
  fields : inverse.fields.entries =
    store.fields.entries.map fun entry => (store.mappedName entry.1, entry.2.map FieldMapping.inverse)
  methods : inverse.methods.entries =
    store.methods.entries.map fun entry => (store.mappedName entry.1, entry.2.map MethodMapping.inverse)

/-- Whether a store has an inverse that holds everything in it. -/
structure Invertible (store : Store) : Prop where
  implied : store.implied = []
  names : store.names = Table.firsts (store.classes.entries.map Prod.swap)
  tabled : store.Tabled
  exchangeable : store.Exchangeable

theorem hasRows_of_mem_fields (h : store.Tabled) {entry : String × List FieldMapping}
    (hentry : entry ∈ store.fields.entries) : store.HasRows entry.1 := by
  left
  rw [classFields, Table.get?_of_mem_entries hentry]
  exact h.fields entry hentry

theorem hasRows_of_mem_methods (h : store.Tabled) {entry : String × List MethodMapping}
    (hentry : entry ∈ store.methods.entries) : store.HasRows entry.1 := by
  right
  rw [classMethods, Table.get?_of_mem_entries hentry]
  exact h.methods entry hentry

/-- Tables of different owners whose rows are read backwards under different names fill a table as they
are. -/
theorem entries_foldl_addRow_inverse {ρ ι : Type} [DecidableEq ι] (key : ρ → ι) (f : String → String)
    (g : ρ → ρ) {table : Table String (List ρ)}
    (howners : ∀ a ∈ table.entries, ∀ b ∈ table.entries, f a.1 = f b.1 → a.1 = b.1)
    (hrows : ∀ entry ∈ table.entries, entry.2 ≠ [])
    (hkeys : ∀ entry ∈ table.entries, (entry.2.map fun row => key (g row)).Nodup) :
    ((table.entries.flatMap fun entry => entry.2.map fun row => (f entry.1, g row)).foldl
      (fun table pair => addRow key table pair.1 pair.2) .empty).entries =
        table.entries.map fun entry => (f entry.1, entry.2.map g) := by
  rw [entries_foldl_addRow_image key f g howners hrows]
  refine List.map_congr_left fun entry hentry => ?_
  rw [firstRows_of_nodup]
  rw [List.map_map]
  exact hkeys entry hentry

/-- Tables that are read backwards are told apart by the keys that reading backwards makes of theirs. -/
theorem nodup_map_inverse {ρ ι : Type} (key other : ρ → ι) (f : String → String) (g : ρ → ρ)
    (hkey : ∀ row, key (g row) = other row) {table inverse : Table String (List ρ)}
    (hinverse : inverse.entries = table.entries.map fun entry => (f entry.1, entry.2.map g))
    (h : ∀ owner, (((table.get? owner).getD []).map other).Nodup) :
    ∀ owner, (((inverse.get? owner).getD []).map key).Nodup := by
  refine (forall_nodup_iff key inverse).2 ?_
  rw [hinverse, List.forall_mem_map]
  intro entry hentry
  rw [List.map_map, Function.comp_def, funext hkey]
  exact (forall_nodup_iff other table).1 h entry hentry

/-- The inverse of an invertible store holds everything in it. -/
theorem isInverse_inverse (h : store.Invertible) : IsInverse store store.inverse := by
  have hmappings : ((store.classes.entries.map Prod.swap).map (·.1)).Nodup := by
    rw [List.map_map]
    exact distinctClasses_iff.1 h.exchangeable.classes
  have hclasses := foldl_mapClass_of_nodup hmappings store.direction
  rw [List.foldl_map, List.map_map, Prod.swap_swap_eq, List.map_id] at hclasses
  have hfields := entries_foldl_addRow_inverse (fun row : FieldMapping => (row.name, row.desc))
    store.mappedName FieldMapping.inverse
    (fun a ha b hb hsame => h.exchangeable.mappedName_inj (hasRows_of_mem_fields h.tabled ha)
      (hasRows_of_mem_fields h.tabled hb) hsame)
    h.tabled.fields ((forall_nodup_iff (fun row : FieldMapping => (row.mapping, row.mappedDesc)) _).1
      h.exchangeable.fields)
  have hmethods := entries_foldl_addRow_inverse (fun row : MethodMapping => (row.name, row.desc))
    store.mappedName MethodMapping.inverse
    (fun a ha b hb hsame => h.exchangeable.mappedName_inj (hasRows_of_mem_methods h.tabled ha)
      (hasRows_of_mem_methods h.tabled hb) hsame)
    h.tabled.methods ((forall_nodup_iff (fun row : MethodMapping => (row.mapping, row.mappedDesc)) _).1
      h.exchangeable.methods)
  constructor
  · exact direction_inverse store
  · rw [inverse_eq, foldl_mapMethod_eq_with, foldl_mapField_eq_with]
    exact congrArg Store.implied hclasses
  · rw [inverse_eq, foldl_mapMethod_eq_with, foldl_mapField_eq_with]
    exact (congrArg (fun store : Store => store.classes.entries) hclasses).trans
      (Table.entries_ofList hmappings)
  · rw [inverse_eq, foldl_mapMethod_eq_with, foldl_mapField_eq_with]
    exact congrArg Store.names hclasses
  · rw [fields_inverse, fields_foldl_mapField, ← hfields]
    exact congrArg (fun start : Store => (store.inverseFields.foldl (fun table row =>
      addRow (fun row => (row.name, row.desc)) table row.1 row.2) start.fields).entries) hclasses
  · rw [inverse_eq, methods_foldl_mapMethod, foldl_mapField_eq_with, ← hmethods]
    exact congrArg (fun start : Store => (store.inverseMethods.foldl (fun table row =>
      addRow (fun row => (row.name, row.desc)) table row.1 row.2) start.methods).entries) hclasses

namespace IsInverse

variable (hinverse : IsInverse store inverse)
include hinverse

/-- A new name leads back to the class that has it. -/
theorem get?_classes_iff {name mapping : String} :
    inverse.classes.get? mapping = some name ↔ store.classes.get? name = some mapping := by
  constructor
  · intro h
    have hmem := Table.mem_entries_of_get? h
    rw [hinverse.classes] at hmem
    obtain ⟨pair, hpair, hswap⟩ := List.mem_map.1 hmem
    obtain ⟨rfl, rfl⟩ := Prod.mk.inj hswap
    exact Table.get?_of_mem_entries hpair
  · intro h
    refine Table.get?_of_mem_entries ?_
    rw [hinverse.classes]
    exact List.mem_map.2 ⟨_, Table.mem_entries_of_get? h, rfl⟩

variable (h : store.Invertible)
include h

/-- The name of a class with members comes back. -/
theorem mappedName_mappedName {owner : String} (howner : store.HasRows owner) :
    inverse.mappedName (store.mappedName owner) = owner := by
  cases hmapping : store.classes.get? owner with
  | some mapping =>
    have hback := hinverse.get?_classes_iff.2 hmapping
    rw [mappedName, mappedName, hmapping, Option.getD_some, hback, Option.getD_some]
  | none =>
    have hback : inverse.classes.get? owner = none := by
      rw [Option.eq_none_iff_forall_ne_some]
      intro name hname
      exact h.exchangeable.owners owner howner hmapping name (hinverse.get?_classes_iff.1 hname)
    rw [mappedName, mappedName, hmapping, Option.getD_none, hback, Option.getD_none]

/-- Rows that stand in an inverse are those of a class, under its new name. -/
theorem exists_of_hasRows {owner : String} (howner : inverse.HasRows owner) :
    ∃ name, store.HasRows name ∧ store.mappedName name = owner := by
  have hkey := mem_keys_of_hasRows howner
  rw [List.mem_append, Table.keys, Table.keys, hinverse.fields, hinverse.methods, List.map_map,
    List.map_map] at hkey
  rcases hkey with hfield | hmethod
  · obtain ⟨entry, hentry, hname⟩ := List.mem_map.1 hfield
    exact ⟨entry.1, hasRows_of_mem_fields h.tabled hentry, hname⟩
  · obtain ⟨entry, hentry, hname⟩ := List.mem_map.1 hmethod
    exact ⟨entry.1, hasRows_of_mem_methods h.tabled hentry, hname⟩

/-- Reading rows backwards exchanges the keys by which they differ. -/
theorem tabled : inverse.Tabled where
  distinct :=
    { fields := nodup_map_inverse _ (fun row => (row.mapping, row.mappedDesc)) store.mappedName
        FieldMapping.inverse (fun _ => rfl) hinverse.fields h.exchangeable.fields
      methods := nodup_map_inverse _ (fun row => (row.mapping, row.mappedDesc)) store.mappedName
        MethodMapping.inverse (fun _ => rfl) hinverse.methods h.exchangeable.methods }
  fields := by
    rw [hinverse.fields, List.forall_mem_map]
    intro entry hentry
    simpa using h.tabled.fields entry hentry
  methods := by
    rw [hinverse.methods, List.forall_mem_map]
    intro entry hentry
    simpa using h.tabled.methods entry hentry

theorem exchangeable : inverse.Exchangeable where
  classes name other mapping hname hother := by
    rw [hinverse.get?_classes_iff] at hname hother
    exact Option.some_inj.1 (hname.symm.trans hother)
  owners owner howner hnone name hname := by
    obtain ⟨original, horiginal, rfl⟩ := hinverse.exists_of_hasRows h howner
    cases hmapping : store.classes.get? original with
    | some mapping =>
      rw [mappedName, hmapping, Option.getD_some, hinverse.get?_classes_iff.2 hmapping] at hnone
      cases hnone
    | none =>
      rw [mappedName, hmapping, Option.getD_none, hinverse.get?_classes_iff, hmapping] at hname
      cases hname
  fields := nodup_map_inverse _ (fun row => (row.name, row.desc)) store.mappedName
    FieldMapping.inverse (fun _ => rfl) hinverse.fields h.tabled.distinct.fields
  methods := nodup_map_inverse _ (fun row => (row.name, row.desc)) store.mappedName
    MethodMapping.inverse (fun _ => rfl) hinverse.methods h.tabled.distinct.methods

/-- An inverse can be inverted again. -/
theorem invertible : inverse.Invertible where
  implied := hinverse.implied
  names := by
    rw [hinverse.names, hinverse.classes, List.map_map, Prod.swap_swap_eq, List.map_id]
  tabled := hinverse.tabled h
  exchangeable := hinverse.exchangeable h

/-- What is read backwards twice is the same again. -/
theorem eq_of_isInverse {again : Store} (hagain : IsInverse inverse again) : again = store := by
  have hclasses : again.classes = store.classes := by
    refine Table.eq_of_entries_eq ?_
    rw [hagain.classes, hinverse.classes, List.map_map, Prod.swap_swap_eq, List.map_id]
  have hnames : again.names = store.names := by
    rw [hagain.names, hinverse.classes, h.names]
  have hfields : again.fields = store.fields := by
    refine Table.eq_of_entries_eq ?_
    rw [hagain.fields, hinverse.fields, List.map_map]
    refine (List.map_congr_left fun entry hentry => ?_).trans (List.map_id _)
    have howner := hinverse.mappedName_mappedName h (hasRows_of_mem_fields h.tabled hentry)
    simp [howner, FieldMapping.inverse, Function.comp_def]
  have hmethods : again.methods = store.methods := by
    refine Table.eq_of_entries_eq ?_
    rw [hagain.methods, hinverse.methods, List.map_map]
    refine (List.map_congr_left fun entry hentry => ?_).trans (List.map_id _)
    have howner := hinverse.mappedName_mappedName h (hasRows_of_mem_methods h.tabled hentry)
    simp [howner, MethodMapping.inverse, Function.comp_def]
  have himplied := hagain.implied.trans h.implied.symm
  have hdirection := hagain.direction.trans hinverse.direction
  cases again
  cases store
  simp only [mk.injEq]
  exact ⟨hclasses, hnames, himplied, hfields, hmethods, hdirection⟩

end IsInverse

/-! ## Reversing -/

/-- An inverse that is applied and a store that is reversed exchange the same names, in the same order. -/
theorem IsInverse.flatten_eq (hinverse : IsInverse store inverse) :
    { inverse with direction := .applying }.flatten = { store with direction := .reversing }.flatten := by
  have hclasses : classRows { inverse with direction := .applying } =
      classRows { store with direction := .reversing } := by
    rw [classRows, classRows, hinverse.classes, List.map_map]
    rfl
  have hfields : fieldRows { inverse with direction := .applying } =
      fieldRows { store with direction := .reversing } := by
    rw [fieldRows, fieldRows, hinverse.fields, List.flatMap_map]
    simp only [List.map_map]
    rfl
  have hmethods : methodRows { inverse with direction := .applying } =
      methodRows { store with direction := .reversing } := by
    rw [methodRows, methodRows, hinverse.methods, List.flatMap_map]
    simp only [List.map_map]
    rfl
  rw [flatten, flatten, hclasses, hfields, hmethods]

/-! ## Stores made by insertions -/

/-- Whether the new names of a store lead back to its classes in their order. -/
structure NamesInOrder (store : Store) : Prop where
  implied : store.implied = []
  names : store.names = Table.firsts (store.classes.entries.map Prod.swap)

theorem NamesInOrder.apply {store : Store} (h : store.NamesInOrder) {insertion : Insertion}
    (hexplicit : insertion.IsExplicit) : (insertion.apply store).NamesInOrder := by
  refine ⟨implied_apply h.implied hexplicit, ?_⟩
  cases insertion with
  | mapClass name mapping =>
    rw [Insertion.apply, mapClass_eq h.implied]
    split
    · exact h.names
    · rename_i hnew
      have hentries : (store.classes.insert name mapping).entries =
          store.classes.entries ++ [(name, mapping)] :=
        Table.insertEntry_of_not_mem (mt Table.isSome_get?_iff.2 hnew)
      rw [hentries, List.map_append, List.map_singleton, Table.firsts_concat, ← h.names]
      rfl
  | ensureClass name => exact hexplicit.elim
  | mapField className row =>
    rw [Insertion.apply, mapField_eq_with]
    exact h.names
  | mapMethod className row =>
    rw [Insertion.apply, mapMethod_eq_with]
    exact h.names
  | completeDescriptors => exact h.names

/-- A store that is filled without implied classes and whose names can be exchanged is the inverse of its
inverse, and applying the inverse exchanges what reversing the store does. -/
theorem inverse_inverse_made (direction : Direction) (insertions : List Insertion)
    (hexplicit : ∀ insertion ∈ insertions, insertion.IsExplicit)
    (hexchangeable : (made direction insertions).Exchangeable) :
    let store := made direction insertions
    store.inverse.inverse = store ∧
      { store.inverse with direction := .applying }.flatten =
        { store with direction := .reversing }.flatten := by
  have hnames : (made direction insertions).NamesInOrder :=
    made_induction ⟨rfl, rfl⟩ insertions fun store hstore insertion hmem =>
      hstore.apply (hexplicit insertion hmem)
  have hinvertible : (made direction insertions).Invertible :=
    ⟨hnames.implied, hnames.names, tabled_made direction insertions, hexchangeable⟩
  have hinverse := isInverse_inverse hinvertible
  have hagain := isInverse_inverse (hinverse.invertible hinvertible)
  exact ⟨hinverse.eq_of_isInverse hinvertible hagain, hinverse.flatten_eq⟩

/-- Two classes that change their names with each other, and members of a third that is not mapped. -/
def exchanging : List Insertion :=
  [.mapClass "p/A" "p/B", .mapField "p/A" { name := "x", mapping := "y", desc := "Lp/B;" },
    .mapField "p/A" { name := "x", mapping := "y", desc := "I" }, .mapClass "p/B" "p/A",
    .mapMethod "p/C" { name := "m", mapping := "n", desc := "(Lp/A;)V" },
    .mapMethod "p/B" { name := "m", mapping := "m", desc := "(Lp/A;)V" },
    .mapMethod "p/B" { name := "n", mapping := "m", desc := "()V" }, .completeDescriptors]

theorem inverse_inverse_exchanging :
    (∀ insertion ∈ exchanging, insertion.IsExplicit) ∧ (made .applying exchanging).Exchangeable ∧
      ((made .applying exchanging).inverse.inverse = made .applying exchanging ∧
        { (made .applying exchanging).inverse with direction := .applying }.flatten =
          { made .applying exchanging with direction := .reversing }.flatten) ∧
      { (made .applying exchanging).inverse with direction := .applying }.flatten.get?
        "p/C.n(Lp/B;)V" = some "m" := by
  have hexplicit : ∀ insertion ∈ exchanging, insertion.IsExplicit := by decide
  have hexchangeable : (made .applying exchanging).Exchangeable := by decide +kernel
  exact ⟨hexplicit, hexchangeable,
    inverse_inverse_made .applying exchanging hexplicit hexchangeable, by decide +kernel⟩

end JvmArchive.Mapping.Store
