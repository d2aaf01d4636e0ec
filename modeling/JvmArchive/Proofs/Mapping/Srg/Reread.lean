import JvmArchive.Proofs.Mapping.Involution
import JvmArchive.Proofs.Mapping.Srg.Lines

/-!
# SRG files read back

What a store that has been written to an SRG file says when the file is read. It has the same classes, and
behind them those with members that are mapped but no mapping of their own; it has the same methods. Field
lines tell no types, so of the fields of one name in a class only the first comes back: reversing the store
that was read exchanges the same names as before only as far as such fields have one mapping.
-/
namespace JvmArchive.Mapping

open Text

namespace Store

/-- The fields of a store one after the other, each with its class. -/
def ownedFields (store : Store) : List (String × FieldMapping) :=
  store.fields.entries.flatMap fun entry => entry.2.map fun row => (entry.1, row)

/-- The methods of a store one after the other, each with its class. -/
def ownedMethods (store : Store) : List (String × MethodMapping) :=
  store.methods.entries.flatMap fun entry => entry.2.map fun row => (entry.1, row)

end Store

namespace Srg

open Store

variable {store : Store}

/-! ## Writing and reading -/

instance (row : FieldMapping) : Decidable (IsFieldRow row) :=
  decidable_of_iff (IsSegment row.name ∧ IsSegment row.mapping)
    ⟨fun h => ⟨h.1, h.2⟩, fun h => ⟨h.name, h.mapping⟩⟩

instance (row : MethodMapping) : Decidable (IsMethodRow row) :=
  decidable_of_iff
    ((IsSegment row.name ∧ IsSegment row.mapping) ∧ IsPath row.desc ∧ IsPath row.mappedDesc)
    ⟨fun h => ⟨h.1.1, h.1.2, h.2.1, h.2.2⟩, fun h => ⟨⟨h.name, h.mapping⟩, h.desc, h.mappedDesc⟩⟩

/-- Whether all names and method descriptors of a store can be written down and read back. -/
structure IsWritable (store : Store) : Prop where
  classes : ∀ pair ∈ store.classes.entries, IsPath pair.1 ∧ IsPath pair.2
  fields : ∀ entry ∈ store.fields.entries, IsPath entry.1 ∧ ∀ row ∈ entry.2, IsFieldRow row
  methods : ∀ entry ∈ store.methods.entries, IsPath entry.1 ∧ ∀ row ∈ entry.2, IsMethodRow row

instance (store : Store) : Decidable (IsWritable store) :=
  decidable_of_iff
    ((∀ pair ∈ store.classes.entries, IsPath pair.1 ∧ IsPath pair.2) ∧
      (∀ entry ∈ store.fields.entries, IsPath entry.1 ∧ ∀ row ∈ entry.2, IsFieldRow row) ∧
      ∀ entry ∈ store.methods.entries, IsPath entry.1 ∧ ∀ row ∈ entry.2, IsMethodRow row)
    ⟨fun h => ⟨h.1, h.2.1, h.2.2⟩, fun h => ⟨h.classes, h.fields, h.methods⟩⟩

/-- The lines of a store. -/
def entries (store : Store) : List Entry :=
  store.classes.entries.map (fun pair => .ofClass pair.1 pair.2) ++
    (store.ownedFields.map (fun pair => .ofField pair.1 pair.2) ++
      store.ownedMethods.map fun pair => .ofMethod pair.1 pair.2)

theorem IsWritable.isPath_mappedName (h : IsWritable store) {owner : String} (howner : IsPath owner) :
    IsPath (store.mappedName owner) := by
  rw [mappedName]
  cases hmapping : store.classes.get? owner with
  | some mapping => exact (h.classes _ (Table.mem_entries_of_get? hmapping)).2
  | none => exact howner

theorem IsWritable.isPath_of_hasRows (h : IsWritable store) {owner : String}
    (howner : store.HasRows owner) : IsPath owner := by
  rcases List.mem_append.1 (mem_keys_of_hasRows howner) with hfield | hmethod
  · obtain ⟨entry, hentry, rfl⟩ := List.mem_map.1 hfield
    exact (h.fields entry hentry).1
  · obtain ⟨entry, hentry, rfl⟩ := List.mem_map.1 hmethod
    exact (h.methods entry hentry).1

theorem IsWritable.of_mem_entries (h : IsWritable store) {entry : Entry} (hentry : entry ∈ entries store) :
    entry.IsWritable store.mappedName := by
  rw [entries, List.mem_append, List.mem_append] at hentry
  rcases hentry with hclass | hfield | hmethod
  · obtain ⟨pair, hpair, rfl⟩ := List.mem_map.1 hclass
    exact h.classes pair hpair
  · obtain ⟨pair, hpair, rfl⟩ := List.mem_map.1 hfield
    obtain ⟨table, htable, hmem⟩ := List.mem_flatMap.1 hpair
    obtain ⟨row, hrow, rfl⟩ := List.mem_map.1 hmem
    obtain ⟨howner, hrows⟩ := h.fields table htable
    exact ⟨howner, h.isPath_mappedName howner, hrows row hrow⟩
  · obtain ⟨pair, hpair, rfl⟩ := List.mem_map.1 hmethod
    obtain ⟨table, htable, hmem⟩ := List.mem_flatMap.1 hpair
    obtain ⟨row, hrow, rfl⟩ := List.mem_map.1 hmem
    obtain ⟨howner, hrows⟩ := h.methods table htable
    exact ⟨howner, h.isPath_mappedName howner, hrows row hrow⟩

theorem write_eq (store : Store) :
    write store = String.join ((entries store).map fun entry => entry.text store.mappedName ++ "\n") := by
  have hfields : ∀ owner, fieldLine owner (store.mappedName owner) =
      fun row => fieldText owner (store.mappedName owner) row ++ "\n" :=
    fun owner => funext fun row => fieldLine_eq owner _ row
  have hmethods : ∀ owner, methodLine owner (store.mappedName owner) =
      fun row => methodText owner (store.mappedName owner) row ++ "\n" :=
    fun owner => funext fun row => methodLine_eq owner _ row
  rw [write, entries, ownedFields, ownedMethods]
  simp only [classLine_eq, hfields, hmethods, List.map_append, List.map_map, List.map_flatMap,
    List.append_assoc]
  rfl

/-- What the lines of a store say. -/
def retold (store : Store) : Store := (entries store).foldl Entry.add (.empty .applying)

/-- Reading a written file gives what its lines say. -/
theorem ofText_write (h : IsWritable store) :
    Format.ofText .srg (Format.write .srg store) = .ok (retold store) := by
  have htext : (Format.write .srg store).toList =
      ((entries store).map fun entry => (entry.text store.mappedName).toList).flatMap (· ++ ['\n']) := by
    rw [Format.write, write_eq]
    simp [List.flatMap_map]
  have hlines : Text.lines '\n' '\r' (Format.write .srg store).toList =
      (entries store).map fun entry => (entry.text store.mappedName).toList := by
    rw [htext]
    refine lines_flatMap (fun part hpart => ?_) fun part hpart => ?_
    · obtain ⟨entry, hentry, rfl⟩ := List.mem_map.1 hpart
      exact (Entry.isLine_text (h.of_mem_entries hentry)).feed
    · obtain ⟨entry, hentry, rfl⟩ := List.mem_map.1 hpart
      exact (Entry.isLine_text (h.of_mem_entries hentry)).last
  have hline : ∀ entry ∈ entries store, ∀ target, True → True ∧
      readLine target (entry.text store.mappedName).toList = .ok (entry.add target) :=
    fun entry hentry target _ => ⟨trivial, Entry.readLine_text (h.of_mem_entries hentry) target⟩
  obtain ⟨next, hread⟩ := Format.readLines_map (fun _ => True)
    (fun entry => (entry.text store.mappedName).toList) Entry.add hline (.empty .applying) trivial [] 1
  rw [List.append_nil] at hread
  rw [Format.ofText, hlines, Format.ofLines, Format.direction, hread]
  rfl

/-! ## The store that is read -/

theorem classes_ensureClass (store : Store) (name : String) :
    (store.ensureClass name).classes = store.classes.insertIfNew name name := by
  rw [ensureClass, Table.insertIfNew]
  by_cases hname : store.classes.contains name = true
  · rw [if_pos hname, if_pos hname]
  · rw [if_neg hname, if_neg hname, mapClass, hasGivenClass]
    simp [hname]

theorem classes_retold (store : Store) :
    (retold store).classes =
      (store.ownedFields.map (·.1) ++ store.ownedMethods.map (·.1)).foldl
        (fun table name => table.insertIfNew name name) store.classes := by
  have hfields : ∀ (pairs : List (String × FieldMapping)) (target : Store),
      (pairs.foldl (fun target pair => (Entry.ofField pair.1 pair.2).add target) target).classes =
        (pairs.map (·.1)).foldl (fun table name => table.insertIfNew name name) target.classes := by
    intro pairs target
    rw [List.foldl_map]
    refine (List.foldl_hom Store.classes fun target pair => ?_).symm
    rw [Entry.add, mapField_eq_with, classes_ensureClass]
  have hmethods : ∀ (pairs : List (String × MethodMapping)) (target : Store),
      (pairs.foldl (fun target pair => (Entry.ofMethod pair.1 pair.2).add target) target).classes =
        (pairs.map (·.1)).foldl (fun table name => table.insertIfNew name name) target.classes := by
    intro pairs target
    rw [List.foldl_map]
    refine (List.foldl_hom Store.classes fun target pair => ?_).symm
    rw [Entry.add, mapMethod_eq_with, classes_ensureClass]
  have hclasses : (store.classes.entries.foldl (fun target pair =>
      (Entry.ofClass pair.1 pair.2).add target) (empty .applying)).classes = store.classes := by
    refine (congrArg Store.classes (foldl_mapClass_of_nodup store.classes.nodup_keys .applying)).trans ?_
    exact Table.eq_of_entries_eq (Table.entries_ofList store.classes.nodup_keys)
  rw [retold, entries, List.foldl_append, List.foldl_append, List.foldl_map, List.foldl_map,
    List.foldl_map, hmethods, hfields, hclasses, ← List.foldl_append]

/-- The fields of a store that lines have been added to are filled from the field lines. -/
theorem fields_foldl_add (entries : List Entry) (store : Store) :
    (entries.foldl Entry.add store).fields =
      (entries.filterMap Entry.field?).foldl
        (fun table pair => addRow (fun row => (row.name, row.desc)) table pair.1 pair.2)
        store.fields := by
  induction entries generalizing store with
  | nil => rfl
  | cons entry entries ih =>
    rw [List.foldl_cons, ih]
    cases entry with
    | ofClass name mapping => rw [Entry.add, mapClass_eq_with]; rfl
    | ofField owner row => rw [Entry.add, mapField_eq_addRow, ensureClass_eq_with]; rfl
    | ofMethod owner row => rw [Entry.add, mapMethod_eq_with, ensureClass_eq_with]; rfl

/-- The methods are filled from the method lines. -/
theorem methods_foldl_add (entries : List Entry) (store : Store) :
    (entries.foldl Entry.add store).methods =
      (entries.filterMap Entry.method?).foldl
        (fun table pair => addRow (fun row => (row.name, row.desc)) table pair.1 pair.2)
        store.methods := by
  induction entries generalizing store with
  | nil => rfl
  | cons entry entries ih =>
    rw [List.foldl_cons, ih]
    cases entry with
    | ofClass name mapping => rw [Entry.add, mapClass_eq_with]; rfl
    | ofField owner row => rw [Entry.add, mapField_eq_with, ensureClass_eq_with]; rfl
    | ofMethod owner row => rw [Entry.add, mapMethod_eq_addRow, ensureClass_eq_with]; rfl

/-- Of the fields of one name in a class the first comes back. -/
theorem fields_retold (h : store.Tabled) :
    (retold store).fields.entries = store.fields.entries.map fun entry =>
      (entry.1, (firstRows (·.name) entry.2).map FieldMapping.untyped) := by
  have hpairs : (entries store).filterMap Entry.field? =
      store.fields.entries.flatMap fun entry => entry.2.map fun row => (id entry.1, row.untyped) := by
    simp [entries, ownedFields, Entry.field?, List.filterMap_map, Function.comp_def,
      List.filterMap_flatMap]
  rw [retold, fields_foldl_add, hpairs]
  refine (entries_foldl_addRow_image _ _ _ (fun _ _ _ _ howner => howner) h.fields).trans ?_
  refine List.map_congr_left fun entry _ => ?_
  have hkeys : ∀ a b : FieldMapping, (a.untyped.name, a.untyped.desc) = (b.untyped.name, b.untyped.desc) ↔
      a.name = b.name := by
    simp [FieldMapping.untyped]
  rw [firstRows_map hkeys]
  rfl

theorem methods_retold (h : store.Tabled) : (retold store).methods = store.methods := by
  have hpairs : (entries store).filterMap Entry.method? =
      store.methods.entries.flatMap fun entry => entry.2.map fun row => (id entry.1, id row) := by
    simp [entries, ownedMethods, Entry.method?, List.filterMap_map, Function.comp_def]
  refine Table.eq_of_entries_eq ?_
  rw [retold, methods_foldl_add, hpairs]
  refine (entries_foldl_addRow_image _ _ _ (fun _ _ _ _ howner => howner) h.methods).trans ?_
  refine (List.map_congr_left fun entry hentry => ?_).trans (List.map_id _)
  have hdistinct := (forall_nodup_iff (fun row : MethodMapping => (row.name, row.desc)) _).1
    h.distinct.methods entry hentry
  rw [List.map_id, firstRows_of_nodup hdistinct]
  rfl

end Srg
end JvmArchive.Mapping
