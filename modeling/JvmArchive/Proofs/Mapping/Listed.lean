import JvmArchive.Proofs.Mapping.NewNames
import JvmArchive.Proofs.Mapping.Reread

/-!
# What a store lists

A file that a store writes tells of the classes that have a mapping, in their order, and of the rows of
these classes. So the store that the file is read into has the same classes and the same rows below them.
-/
namespace JvmArchive.Mapping

namespace Store

variable {store : Store}

/-- Rows for different members are added to a class as they are. -/
theorem rows_foldl {ρ κ : Type} (rowsOf : Store → String → List ρ) (key : ρ → κ) (className : String)
    {add : Store → ρ → Store}
    (hadd : ∀ target row name, key row ∉ (rowsOf target className).map key →
      rowsOf (add target row) name = rowsOf target name ++ if className = name then [row] else [])
    (rows : List ρ) (target : Store) (h : ((rowsOf target className ++ rows).map key).Nodup)
    (name : String) :
    rowsOf (rows.foldl add target) name =
      rowsOf target name ++ if className = name then rows else [] := by
  induction rows generalizing target with
  | nil => simp
  | cons row rows ih =>
    have hnew : key row ∉ (rowsOf target className).map key := by
      rw [List.map_append, List.nodup_append] at h
      exact fun hmem => h.2.2 _ hmem (key row) (by simp) rfl
    have hnext : ((rowsOf (add target row) className ++ rows).map key).Nodup := by
      rw [hadd target row className hnew, if_pos rfl]
      simpa using h
    rw [List.foldl_cons, ih _ hnext, hadd target row name hnew]
    split <;> simp

theorem classFields_mapField_of_new {target : Store} {className : String} {row : FieldMapping}
    (h : (row.name, row.desc) ∉ (target.classFields className).map fun row => (row.name, row.desc))
    (name : String) :
    (target.mapField className row).classFields name =
      target.classFields name ++ if className = name then [row] else [] := by
  have hnew : target.fieldRow? className row.name row.desc = none := by
    rw [fieldRow?, List.find?_eq_none]
    intro other hother hsame
    exact h (List.mem_map.2 ⟨other, hother, by simpa using hsame⟩)
  rw [classFields_mapField]
  simp [hnew]

theorem classMethods_mapMethod_of_new {target : Store} {className : String} {row : MethodMapping}
    (h : (row.name, row.desc) ∉ (target.classMethods className).map fun row => (row.name, row.desc))
    (name : String) :
    (target.mapMethod className row).classMethods name =
      target.classMethods name ++ if className = name then [row] else [] := by
  have hnew : target.methodRow? className row.name row.desc = none := by
    rw [methodRow?, List.find?_eq_none]
    intro other hother hsame
    exact h (List.mem_map.2 ⟨other, hother, by simpa using hsame⟩)
  rw [classMethods_mapMethod]
  simp [hnew]

/-- Whether a store holds some classes of another store with their rows, and nothing else. -/
structure Lists (source : Store) (pairs : List (String × String)) (target : Store) : Prop where
  direction : target.direction = .reversing
  implied : target.implied = []
  classes : target.classes.entries = pairs
  names : ∀ key, target.names.get? key = (pairs.find? (·.2 = key)).map (·.1)
  fields : ∀ name, target.classFields name =
    if name ∈ pairs.map (·.1) then (source.classFields name).map FieldMapping.told else []
  methods : ∀ name, target.classMethods name =
    if name ∈ pairs.map (·.1) then (source.classMethods name).map MethodMapping.told else []

theorem lists_empty (source : Store) : Lists source [] (.empty .reversing) where
  direction := rfl
  implied := rfl
  classes := rfl
  names _ := rfl
  fields _ := rfl
  methods _ := rfl

theorem foldl_mapField_eq (className : String) (rows : List FieldMapping) (target : Store) :
    ∃ fields, rows.foldl (fun target row => target.mapField className row.told) target =
      { target with fields } :=
  List.foldlRecOn rows _ (motive := fun after : Store => ∃ fields, after = { target with fields })
    ⟨_, rfl⟩ fun after ⟨fields, hafter⟩ row _ => by
      rw [hafter, mapField_eq_with]
      exact ⟨_, rfl⟩

theorem foldl_mapMethod_eq (className : String) (rows : List MethodMapping) (target : Store) :
    ∃ methods, rows.foldl (fun target row => target.mapMethod className row.told) target =
      { target with methods } :=
  List.foldlRecOn rows _ (motive := fun after : Store => ∃ methods, after = { target with methods })
    ⟨_, rfl⟩ fun after ⟨methods, hafter⟩ row _ => by
      rw [hafter, mapMethod_eq_with]
      exact ⟨_, rfl⟩

/-- The rows of one more class come to those of the others. -/
theorem rows_append {ρ : Type} (pairs : List (String × String)) (pair : String × String)
    (hnew : pair.1 ∉ pairs.map (·.1)) (rows : String → List ρ) (name : String) :
    ((if name ∈ pairs.map (·.1) then rows name else []) ++ if pair.1 = name then rows pair.1 else []) =
      if name ∈ (pairs ++ [pair]).map (·.1) then rows name else [] := by
  rw [List.map_append, List.map_singleton]
  by_cases hname : pair.1 = name
  · subst hname
    simp [hnew]
  · have hmem : name ∈ pairs.map (·.1) ++ [pair.1] ↔ name ∈ pairs.map (·.1) := by
      rw [List.mem_append, List.mem_singleton]
      exact or_iff_left (Ne.symm hname)
    simp only [hmem, if_neg hname, List.append_nil]

section
variable {source target : Store} {pairs : List (String × String)} (h : Lists source pairs target)
  {pair : String × String} (hnew : pair.1 ∉ pairs.map (·.1))
include h hnew

theorem Lists.mapClass_of_new : target.mapClass pair.1 pair.2 =
    { target with
      names := target.names.insertIfNew pair.2 pair.1
      classes := target.classes.insert pair.1 pair.2 } := by
  have hunmapped : target.classes.get? pair.1 = none := by
    rw [Table.get?, h.classes, Table.find?_of_not_mem hnew]
    rfl
  rw [mapClass_eq h.implied, hunmapped]
  rfl

/-- Besides its rows, one more class changes only the tables of class names. -/
theorem Lists.exists_addListed_eq : ∃ fields methods, source.addListed target pair =
    { target with
      names := target.names.insertIfNew pair.2 pair.1
      classes := target.classes.insert pair.1 pair.2
      fields
      methods } := by
  obtain ⟨fields, hfields⟩ := foldl_mapField_eq pair.1 (source.classFields pair.1)
    (target.mapClass pair.1 pair.2)
  obtain ⟨methods, hmethods⟩ := foldl_mapMethod_eq pair.1 (source.classMethods pair.1)
    ((source.classFields pair.1).foldl (fun target row => target.mapField pair.1 row.told)
      (target.mapClass pair.1 pair.2))
  exact ⟨fields, methods, by rw [Store.addListed, hmethods, hfields, h.mapClass_of_new hnew]⟩

variable (hdistinct : DistinctMembers source)
include hdistinct

theorem Lists.classFields_addListed (name : String) :
    (source.addListed target pair).classFields name =
      target.classFields name ++
        if pair.1 = name then (source.classFields pair.1).map FieldMapping.told else [] := by
  have hclass (name : String) :
      (target.mapClass pair.1 pair.2).classFields name = target.classFields name := by
    rw [h.mapClass_of_new hnew]
    rfl
  have hkeys : (((target.mapClass pair.1 pair.2).classFields pair.1 ++
      (source.classFields pair.1).map FieldMapping.told).map
        fun row => (row.name, row.desc)).Nodup := by
    rw [hclass, h.fields, if_neg hnew, List.nil_append, List.map_map]
    exact hdistinct.fields pair.1
  have hrows := rows_foldl Store.classFields (fun row : FieldMapping => (row.name, row.desc)) pair.1
    (fun _ _ name hrow => classFields_mapField_of_new hrow name) _ _ hkeys name
  obtain ⟨methods, hmethods⟩ := foldl_mapMethod_eq pair.1 (source.classMethods pair.1)
    ((source.classFields pair.1).foldl (fun target row => target.mapField pair.1 row.told)
      (target.mapClass pair.1 pair.2))
  rw [List.foldl_map, hclass] at hrows
  rw [Store.addListed, hmethods]
  exact hrows

theorem Lists.classMethods_addListed (name : String) :
    (source.addListed target pair).classMethods name =
      target.classMethods name ++
        if pair.1 = name then (source.classMethods pair.1).map MethodMapping.told else [] := by
  have hclass (name : String) :
      ((source.classFields pair.1).foldl (fun target row => target.mapField pair.1 row.told)
        (target.mapClass pair.1 pair.2)).classMethods name = target.classMethods name := by
    obtain ⟨fields, hfields⟩ := foldl_mapField_eq pair.1 (source.classFields pair.1)
      (target.mapClass pair.1 pair.2)
    rw [hfields, h.mapClass_of_new hnew]
    rfl
  have hkeys : ((((source.classFields pair.1).foldl
      (fun target row => target.mapField pair.1 row.told)
      (target.mapClass pair.1 pair.2)).classMethods pair.1 ++
      (source.classMethods pair.1).map MethodMapping.told).map
        fun row => (row.name, row.desc)).Nodup := by
    rw [hclass, h.methods, if_neg hnew, List.nil_append, List.map_map]
    exact hdistinct.methods pair.1
  have hrows := rows_foldl Store.classMethods (fun row : MethodMapping => (row.name, row.desc)) pair.1
    (fun _ _ name hrow => classMethods_mapMethod_of_new hrow name) _ _ hkeys name
  rw [List.foldl_map, hclass] at hrows
  exact hrows

theorem Lists.addListed : Lists source (pairs ++ [pair]) (source.addListed target pair) := by
  obtain ⟨fields, methods, hall⟩ := h.exists_addListed_eq hnew
  refine ⟨?_, ?_, ?_, fun key => ?_, fun name => ?_, fun name => ?_⟩
  · rw [hall]
    exact h.direction
  · rw [hall]
    exact h.implied
  · rw [hall]
    exact (Table.insertEntry_of_not_mem (h.classes ▸ hnew)).trans (h.classes ▸ rfl)
  · have hfound : (pairs ++ [pair]).find? (·.2 = key) =
        (pairs.find? (·.2 = key)).or (if pair.2 = key then some pair else none) := by
      rw [List.find?_append]
      by_cases hkey : pair.2 = key <;> simp [hkey]
    rw [hall, hfound]
    dsimp only
    rw [Table.get?_insertIfNew, h.names, Option.map_or]
    split <;> rfl
  · rw [h.classFields_addListed hnew hdistinct, h.fields]
    exact rows_append pairs pair hnew
      (fun name => (source.classFields name).map FieldMapping.told) name
  · rw [h.classMethods_addListed hnew hdistinct, h.methods]
    exact rows_append pairs pair hnew
      (fun name => (source.classMethods name).map MethodMapping.told) name

end

theorem lists_listed (hdistinct : DistinctMembers store) :
    Lists store store.classes.entries store.listed := by
  have hall : ∀ rest pairs target, Lists store pairs target → ((pairs ++ rest).map (·.1)).Nodup →
      Lists store (pairs ++ rest) (rest.foldl store.addListed target) := by
    intro rest
    induction rest with
    | nil =>
      intro pairs target h _
      simpa using h
    | cons pair rest ih =>
      intro pairs target h hnodup
      have hnew : pair.1 ∉ pairs.map (·.1) := by
        rw [List.map_append, List.nodup_append] at hnodup
        exact fun hmem => hnodup.2.2 _ hmem pair.1 (by simp) rfl
      have hnext := ih (pairs ++ [pair]) _ (h.addListed hnew hdistinct) (by simpa using hnodup)
      simpa using hnext
  exact hall store.classes.entries [] _ (lists_empty store) store.classes.nodup_keys

/-! ## Read back -/

/-- What a store has after it has been written to a file and read back. -/
def reread (store : Store) : Store := store.listed.completeDescriptors

variable (hdistinct : DistinctMembers store)
include hdistinct

theorem classes_listed : store.listed.classes = store.classes :=
  Table.eq_of_entries_eq (lists_listed hdistinct).classes

/-- Types are mapped as before. -/
theorem mapType_listed (hfirst : NamesFirst store) (desc : String) :
    store.listed.mapType desc = store.mapType desc := by
  have hclass : ∀ key, store.listed.class? key = store.class? key := by
    intro key
    rw [class?, class?, classes_listed hdistinct]
  have hmapping : ∀ key, store.listed.classByMapping? key = store.classByMapping? key := by
    intro key
    rw [classByMapping?, classByMapping?, (lists_listed hdistinct).names key, hfirst key]
    exact congrArg _ (funext hclass)
  have hfor : ∀ key, store.listed.classFor? key = store.classFor? key := by
    intro key
    rw [classFor?, classFor?, hclass, hmapping]
  rw [mapType, mapType, funext hfor]

/-- The rows of a class with a mapping come back as they were, if their mapped types were computed from
the classes. -/
theorem classFields_reread (hfirst : NamesFirst store) (hcompleted : Completed store)
    (name : String) :
    store.reread.classFields name =
      if (store.classes.get? name).isSome then store.classFields name else [] := by
  rw [reread, classFields_completeDescriptors, (lists_listed hdistinct).fields]
  simp only [← Table.isSome_get?_iff]
  split
  · rw [List.map_map]
    refine (List.map_congr_left fun row hrow => ?_).trans (List.map_id' _)
    simp [FieldMapping.told, mapType_listed hdistinct hfirst, ← hcompleted.fields name row hrow]
  · rfl

theorem classMethods_reread (hfirst : NamesFirst store) (hcompleted : Completed store)
    (name : String) :
    store.reread.classMethods name =
      if (store.classes.get? name).isSome then store.classMethods name else [] := by
  rw [reread, classMethods_completeDescriptors, (lists_listed hdistinct).methods]
  simp only [← Table.isSome_get?_iff]
  split
  · rw [List.map_map]
    refine (List.map_congr_left fun row hrow => ?_).trans (List.map_id' _)
    simp [MethodMapping.told, mapType_listed hdistinct hfirst, ← hcompleted.methods name row hrow]
  · rfl

end Store
end JvmArchive.Mapping
