import JvmArchive.Proofs.Mapping.Srg.Reread

/-!
# Names exchanged by SRG files

A store that has been written to an SRG file and read back exchanges the names that it exchanged before,
and each class that has members but no mapping for itself. Field lines tell no types, so where the fields
of one name in a class have different mappings only the first of these can be reversed.
-/
namespace JvmArchive.Mapping

namespace Store

variable {store : Store}

/-- The store without the fields that have the name of an earlier one in their class. -/
def firstFields (store : Store) : Store :=
  { store with fields := store.fields.map fun _ rows => firstRows (·.name) rows }

/-- Whether the fields of one name in a class have one mapping. -/
def FieldsAgree (store : Store) : Prop :=
  ∀ entry ∈ store.fields.entries, ∀ row ∈ entry.2, ∀ other ∈ entry.2, row.name = other.name →
    row.mapping = other.mapping

instance (store : Store) : Decidable store.FieldsAgree :=
  inferInstanceAs (Decidable (∀ _ ∈ _, _))

/-- The name of a class with members that has no mapping, for itself. -/
def unlisted? (store : Store) (name : String) : Option String :=
  if store.HasRows name ∧ store.classes.get? name = none then some name else none

theorem fieldRows_firstFields (store : Store) (direction : Direction) :
    fieldRows { store.firstFields with direction } =
      store.fields.entries.flatMap fun entry => (firstRows (·.name) entry.2).map fun row =>
        (fieldKey (ownerName { store with direction } entry.1)
          (direction.orient row.name row.mapping).1, (direction.orient row.name row.mapping).2) := by
  change (store.fields.entries.map fun entry =>
    (entry.1, firstRows (fun row : FieldMapping => row.name) entry.2)).flatMap _ = _
  rw [List.flatMap_map]
  rfl

theorem find?_flatMap_congr {α β : Type} {items : List α} {f g : α → List β} {p : β → Bool}
    (h : ∀ item ∈ items, (f item).find? p = (g item).find? p) :
    (items.flatMap f).find? p = (items.flatMap g).find? p := by
  induction items with
  | nil => rfl
  | cons item items ih =>
    rw [List.forall_mem_cons] at h
    rw [List.flatMap_cons, List.flatMap_cons, List.find?_append, List.find?_append, h.1, ih h.2]

/-- If fields of one name have one mapping, the first of them exchanges what they all do; applied, they
do so anyway. -/
theorem get?_flatten_firstFields {direction : Direction}
    (hagree : direction = .applying ∨ store.FieldsAgree) (key : String) :
    { store.firstFields with direction }.flatten.get? key =
      { store with direction }.flatten.get? key := by
  have hrows : (fieldRows { store.firstFields with direction }).find? (·.1 = key) =
      (fieldRows { store with direction }).find? (·.1 = key) := by
    rw [fieldRows_firstFields, fieldRows]
    refine find?_flatMap_congr fun entry hentry => ?_
    rw [List.find?_map, List.find?_map]
    congr 1
    refine find?_firstRows fun row hrow other hother hname => ?_
    rcases hagree with rfl | hagree
    · simp [Direction.orient, hname]
    · simp [hname, hagree entry hentry row hrow other hother hname]
  rw [flatten, flatten, Table.get?_firsts, Table.get?_firsts, List.find?_append, List.find?_append,
    List.find?_append, List.find?_append, hrows]
  rfl

/-- The classes with members are those of the fields and the methods. -/
theorem hasRows_iff {name : String} :
    store.HasRows name ↔
      name ∈ store.ownedFields.map (·.1) ++ store.ownedMethods.map (·.1) := by
  have hmem : ∀ {ρ : Type} (table : Table String (List ρ)),
      (table.get? name).getD [] ≠ [] ↔
        name ∈ (table.entries.flatMap fun entry => entry.2.map fun row => (entry.1, row)).map (·.1) := by
    intro ρ table
    simp only [List.mem_map, List.mem_flatMap]
    constructor
    · intro h
      obtain ⟨row, hrow⟩ := List.exists_mem_of_ne_nil _ h
      cases hrows : table.get? name with
      | none => simp [hrows] at hrow
      | some rows =>
        rw [hrows] at hrow
        exact ⟨(name, row), ⟨(name, rows), Table.mem_entries_of_get? hrows, row, hrow, rfl⟩, rfl⟩
    · rintro ⟨-, ⟨entry, hentry, row, hrow, rfl⟩, rfl⟩
      rw [Table.get?_of_mem_entries hentry]
      exact List.ne_nil_of_mem hrow
  rw [HasRows, List.mem_append]
  exact or_congr (hmem store.fields) (hmem store.methods)

end Store

namespace Srg

open Store

variable {store : Store}

/-- Behind its classes a store that was read has those that had members only. -/
theorem exists_entries_classes_retold (store : Store) :
    ∃ added : List String,
      (retold store).classes.entries =
        store.classes.entries ++ added.map (fun name => (name, name)) ∧
      ∀ name, name ∈ added ↔ store.HasRows name ∧ store.classes.get? name = none := by
  simp only [hasRows_iff]
  rw [classes_retold]
  exact Table.exists_entries_foldl_insertIfNew id _ store.classes

/-- New names of classes are the same as before. -/
theorem mappedName_retold (store : Store) : (retold store).mappedName = store.mappedName := by
  obtain ⟨added, hentries, -⟩ := exists_entries_classes_retold store
  funext name
  rw [mappedName, mappedName, Table.get?, Table.get?, hentries, List.find?_append, List.find?_map]
  cases store.classes.entries.find? (·.1 = name) with
  | some entry => rfl
  | none =>
    rw [Option.none_or]
    cases hfound : added.find? ((fun pair : String × String => decide (pair.1 = name)) ∘
        fun name => (name, name)) with
    | none => rfl
    | some found =>
      have hname := List.find?_some hfound
      simpa using hname

theorem ownerName_retold (store : Store) (direction : Direction) :
    ownerName { retold store with direction } = ownerName { store with direction } := by
  funext name
  cases direction with
  | applying => rfl
  | reversing => exact congrFun (mappedName_retold store) name

/-- A key without a dot is no key of a member. -/
theorem find?_memberRows_of_not_mem (store : Store) {key : String} (hkey : '.' ∉ key.toList) :
    (fieldRows store).find? (·.1 = key) = none ∧
      (methodRows store).find? (·.1 = key) = none := by
  constructor
  · rw [List.find?_eq_none]
    rintro row hrow hsame
    obtain ⟨entry, -, hmem⟩ := List.mem_flatMap.1 hrow
    obtain ⟨field, -, rfl⟩ := List.mem_map.1 hmem
    rw [decide_eq_true_eq, ← String.toList_inj, toList_fieldKey] at hsame
    exact hkey (hsame ▸ by simp)
  · rw [List.find?_eq_none]
    rintro row hrow hsame
    obtain ⟨entry, -, hmem⟩ := List.mem_flatMap.1 hrow
    obtain ⟨method, -, rfl⟩ := List.mem_map.1 hmem
    rw [decide_eq_true_eq, ← String.toList_inj, toList_methodKey] at hsame
    exact hkey (hsame ▸ by simp)

section
variable (htabled : store.Tabled) (direction : Direction)
include htabled

theorem fieldRows_retold :
    fieldRows { retold store with direction } = fieldRows { store.firstFields with direction } := by
  rw [fieldRows_firstFields, fieldRows, ownerName_retold]
  dsimp only
  rw [fields_retold htabled, List.flatMap_map]
  simp only [List.map_map]
  rfl

theorem methodRows_retold :
    methodRows { retold store with direction } = methodRows { store.firstFields with direction } := by
  rw [methodRows, methodRows, ownerName_retold]
  dsimp only
  rw [methods_retold htabled]
  rfl

/-- What a store that was read exchanges. -/
theorem get?_flatten_retold (h : IsWritable store) (key : String) :
    { retold store with direction }.flatten.get? key =
      ({ store.firstFields with direction }.flatten.get? key).or (store.unlisted? key) := by
  obtain ⟨added, hentries, hadded⟩ := exists_entries_classes_retold store
  have hclasses : classRows { retold store with direction } =
      classRows { store.firstFields with direction } ++ added.map (fun name => (name, name)) := by
    rw [classRows, hentries, List.map_append, List.map_map]
    cases direction <;> rfl
  rw [flatten, flatten, Table.get?_firsts, Table.get?_firsts, List.find?_append, List.find?_append,
    List.find?_append, List.find?_append, fieldRows_retold htabled, methodRows_retold htabled, hclasses,
    List.find?_append]
  by_cases hkey : key ∈ added
  · have hrows := (hadded key).1 hkey
    obtain ⟨hfields, hmethods⟩ :=
      find?_memberRows_of_not_mem { store.firstFields with direction } (h.isPath_of_hasRows hrows.1).dot
    have hfound : (added.map fun name => (name, name)).find? (·.1 = key) = some (key, key) := by
      have hself : (key, key) ∈ added.map fun name => (name, name) := List.mem_map.2 ⟨key, hkey, rfl⟩
      obtain ⟨pair, hpair⟩ := Option.isSome_iff_exists.1 (List.find?_isSome
        (p := fun pair : String × String => pair.1 = key).2 ⟨(key, key), hself, by simp⟩)
      obtain ⟨name, -, rfl⟩ := List.mem_map.1 (List.mem_of_find?_eq_some hpair)
      obtain rfl : name = key := by simpa using List.find?_some hpair
      exact hpair
    rw [unlisted?, if_pos hrows, hfields, hmethods, hfound]
    cases (classRows { store.firstFields with direction }).find? (·.1 = key) <;> rfl
  · have hnone : (added.map fun name => (name, name)).find? (·.1 = key) = none :=
      Table.find?_of_not_mem (by simpa [Function.comp_def] using hkey)
    rw [unlisted?, if_neg (mt (hadded key).2 hkey), hnone, Option.or_none, Option.or_none]

end

/-! ## Stores made by insertions -/

/-- Every store whose names can be written down is read back from its SRG file. In both directions the
store that is read exchanges what the first fields of each name and all other rows do, and besides each
class with members but no mapping for itself. Applied, this is all that the store exchanges; reversed, it
is if fields of one name in a class have one mapping. -/
theorem exists_ofText_write_made (start : Direction) (insertions : List Insertion)
    (h : IsWritable (made start insertions)) :
    let store := made start insertions
    ∃ loaded, Format.ofText .srg (Format.write .srg store) = .ok loaded ∧ ∀ direction key,
      { loaded with direction }.flatten.get? key =
          ({ store.firstFields with direction }.flatten.get? key).or (store.unlisted? key) ∧
        (direction = .applying ∨ store.FieldsAgree →
          { loaded with direction }.flatten.get? key =
            ({ store with direction }.flatten.get? key).or (store.unlisted? key)) := by
  intro store
  refine ⟨retold store, ofText_write h, fun direction key => ?_⟩
  have hretold := get?_flatten_retold (tabled_made start insertions) direction h key
  refine ⟨hretold, fun hagree => ?_⟩
  rw [hretold, get?_flatten_firstFields hagree]

/-- Two fields of one name and of different types that get different names. -/
def overloaded : List Insertion :=
  [.mapField "A" { name := "x", mapping := "a", desc := "I" },
    .mapField "A" { name := "x", mapping := "b", desc := "J" }]

/-- The store that is read back cannot reverse the second of two fields of one name. -/
theorem not_reversed_overloaded :
    IsWritable (made .reversing overloaded) ∧
      ∃ loaded, Format.ofText .srg (Format.write .srg (made .reversing overloaded)) = .ok loaded ∧
        (made .reversing overloaded).flatten.get? "A.b" = some "x" ∧
        { loaded with direction := .reversing }.flatten.get? "A.b" = none := by
  have h : IsWritable (made .reversing overloaded) := by decide +kernel
  exact ⟨h, retold (made .reversing overloaded), ofText_write h, by decide +kernel, by decide +kernel⟩

/-- More mappings for the class of these fields, for a class that is mapped and for one that is implied. -/
def overloadedMore : List Insertion :=
  overloaded ++ [.mapClass "p/B" "A", .mapMethod "p/B" { name := "m", mapping := "n", desc := "(Lp/B;)V" },
    .ensureClass "p/C", .mapField "p/C" { name := "y", mapping := "z", desc := "" },
    .completeDescriptors]

/-- Applied, `A` comes to stand for itself; reversed, it stands for `p/B` as before. -/
theorem flatten_overloadedMore :
    IsWritable (made .applying overloadedMore) ∧
      ∃ loaded, Format.ofText .srg (Format.write .srg (made .applying overloadedMore)) = .ok loaded ∧
        { loaded with direction := .applying }.flatten.get? "A" = some "A" ∧
        { loaded with direction := .reversing }.flatten.get? "A" = some "p/B" ∧
        { loaded with direction := .applying }.flatten.get? "A.x" = some "a" ∧
        { loaded with direction := .reversing }.flatten.get? "A.n(LA;)V" = some "m" := by
  have h : IsWritable (made .applying overloadedMore) := by decide +kernel
  obtain ⟨loaded, hloaded, hsame⟩ := exists_ofText_write_made .applying overloadedMore h
  refine ⟨h, loaded, hloaded, ?_, ?_, ?_, ?_⟩
  · rw [(hsame .applying "A").2 (.inl rfl)]
    decide +kernel
  · rw [(hsame .reversing "A").1]
    decide +kernel
  · rw [(hsame .applying "A.x").2 (.inl rfl)]
    decide +kernel
  · rw [(hsame .reversing "A.n(LA;)V").1]
    decide +kernel

end Srg
end JvmArchive.Mapping
