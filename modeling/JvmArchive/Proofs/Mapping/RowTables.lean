import JvmArchive.Proofs.Mapping.Insertions

/-!
# Tables of rows

The fields and the methods of a store are tables of rows, one for each class, in which no two rows are
for one member. Filling such a table from others keeps of the rows for one member the first.
-/
namespace JvmArchive.Mapping

section
variable {ρ ι : Type} [DecidableEq ι] (key : ρ → ι)

/-! ## First rows -/

/-- The rows that are the first ones with their keys. -/
def firstRows : List ρ → List ρ
  | [] => []
  | row :: rows => row :: (firstRows rows).filter fun other => key other ≠ key row

variable {key}

theorem mem_of_mem_firstRows {rows : List ρ} {row : ρ} (h : row ∈ firstRows key rows) : row ∈ rows := by
  induction rows with
  | nil => exact h
  | cons first rows ih =>
    rcases List.mem_cons.1 h with rfl | hrest
    · exact List.mem_cons_self
    · exact List.mem_cons_of_mem _ (ih (List.mem_filter.1 hrest).1)

/-- Rows with different keys are all first. -/
theorem firstRows_of_nodup {rows : List ρ} (h : (rows.map key).Nodup) : firstRows key rows = rows := by
  induction rows with
  | nil => rfl
  | cons row rows ih =>
    rw [List.map_cons, List.nodup_cons] at h
    rw [firstRows, ih h.2, List.filter_eq_self.2]
    intro other hother
    rw [decide_eq_true_iff]
    intro hkey
    exact h.1 (hkey ▸ List.mem_map_of_mem hother)

/-- First rows of images are images of first rows where the keys tell apart the same. -/
theorem firstRows_map {σ γ : Type} [DecidableEq γ] {g : σ → ρ} {origin : σ → γ}
    (h : ∀ a b, key (g a) = key (g b) ↔ origin a = origin b) (rows : List σ) :
    firstRows key (rows.map g) = (firstRows origin rows).map g := by
  induction rows with
  | nil => rfl
  | cons row rows ih =>
    rw [List.map_cons, firstRows, firstRows, ih, List.map_cons, List.filter_map]
    simp [Function.comp_def, h]

/-- A test that sees only the keys finds the same row among the first ones. -/
theorem find?_firstRows {rows : List ρ} {p : ρ → Bool}
    (h : ∀ row ∈ rows, ∀ other ∈ rows, key row = key other → p row = p other) :
    (firstRows key rows).find? p = rows.find? p := by
  induction rows with
  | nil => rfl
  | cons row rows ih =>
    have hrest := ih fun a ha b hb => h a (List.mem_cons_of_mem _ ha) b (List.mem_cons_of_mem _ hb)
    rw [firstRows, List.find?_cons, List.find?_cons, ← hrest]
    cases hrow : p row with
    | true => rfl
    | false =>
      -- what is left out has the key of a row that fails the test
      rw [List.find?_filter]
      refine List.find?_congr fun other hother => ?_
      by_cases hkey : key other = key row
      · have hsame := h other (List.mem_cons_of_mem _ (mem_of_mem_firstRows hother)) row
          List.mem_cons_self hkey
        simp [hkey, hsame, hrow]
      · simp [hkey]

/-! ## Filling a table -/

variable (key)

/-- A table with one more row behind the others of its owner, unless one of them has its key. -/
def addRow (table : Table String (List ρ)) (owner : String) (row : ρ) : Table String (List ρ) :=
  if key row ∈ ((table.get? owner).getD []).map key then table
  else table.insert owner ((table.get? owner).getD [] ++ [row])

variable {key}

theorem insertEntry_concat {owner : String} {rows kept : List ρ} {before : List (String × List ρ)}
    (h : owner ∉ before.map (·.1)) :
    Table.insertEntry owner rows (before ++ [(owner, kept)]) = before ++ [(owner, rows)] := by
  induction before with
  | nil => simp [Table.insertEntry]
  | cons entry before ih =>
    rw [List.map_cons, List.mem_cons, not_or] at h
    rw [List.cons_append, Table.insertEntry, if_neg (Ne.symm h.1), ih h.2, List.cons_append]

/-- More rows for the owner who came last. -/
theorem entries_foldl_addRow_last (rows : List ρ) {table : Table String (List ρ)} {owner : String}
    {before : List (String × List ρ)} {kept : List ρ}
    (h : table.entries = before ++ [(owner, kept)]) :
    (rows.foldl (fun table row => addRow key table owner row) table).entries =
      before ++ [(owner, kept ++ (firstRows key rows).filter fun row => key row ∉ kept.map key)] := by
  induction rows generalizing table kept with
  | nil => simpa [firstRows] using h
  | cons row rows ih =>
    have hget : table.get? owner = some kept := by
      refine Table.get?_of_mem_entries ?_
      simp [h]
    rw [List.foldl_cons, addRow, hget, Option.getD_some]
    by_cases hkey : key row ∈ kept.map key
    · rw [if_pos hkey, ih h, firstRows, List.filter_cons_of_neg (by simpa using hkey),
        List.filter_filter]
      congr 4
      refine List.filter_congr fun other _ => ?_
      by_cases hother : key other = key row
      · simp only [hother, hkey]
        rfl
      · simp [hother]
    · have howner : owner ∉ before.map (·.1) := by
        have hnodup := table.nodup_keys
        rw [h, List.map_append, List.nodup_append] at hnodup
        exact fun hmem => hnodup.2.2 _ hmem owner (by simp) rfl
      have hentries : (table.insert owner (kept ++ [row])).entries =
          before ++ [(owner, kept ++ [row])] := by
        have hinsert : Table.insertEntry owner (kept ++ [row]) (before ++ [(owner, kept)]) =
            before ++ [(owner, kept ++ [row])] := insertEntry_concat howner
        rwa [← h] at hinsert
      rw [if_neg hkey, ih hentries, firstRows, List.filter_cons_of_pos (by simpa using hkey),
        List.filter_filter, List.append_assoc, List.singleton_append]
      congr 5
      refine List.filter_congr fun other _ => ?_
      rw [List.map_append, List.map_singleton, Bool.eq_iff_iff]
      simp [not_or, and_comm]

variable (key)

/-- The rows of a new owner come behind all others. -/
theorem entries_foldl_addRow_new {rows : List ρ} (hrows : rows ≠ []) {table : Table String (List ρ)}
    {owner : String} (hnew : owner ∉ table.entries.map (·.1)) :
    (rows.foldl (fun table row => addRow key table owner row) table).entries =
      table.entries ++ [(owner, firstRows key rows)] := by
  cases rows with
  | nil => exact absurd rfl hrows
  | cons row rows =>
    have hget : table.get? owner = none := by
      rw [Table.get?, Table.find?_of_not_mem hnew]
      rfl
    have hentries : (table.insert owner [row]).entries = table.entries ++ [(owner, [row])] :=
      Table.insertEntry_of_not_mem hnew
    rw [List.foldl_cons, addRow, hget]
    simp only [Option.getD_none, List.map_nil, List.not_mem_nil, if_false, List.nil_append]
    rw [entries_foldl_addRow_last rows hentries, firstRows]
    simp

/-- Tables of different new owners come behind all others, each with its first rows. -/
theorem entries_foldl_addRow (tables : List (String × List ρ)) (table : Table String (List ρ))
    (howners : (table.entries.map (·.1) ++ tables.map (·.1)).Nodup)
    (hrows : ∀ entry ∈ tables, entry.2 ≠ []) :
    ((tables.flatMap fun entry => entry.2.map fun row => (entry.1, row)).foldl
      (fun table pair => addRow key table pair.1 pair.2) table).entries =
        table.entries ++ tables.map fun entry => (entry.1, firstRows key entry.2) := by
  induction tables generalizing table with
  | nil => simp
  | cons entry tables ih =>
    rw [List.forall_mem_cons] at hrows
    have hnew : entry.1 ∉ table.entries.map (·.1) := by
      intro hmem
      exact (List.nodup_append.1 howners).2.2 _ hmem _ List.mem_cons_self rfl
    have hentries := entries_foldl_addRow_new key hrows.1 hnew
    rw [List.flatMap_cons, List.foldl_append, List.foldl_map, ih _ ?_ hrows.2, hentries]
    · simp
    · rw [hentries]
      simpa using howners

/-- Tables whose owners get other names, none of them twice, and whose rows are changed fill an empty
table with the first of the changed rows. -/
theorem entries_foldl_addRow_image {σ : Type} (f : String → String) (g : σ → ρ)
    {table : Table String (List σ)}
    (howners : ∀ a ∈ table.entries, ∀ b ∈ table.entries, f a.1 = f b.1 → a.1 = b.1)
    (hrows : ∀ entry ∈ table.entries, entry.2 ≠ []) :
    ((table.entries.flatMap fun entry => entry.2.map fun row => (f entry.1, g row)).foldl
      (fun table pair => addRow key table pair.1 pair.2) .empty).entries =
        table.entries.map fun entry => (f entry.1, firstRows key (entry.2.map g)) := by
  let images := table.entries.map fun entry => (f entry.1, entry.2.map g)
  have hpairs : (table.entries.flatMap fun entry => entry.2.map fun row => (f entry.1, g row)) =
      images.flatMap fun entry => entry.2.map fun row => (entry.1, row) := by
    simp [images, List.flatMap_map, Function.comp_def]
  have hnodup : (images.map (·.1)).Nodup := by
    have hkeyed : table.entries.Nodup := List.Nodup.of_map _ table.nodup_keys
    rw [List.map_map]
    refine hkeyed.map_on fun a ha b hb hsame => ?_
    exact List.inj_on_of_nodup_map table.nodup_keys ha hb (howners a ha b hb hsame)
  have hnonempty : ∀ image ∈ images, image.2 ≠ [] := by
    intro image himage
    obtain ⟨entry, hentry, rfl⟩ := List.mem_map.1 himage
    simpa using hrows entry hentry
  have hfilled := entries_foldl_addRow key images .empty (by simpa [Table.empty] using hnodup) hnonempty
  rw [hpairs, hfilled]
  simp [images, Table.empty]

end

/-- What every owner's rows have, be they none, is what the rows of every table have. -/
theorem forall_getD_get?_iff {ρ : Type} {P : List ρ → Prop} (hnil : P []) (table : Table String (List ρ)) :
    (∀ owner, P ((table.get? owner).getD [])) ↔ ∀ entry ∈ table.entries, P entry.2 := by
  constructor
  · intro h entry hentry
    have hrows := h entry.1
    rwa [Table.get?_of_mem_entries hentry] at hrows
  · intro h owner
    cases hrows : table.get? owner with
    | none => exact hnil
    | some rows => exact h _ (Table.mem_entries_of_get? hrows)

/-- The rows of no owner have two equal keys exactly if those of no table do. -/
theorem forall_nodup_iff {ρ ι : Type} (key : ρ → ι) (table : Table String (List ρ)) :
    (∀ owner, (((table.get? owner).getD []).map key).Nodup) ↔
      ∀ entry ∈ table.entries, (entry.2.map key).Nodup :=
  forall_getD_get?_iff (P := fun rows => (rows.map key).Nodup) List.nodup_nil table

namespace Store

theorem mapField_eq_addRow (store : Store) (className : String) (row : FieldMapping) :
    store.mapField className row =
      { store with
        fields := addRow (fun row => (row.name, row.desc)) store.fields className row } := by
  have hkey : store.hasField className row = true ↔
      (row.name, row.desc) ∈ ((store.fields.get? className).getD []).map
        fun row => (row.name, row.desc) := by
    simp [hasField, classFields]
  rw [mapField, addRow]
  by_cases h : store.hasField className row = true
  · rw [if_pos h, if_pos (hkey.1 h)]
  · rw [if_neg h, if_neg (mt hkey.2 h)]
    rfl

theorem mapMethod_eq_addRow (store : Store) (className : String) (row : MethodMapping) :
    store.mapMethod className row =
      { store with
        methods := addRow (fun row => (row.name, row.desc)) store.methods className row } := by
  have hkey : store.hasMethod className row = true ↔
      (row.name, row.desc) ∈ ((store.methods.get? className).getD []).map
        fun row => (row.name, row.desc) := by
    simp [hasMethod, classMethods]
  rw [mapMethod, addRow]
  by_cases h : store.hasMethod className row = true
  · rw [if_pos h, if_pos (hkey.1 h)]
  · rw [if_neg h, if_neg (mt hkey.2 h)]
    rfl

theorem fields_foldl_mapField (rows : List (String × FieldMapping)) (store : Store) :
    (rows.foldl (fun target row => target.mapField row.1 row.2) store).fields =
      rows.foldl (fun table row => addRow (fun row => (row.name, row.desc)) table row.1 row.2)
        store.fields :=
  (List.foldl_hom Store.fields fun store row => by rw [mapField_eq_addRow]).symm

theorem methods_foldl_mapMethod (rows : List (String × MethodMapping)) (store : Store) :
    (rows.foldl (fun target row => target.mapMethod row.1 row.2) store).methods =
      rows.foldl (fun table row => addRow (fun row => (row.name, row.desc)) table row.1 row.2)
        store.methods :=
  (List.foldl_hom Store.methods fun store row => by rw [mapMethod_eq_addRow]).symm

/-! ## Classes one after the other -/

/-- Class mappings with different names come one by one. -/
theorem foldl_mapClass_of_nodup {pairs : List (String × String)} (h : (pairs.map (·.1)).Nodup)
    (direction : Direction) :
    pairs.foldl (fun store pair => store.mapClass pair.1 pair.2) (empty direction) =
      { empty direction with
        classes := Table.ofList pairs
        names := Table.firsts (pairs.map Prod.swap) } := by
  induction pairs using List.reverseRecOn with
  | nil => rfl
  | append_singleton pairs pair ih =>
    rw [List.map_append, List.nodup_append] at h
    have hnew : (Table.ofList pairs).get? pair.1 = none := by
      rw [Table.get?, Table.entries_ofList h.1, Table.find?_of_not_mem]
      · rfl
      · exact fun hmem => h.2.2 _ hmem pair.1 (by simp) rfl
    rw [List.foldl_append, ih h.1, List.foldl_cons, List.foldl_nil, mapClass_eq rfl]
    dsimp only
    rw [hnew, if_neg (by simp), List.map_append, Table.ofList_concat]
    simp only [List.map_cons, List.map_nil, Table.firsts_concat, Prod.fst_swap, Prod.snd_swap]

end Store
end JvmArchive.Mapping
