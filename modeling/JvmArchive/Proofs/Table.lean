import JvmArchive.Table
import Mathlib.Data.List.Induction

/-!
# Values of tables

What a key has after an insertion, and which value of several stays.
-/
namespace JvmArchive.Table

variable {κ α β : Type} [DecidableEq κ]

omit [DecidableEq κ] in
/-- A table is determined by its entries. -/
theorem eq_of_entries_eq {a b : Table κ α} (h : a.entries = b.entries) : a = b := by
  cases a
  cases b
  cases h
  rfl

@[simp]
theorem get?_empty (key : κ) : (empty : Table κ α).get? key = none := rfl

theorem find?_insertEntry (key other : κ) (value : α) (entries : List (κ × α)) :
    ((insertEntry key value entries).find? (·.1 = other)).map (·.2) =
      if key = other then some value else (entries.find? (·.1 = other)).map (·.2) := by
  induction entries with
  | nil => by_cases h : key = other <;> simp [insertEntry, h]
  | cons entry rest ih =>
    obtain ⟨k, v⟩ := entry
    by_cases hkey : k = key
    · subst hkey
      by_cases h : k = other <;> simp [insertEntry, h]
    · by_cases h : k = other
      · have hother : key ≠ other := fun e => hkey (h.trans e.symm)
        rw [insertEntry, if_neg hkey, if_neg hother]
        simp [h]
      · simp [insertEntry, hkey, h, ih]

theorem get?_insert (table : Table κ α) (key other : κ) (value : α) :
    (table.insert key value).get? other = if key = other then some value else table.get? other :=
  find?_insertEntry key other value table.entries

theorem contains_eq_isSome (table : Table κ α) (key : κ) :
    table.contains key = (table.get? key).isSome := by
  simp [contains, get?, List.isSome_find?]

theorem get?_insertIfNew (table : Table κ α) (key other : κ) (value : α) :
    (table.insertIfNew key value).get? other =
      (table.get? other).or (if key = other then some value else none) := by
  unfold insertIfNew
  split
  · rename_i hkey
    by_cases h : key = other
    · subst h
      rw [contains_eq_isSome] at hkey
      obtain ⟨found, hfound⟩ := Option.isSome_iff_exists.1 hkey
      simp [hfound]
    · simp [h]
  · rename_i hkey
    rw [get?_insert]
    by_cases h : key = other
    · subst h
      rw [contains_eq_isSome, Bool.not_eq_true, Option.isSome_eq_false_iff, Option.isNone_iff_eq_none]
        at hkey
      simp [hkey]
    · simp [h]

/-- Of several values for one key the first stays. -/
theorem get?_firsts (pairs : List (κ × α)) (key : κ) :
    (firsts pairs).get? key = (pairs.find? (·.1 = key)).map (·.2) := by
  have hfold : ∀ (pairs : List (κ × α)) (table : Table κ α),
      (pairs.foldl (fun table pair => table.insertIfNew pair.1 pair.2) table).get? key =
        (table.get? key).or ((pairs.find? (·.1 = key)).map (·.2)) := by
    intro pairs
    induction pairs with
    | nil => simp
    | cons pair pairs ih =>
      intro table
      rw [List.foldl_cons, ih, get?_insertIfNew, Option.or_assoc]
      by_cases h : pair.1 = key <;> simp [h]
  rw [firsts, hfold, get?_empty, Option.none_or]

theorem firsts_concat (pairs : List (κ × α)) (pair : κ × α) :
    firsts (pairs ++ [pair]) = (firsts pairs).insertIfNew pair.1 pair.2 := by
  rw [firsts, List.foldl_append]
  rfl

theorem ofList_concat (pairs : List (κ × α)) (pair : κ × α) :
    ofList (pairs ++ [pair]) = (ofList pairs).insert pair.1 pair.2 := by
  rw [ofList, List.foldl_append]
  rfl

theorem find?_of_not_mem {key : κ} {entries : List (κ × α)} (h : key ∉ entries.map (·.1)) :
    entries.find? (·.1 = key) = none := by
  rw [List.find?_eq_none]
  intro entry hentry hkey
  exact h (List.mem_map.2 ⟨entry, hentry, by simpa using hkey⟩)

theorem get?_of_mem_entries {table : Table κ α} {key : κ} {value : α}
    (h : (key, value) ∈ table.entries) : table.get? key = some value := by
  obtain ⟨entries, hnodup⟩ := table
  simp only [get?] at h ⊢
  induction entries with
  | nil => simp at h
  | cons entry entries ih =>
    rw [List.map_cons, List.nodup_cons] at hnodup
    rcases List.mem_cons.1 h with rfl | hrest
    · simp
    · have hkey : entry.1 ≠ key := by
        rintro rfl
        exact hnodup.1 (List.mem_map.2 ⟨_, hrest, rfl⟩)
      rw [List.find?_cons_of_neg (by simpa using hkey)]
      exact ih hnodup.2 hrest

theorem mem_entries_of_get? {table : Table κ α} {key : κ} {value : α}
    (h : table.get? key = some value) : (key, value) ∈ table.entries := by
  obtain ⟨⟨k, v⟩, hfound, rfl⟩ := Option.map_eq_some_iff.1 h
  have hkey : k = key := by simpa using List.find?_some hfound
  exact hkey ▸ List.mem_of_find?_eq_some hfound

theorem isSome_get?_iff {table : Table κ α} {key : κ} :
    (table.get? key).isSome ↔ key ∈ table.entries.map (·.1) := by
  constructor
  · intro h
    obtain ⟨value, hvalue⟩ := Option.isSome_iff_exists.1 h
    exact List.mem_map.2 ⟨(key, value), mem_entries_of_get? hvalue, rfl⟩
  · intro h
    obtain ⟨pair, hpair, rfl⟩ := List.mem_map.1 h
    rw [get?_of_mem_entries hpair]
    rfl

/-- The entries after an insertion are the new one and old ones. -/
theorem mem_entries_insert {table : Table κ α} {key : κ} {value : α} {entry : κ × α}
    (h : entry ∈ (table.insert key value).entries) : entry = (key, value) ∨ entry ∈ table.entries := by
  have hget : (table.insert key value).get? entry.1 = some entry.2 := get?_of_mem_entries h
  rw [get?_insert] at hget
  split at hget
  · rename_i hkey
    exact .inl (Prod.ext hkey.symm (Option.some.inj hget).symm)
  · exact .inr (mem_entries_of_get? hget)

/-- The entries of a table made from pairs are among the pairs. -/
theorem mem_of_mem_ofList {pairs : List (κ × α)} {pair : κ × α} (h : pair ∈ (ofList pairs).entries) :
    pair ∈ pairs := by
  induction pairs using List.reverseRecOn with
  | nil => cases h
  | append_singleton pairs last ih =>
    rw [ofList_concat] at h
    rcases mem_entries_insert h with rfl | hold
    · exact List.mem_append_right _ List.mem_cons_self
    · exact List.mem_append_left _ (ih hold)

/-- What holds of the values of a table and of one more value holds after an insertion. -/
theorem forall_mem_insert {P : α → Prop} {table : Table κ α} {key : κ} {value : α}
    (h : ∀ entry ∈ table.entries, P entry.2) (hvalue : P value) :
    ∀ entry ∈ (table.insert key value).entries, P entry.2 := by
  intro entry hentry
  have hget : (table.insert key value).get? entry.1 = some entry.2 := get?_of_mem_entries hentry
  rw [get?_insert] at hget
  split at hget
  · exact Option.some.inj hget ▸ hvalue
  · exact h _ (mem_entries_of_get? hget)

theorem get?_erase (table : Table κ α) (key other : κ) :
    (table.erase key).get? other = if key = other then none else table.get? other := by
  rw [get?, erase, List.find?_filter]
  by_cases h : key = other
  · subst h
    rw [if_pos rfl, Option.map_eq_none_iff, List.find?_eq_none]
    intro entry _ hentry
    simp at hentry
  · rw [if_neg h, get?]
    congr 2
    funext entry
    by_cases hentry : entry.1 = other
    · simp [hentry, Ne.symm h]
    · simp [hentry]

theorem insertEntry_of_not_mem {key : κ} {value : α} {entries : List (κ × α)}
    (h : key ∉ entries.map (·.1)) : insertEntry key value entries = entries ++ [(key, value)] := by
  induction entries with
  | nil => rfl
  | cons entry rest ih =>
    obtain ⟨k, v⟩ := entry
    simp only [List.map_cons, List.mem_cons, not_or] at h
    rw [insertEntry, if_neg fun e => h.1 e.symm, ih h.2, List.cons_append]

/-- Pairs with different keys come one by one. -/
theorem entries_ofList {pairs : List (κ × α)} (h : (pairs.map (·.1)).Nodup) :
    (ofList pairs).entries = pairs := by
  have hfold : ∀ (pairs : List (κ × α)) (table : Table κ α),
      (table.entries.map (·.1) ++ pairs.map (·.1)).Nodup →
        (pairs.foldl (fun table pair => table.insert pair.1 pair.2) table).entries =
          table.entries ++ pairs := by
    intro pairs
    induction pairs with
    | nil => simp
    | cons pair pairs ih =>
      intro table hnodup
      have hnew : pair.1 ∉ table.entries.map (·.1) := by
        intro hmem
        exact (List.nodup_append.1 hnodup).2.2 _ hmem _ List.mem_cons_self rfl
      have hentries : (table.insert pair.1 pair.2).entries = table.entries ++ [pair] :=
        insertEntry_of_not_mem hnew
      rw [List.foldl_cons, ih, hentries, List.append_assoc, List.singleton_append]
      rw [hentries, List.map_append, List.append_assoc]
      exact hnodup
  rw [ofList, hfold _ _ (by simpa [empty] using h)]
  rfl

theorem ofList_entries (table : Table κ α) : ofList table.entries = table :=
  eq_of_entries_eq (entries_ofList table.nodup_keys)

theorem length_insertEntry (key : κ) (value : α) (entries : List (κ × α)) :
    (insertEntry key value entries).length =
      if key ∈ entries.map (·.1) then entries.length else entries.length + 1 := by
  have hkeys := congrArg List.length (map_fst_insertEntry key value entries)
  rw [List.length_map] at hkeys
  rw [hkeys]
  split <;> simp

theorem length_foldl_insert_le (pairs : List (κ × α)) (table : Table κ α) :
    (pairs.foldl (fun table pair => table.insert pair.1 pair.2) table).length ≤
      table.length + pairs.length := by
  induction pairs generalizing table with
  | nil => simp
  | cons pair pairs ih =>
    have hinsert : (table.insert pair.1 pair.2).length ≤ table.length + 1 := by
      rw [length, length, insert, length_insertEntry]
      split <;> omega
    rw [List.foldl_cons, List.length_cons]
    have hrest := ih (table.insert pair.1 pair.2)
    omega

/-- Where as many keys as pairs are left, no key came twice. -/
theorem nodup_of_length_foldl_insert (pairs : List (κ × α)) (table : Table κ α)
    (h : (pairs.foldl (fun table pair => table.insert pair.1 pair.2) table).length =
      table.length + pairs.length) : (table.entries.map (·.1) ++ pairs.map (·.1)).Nodup := by
  induction pairs generalizing table with
  | nil => simpa using table.nodup_keys
  | cons pair pairs ih =>
    rw [List.foldl_cons, List.length_cons] at h
    have hrest := length_foldl_insert_le pairs (table.insert pair.1 pair.2)
    have hlength : (table.insert pair.1 pair.2).length =
        if pair.1 ∈ table.entries.map (·.1) then table.length else table.length + 1 :=
      length_insertEntry _ _ _
    by_cases hmem : pair.1 ∈ table.entries.map (·.1)
    · rw [if_pos hmem] at hlength
      omega
    · rw [if_neg hmem] at hlength
      have hnodup := ih (table.insert pair.1 pair.2) (by omega)
      rw [show (table.insert pair.1 pair.2).entries = table.entries ++ [pair] from
        insertEntry_of_not_mem hmem] at hnodup
      simpa using hnodup

/-- A table made of pairs has as many entries as there are pairs exactly if no key comes twice. -/
theorem length_ofList_eq_iff (pairs : List (κ × α)) :
    (ofList pairs).length = pairs.length ↔ (pairs.map (·.1)).Nodup := by
  constructor
  · intro h
    have hnodup := nodup_of_length_foldl_insert pairs empty (by simpa [ofList, empty, length] using h)
    simpa [empty] using hnodup
  · intro h
    rw [length, entries_ofList h]

/-- Keys that are given values one after the other where they have none come behind the entries there
are. -/
theorem exists_entries_foldl_insertIfNew (f : κ → α) (keys : List κ) (table : Table κ α) :
    ∃ added : List κ,
      (keys.foldl (fun table key => table.insertIfNew key (f key)) table).entries =
        table.entries ++ added.map (fun key => (key, f key)) ∧
      ∀ key, key ∈ added ↔ key ∈ keys ∧ table.get? key = none := by
  induction keys generalizing table with
  | nil => exact ⟨[], by simp⟩
  | cons first keys ih =>
    obtain ⟨added, hentries, hadded⟩ := ih (table.insertIfNew first (f first))
    rw [List.foldl_cons]
    by_cases hfirst : table.contains first = true
    · have hsome : table.get? first ≠ none := by
        rwa [contains_eq_isSome, Option.isSome_iff_ne_none] at hfirst
      rw [insertIfNew, if_pos hfirst] at hentries hadded
      refine ⟨added, by rw [insertIfNew, if_pos hfirst, hentries], fun key => ?_⟩
      rw [hadded, List.mem_cons]
      constructor
      · exact fun h => ⟨.inr h.1, h.2⟩
      · rintro ⟨rfl | hkey, hnone⟩
        · exact absurd hnone hsome
        · exact ⟨hkey, hnone⟩
    · have hnew : first ∉ table.entries.map (·.1) := by
        rwa [contains_eq_isSome, isSome_get?_iff] at hfirst
      have hinsert : (table.insertIfNew first (f first)).entries = table.entries ++ [(first, f first)] := by
        rw [insertIfNew, if_neg hfirst]
        exact insertEntry_of_not_mem hnew
      have hnone : table.get? first = none := by
        rwa [contains_eq_isSome, Option.not_isSome_iff_eq_none] at hfirst
      refine ⟨first :: added, by rw [hentries, hinsert]; simp, fun key => ?_⟩
      rw [List.mem_cons, List.mem_cons, hadded, get?_insertIfNew]
      by_cases hkey : first = key
      · subst hkey
        simp [hnone]
      · simp [hkey, Ne.symm hkey]

theorem get?_map (f : κ → α → β) (table : Table κ α) (key : κ) :
    (table.map f).get? key = (table.get? key).map (f key) := by
  unfold get? map
  rw [List.find?_map, Option.map_map, Option.map_map]
  cases h : table.entries.find? (·.1 = key) with
  | none => simp [Function.comp_def, h]
  | some entry =>
    have hkey : entry.1 = key := by simpa using List.find?_some h
    simp [Function.comp_def, h, hkey]

/-! ## Changed values -/

theorem update_of_eq {f : α → α} (h : ∀ value, f value = value) (table : Table κ α) (key : κ) :
    table.update key f = table := by
  refine eq_of_entries_eq ((List.map_congr_left fun entry _ => ?_).trans (List.map_id' _))
  dsimp only
  rw [h, ite_self]

theorem update_update (table : Table κ α) (key : κ) (f g : α → α) :
    (table.update key f).update key g = table.update key fun value => g (f value) := by
  refine eq_of_entries_eq ?_
  simp only [update, map, List.map_map]
  refine List.map_congr_left fun entry _ => ?_
  by_cases hkey : entry.1 = key <;> simp [hkey]

theorem map_insertEntry (key : κ) (value : α) (f : α → α) {entries : List (κ × α)}
    (h : (entries.map (·.1)).Nodup) :
    (insertEntry key value entries).map (fun entry =>
        (entry.1, if entry.1 = key then f entry.2 else entry.2)) =
      insertEntry key (f value) entries := by
  induction entries with
  | nil => simp [insertEntry]
  | cons entry entries ih =>
    obtain ⟨k, old⟩ := entry
    rw [List.map_cons, List.nodup_cons] at h
    by_cases hkey : k = key
    · subst hkey
      have hrest : entries.map (fun entry => (entry.1, if entry.1 = k then f entry.2 else entry.2)) =
          entries := by
        refine (List.map_congr_left fun entry hentry => ?_).trans (List.map_id' _)
        rw [if_neg]
        intro hsame
        exact h.1 (List.mem_map.2 ⟨entry, hentry, hsame⟩)
      simp only [insertEntry, if_true, List.map_cons, hrest]
    · simp only [insertEntry, if_neg hkey, List.map_cons, ih h.2]

/-- The value that was given last is the one that changes. -/
theorem update_insert (table : Table κ α) (key : κ) (value : α) (f : α → α) :
    (table.insert key value).update key f = table.insert key (f value) :=
  eq_of_entries_eq (map_insertEntry key value f table.nodup_keys)

end JvmArchive.Table
