import JvmArchive.Descriptor.Parts
import JvmArchive.Proofs.Text.Cut

/-!
# Names in descriptors

Renaming a descriptor sees only the class names in it, wherever they stand: two renamings that agree on
these give one result, and renaming twice is renaming by both, as long as no new name brings a
semicolon along.
-/
namespace JvmArchive

namespace Descriptor

/-- What stands after each `L` up to the next semicolon, in the order in which a renaming meets it. -/
def namesIn : List Char → List String
  | [] => []
  | c :: rest =>
    if c = 'L' then
      if h : (Text.cut? ';' rest).isSome then
        String.ofList ((Text.cut? ';' rest).get h).1 :: namesIn ((Text.cut? ';' rest).get h).2
      else []
    else namesIn rest
termination_by s => s.length
decreasing_by
  · exact Nat.lt_succ_of_lt (Text.length_get_cut? h)
  · simp

/-- The class names of a descriptor. -/
def names (text : String) : List String := namesIn text.toList

/-- What a renaming makes of a name. -/
def image (f : String → Option String) (name : String) : String := (f name).getD name

theorem mapNames_of_cut? (f : String → Option String) {rest name after : List Char}
    (h : Text.cut? ';' rest = some (name, after)) :
    mapNames f ('L' :: rest) =
      'L' :: ((image f (String.ofList name)).toList ++ ';' :: mapNames f after) := by
  rw [mapNames, if_pos rfl]
  split
  · rename_i found rest' hfound
    rw [h, Option.some.injEq, Prod.mk.injEq] at hfound
    obtain ⟨rfl, rfl⟩ := hfound
    rw [image]
    cases f (String.ofList name) <;> simp
  · rename_i hnone
    rw [h] at hnone
    exact absurd hnone (by simp)

theorem mapNames_of_cut?_eq_none (f : String → Option String) {rest : List Char}
    (h : Text.cut? ';' rest = none) : mapNames f ('L' :: rest) = 'L' :: rest := by
  rw [mapNames, if_pos rfl]
  split
  · rename_i hfound
    rw [h] at hfound
    exact absurd hfound (by simp)
  · rfl

/-- A name ends before the first semicolon behind it. -/
theorem not_mem_of_mem_namesIn {s : List Char} {name : String} (h : name ∈ namesIn s) :
    ';' ∉ name.toList := by
  fun_induction namesIn s with
  | case1 => simp at h
  | case2 rest hcut ih =>
    obtain ⟨⟨found, after⟩, hget⟩ := Option.isSome_iff_exists.1 hcut
    simp only [hget, Option.get_some] at h ih
    rcases List.mem_cons.1 h with rfl | hafter
    · rw [String.toList_ofList]
      exact Text.not_mem_of_cut? hget
    · exact ih hafter
  | case3 => simp at h
  | case4 c rest hc ih => exact ih h

/-- Where there is no name, nothing is renamed. -/
theorem mapNames_append (f : String → Option String) {s : List Char} (h : 'L' ∉ s) (rest : List Char) :
    mapNames f (s ++ rest) = s ++ mapNames f rest := by
  induction s with
  | nil => rfl
  | cons c s ih =>
    rw [List.mem_cons, not_or] at h
    rw [List.cons_append, mapNames, if_neg fun hc => h.1 hc.symm, ih h.2, List.cons_append]

/-- Renaming by one map and then by another. -/
theorem mapNames_mapNames {f g : String → Option String} (s : List Char)
    (h : ∀ name ∈ namesIn s, ';' ∉ (image f name).toList) :
    mapNames g (mapNames f s) = mapNames (fun name => some (image g (image f name))) s := by
  fun_induction namesIn s with
  | case1 => simp [mapNames]
  | case2 rest hcut ih =>
    obtain ⟨⟨name, after⟩, hget⟩ := Option.isSome_iff_exists.1 hcut
    simp only [hget, Option.get_some, List.forall_mem_cons] at h ih
    rw [mapNames_of_cut? f hget, mapNames_of_cut? _ hget, mapNames_of_cut? g (Text.cut?_append h.1 _),
      ih h.2]
    simp [image]
  | case3 rest hcut =>
    have hnone : Text.cut? ';' rest = none := by simpa using hcut
    rw [mapNames_of_cut?_eq_none f hnone, mapNames_of_cut?_eq_none g hnone,
      mapNames_of_cut?_eq_none _ hnone]
  | case4 c rest hc ih =>
    rw [mapNames, if_neg hc, mapNames, if_neg hc, ih h, mapNames, if_neg hc]

/-- Renaming sees only the names in a text. -/
theorem mapNames_congr {f g : String → Option String} (s : List Char)
    (h : ∀ name ∈ namesIn s, image f name = image g name) : mapNames f s = mapNames g s := by
  fun_induction namesIn s with
  | case1 => simp [mapNames]
  | case2 rest hcut ih =>
    obtain ⟨⟨name, after⟩, hget⟩ := Option.isSome_iff_exists.1 hcut
    simp only [hget, Option.get_some, List.forall_mem_cons] at h ih
    rw [mapNames_of_cut? f hget, mapNames_of_cut? g hget, h.1, ih h.2]
  | case3 rest hcut =>
    have hnone : Text.cut? ';' rest = none := by simpa using hcut
    rw [mapNames_of_cut?_eq_none f hnone, mapNames_of_cut?_eq_none g hnone]
  | case4 c rest hc ih =>
    rw [mapNames, if_neg hc, ih h, mapNames, if_neg hc]

/-- Renaming every name to itself changes nothing. -/
theorem mapNames_none (s : List Char) : mapNames (fun _ => none) s = s := by
  fun_induction namesIn s with
  | case1 => simp [mapNames]
  | case2 rest hcut ih =>
    obtain ⟨⟨name, after⟩, hget⟩ := Option.isSome_iff_exists.1 hcut
    simp only [hget, Option.get_some] at ih
    rw [mapNames_of_cut? _ hget, ih, Text.eq_append_of_cut? hget]
    simp [image]
  | case3 rest hcut => exact mapNames_of_cut?_eq_none _ (by simpa using hcut)
  | case4 c rest hc ih => rw [mapNames, if_neg hc, ih]

/-- A renaming that another one takes back on the names of a descriptor is taken back on the
descriptor. -/
theorem map_map {f g : String → Option String} {text : String}
    (hnew : ∀ name ∈ names text, ';' ∉ (image f name).toList)
    (hback : ∀ name ∈ names text, image g (image f name) = name) : map g (map f text) = text := by
  have hid : ∀ name ∈ namesIn text.toList,
      image (fun name => some (image g (image f name))) name = image (fun _ => none) name :=
    fun name hname => hback name hname
  rw [map, map, String.toList_ofList, mapNames_mapNames _ hnew, mapNames_congr _ hid, mapNames_none,
    String.ofList_toList]

theorem map_congr {f g : String → Option String} {text : String}
    (h : ∀ name ∈ names text, image f name = image g name) : map f text = map g text := by
  rw [map, map, mapNames_congr _ h]

theorem objectName?_wrapped (name : List Char) :
    objectName? (String.ofList ('L' :: name ++ [';'])) = some (String.ofList name) := by
  simp [objectName?, Text.dropTrailing?, Text.dropLeading?]

/-- Only one text has the given name between its `L` and its semicolon. -/
theorem eq_of_objectName? {text name : String} (h : objectName? text = some name) :
    text.toList = 'L' :: name.toList ++ [';'] := by
  unfold objectName? at h
  split at h
  · rename_i rest htext
    obtain ⟨between, hbetween, rfl⟩ := Option.map_eq_some_iff.1 h
    obtain ⟨reversed, hreversed, rfl⟩ := Option.map_eq_some_iff.1 hbetween
    cases hr : rest.reverse with
    | nil =>
      rw [hr] at hreversed
      cases hreversed
    | cons c cs =>
      rw [hr] at hreversed
      have hc : ';' = c ∧ cs = reversed := by simpa [Text.dropLeading?] using hreversed
      have hrest : rest = reversed.reverse ++ [';'] := by
        rw [← List.reverse_reverse rest, hr, ← hc.1, hc.2, List.reverse_cons]
      rw [htext, hrest]
      simp
  · cases h

theorem isSome_objectName?_iff {text : String} :
    (objectName? text).isSome ↔ text.toList.head? = some 'L' ∧ text.toList.getLast? = some ';' := by
  constructor
  · intro h
    obtain ⟨name, hname⟩ := Option.isSome_iff_exists.1 h
    rw [eq_of_objectName? hname, List.getLast?_concat]
    exact ⟨rfl, rfl⟩
  · rintro ⟨hhead, hlast⟩
    obtain ⟨rest, hrest⟩ := List.head?_eq_some_iff.1 hhead
    obtain ⟨front, hfront⟩ := List.getLast?_eq_some_iff.1 hlast
    obtain ⟨between, hbetween⟩ : ∃ between, rest = between ++ [';'] := by
      cases front with
      | nil => simp [hrest] at hfront
      | cons c between =>
        rw [hrest, List.cons_append, List.cons.injEq] at hfront
        exact ⟨between, hfront.2⟩
    have htext : text = String.ofList ('L' :: between ++ [';']) := by
      rw [← String.ofList_toList (s := text), hrest, hbetween, List.cons_append]
    rw [htext, objectName?_wrapped]
    rfl

/-- Renaming leaves the first and the last character of a descriptor alone. -/
theorem ends_mapNames (f : String → Option String) (s : List Char) :
    (mapNames f s).head? = s.head? ∧ (mapNames f s).getLast? = s.getLast? := by
  fun_induction namesIn s with
  | case1 => simp [mapNames]
  | case2 rest hcut ih =>
    obtain ⟨⟨name, after⟩, hget⟩ := Option.isSome_iff_exists.1 hcut
    simp only [hget, Option.get_some] at ih
    rw [mapNames_of_cut? _ hget, Text.eq_append_of_cut? hget]
    simp [List.getLast?_cons, List.getLast?_append, ih.2]
  | case3 rest hcut => simp [mapNames_of_cut?_eq_none f (by simpa using hcut)]
  | case4 c rest hc ih =>
    rw [mapNames, if_neg hc]
    simp [List.getLast?_cons, ih.2]

/-- The class of a renamed object type is the renamed class. -/
theorem objectName?_map (f : String → Option String) {text : String}
    (h : ∀ name ∈ objectName? text, ';' ∉ name.toList) :
    objectName? (map f text) = (objectName? text).map (image f) := by
  cases hname : objectName? text with
  | some name =>
    have hcut : Text.cut? ';' (name.toList ++ [';']) = some (name.toList, []) :=
      Text.cut?_append (h name hname) []
    rw [map, eq_of_objectName? hname, List.cons_append, mapNames_of_cut? f hcut, mapNames,
      String.ofList_toList, Option.map_some, ← List.cons_append, objectName?_wrapped,
      String.ofList_toList]
  | none =>
    have hsome : ¬(objectName? text).isSome := by simp [hname]
    obtain ⟨hhead, hlast⟩ := ends_mapNames f text.toList
    rw [isSome_objectName?_iff, ← hhead, ← hlast, ← String.toList_ofList (l := mapNames f _),
      ← isSome_objectName?_iff] at hsome
    exact Option.not_isSome_iff_eq_none.1 hsome

end Descriptor
end JvmArchive
