import JvmArchive.Proofs.Mapping.Insertions

/-!
# Names that lead back to classes

A store leads each new name back to a class that has it. Whatever is inserted, a name that leads back
leads to a class with this very mapping. But a new name can be forgotten: an implied class stands under
its own name until it is given another one, and then its name leads nowhere, even if other classes have
been mapped to it meanwhile. It leads back again once one more class is mapped to it.
-/
namespace JvmArchive.Mapping.Store

variable {store : Store}

/-! ## One insertion -/

/-- Whether names lead back only to classes that are mapped to them, and implied classes, each of them
listed once, stand under their own names. -/
structure ExactNames (store : Store) : Prop where
  names : ∀ mapping name, store.names.get? mapping = some name →
    store.classes.get? name = some mapping
  implied : ∀ name ∈ store.implied, store.classes.get? name = some name
  nodup : store.implied.Nodup

theorem exactNames_empty (direction : Direction) : ExactNames (.empty direction) where
  names mapping name h := by cases h
  implied name h := by cases h
  nodup := List.nodup_nil

theorem mapClass_of_given {name : String} (h : store.hasGivenClass name = true) (mapping : String) :
    store.mapClass name mapping = store := by
  rw [mapClass, if_pos h]

theorem hasGivenClass_eq_false_iff {name : String} :
    store.hasGivenClass name = false ↔ store.classes.get? name = none ∨ name ∈ store.implied := by
  rw [hasGivenClass, Table.contains_eq_isSome]
  cases store.classes.get? name <;> simp

namespace ExactNames

variable (h : store.ExactNames)
include h

/-- A class that has not been given a mapping takes one. If it stood under its own name, it leaves. -/
theorem mapClass_eq_of_open {name : String} (hopen : store.hasGivenClass name = false)
    (mapping : String) :
    store.mapClass name mapping =
      { store with
        implied := store.implied.erase name
        names := (if store.names.get? name = some name then store.names.erase name
          else store.names).insertIfNew mapping name
        classes := store.classes.insert name mapping } := by
  rw [mapClass, hopen, if_neg Bool.false_ne_true]
  rcases hasGivenClass_eq_false_iff.1 hopen with hnone | himplied
  · -- a class without a mapping is not implied, and no name leads back to it
    have hunimplied : name ∉ store.implied := by
      intro hmem
      rw [h.implied name hmem] at hnone
      cases hnone
    have hunnamed : store.names.get? name ≠ some name := by
      intro hname
      rw [h.names name name hname] at hnone
      cases hnone
    rw [Table.contains_eq_isSome, hnone, List.erase_of_not_mem hunimplied, if_neg hunnamed]
    rfl
  · rw [Table.contains_eq_isSome, h.implied name himplied]
    rfl

theorem get?_names_mapClass {name : String} (hopen : store.hasGivenClass name = false)
    (mapping other : String) :
    (store.mapClass name mapping).names.get? other =
      (if store.names.get? name = some name ∧ name = other then none
        else store.names.get? other).or (if mapping = other then some name else none) := by
  rw [h.mapClass_eq_of_open hopen]
  dsimp only
  rw [Table.get?_insertIfNew]
  congr 1
  by_cases hown : store.names.get? name = some name
  · rw [if_pos hown, Table.get?_erase]
    simp [hown]
  · rw [if_neg hown, if_neg fun hboth => hown hboth.1]

theorem get?_classes_mapClass {name : String} (hopen : store.hasGivenClass name = false)
    (mapping other : String) :
    (store.mapClass name mapping).classes.get? other =
      if name = other then some mapping else store.classes.get? other := by
  rw [h.mapClass_eq_of_open hopen]
  exact Table.get?_insert _ _ _ _

theorem mapClass (name mapping : String) : (store.mapClass name mapping).ExactNames := by
  cases hopen : store.hasGivenClass name with
  | true => rwa [mapClass_of_given hopen]
  | false =>
    refine ⟨fun image other hother => ?_, fun other hother => ?_, ?_⟩
    · rw [h.get?_names_mapClass hopen, Option.or_eq_some_iff] at hother
      rw [h.get?_classes_mapClass hopen]
      rcases hother with hold | ⟨-, hnew⟩
      · split at hold
        · cases hold
        · rename_i hkept
          have himage := h.names image other hold
          rw [if_neg ?_]
          · exact himage
          · -- were it the class itself, the name would be its own and would have been taken out
            rintro rfl
            rcases hasGivenClass_eq_false_iff.1 hopen with hnone | himplied
            · rw [himage] at hnone
              cases hnone
            · obtain rfl := Option.some.inj ((h.implied name himplied).symm.trans himage)
              exact hkept ⟨hold, rfl⟩
      · split at hnew
        · rename_i hmapping
          cases hnew
          rw [if_pos rfl, hmapping]
        · cases hnew
    · rw [h.mapClass_eq_of_open hopen] at hother
      obtain ⟨hne, hmem⟩ := (h.nodup.mem_erase_iff).1 hother
      rw [h.get?_classes_mapClass hopen, if_neg hne.symm]
      exact h.implied other hmem
    · rw [h.mapClass_eq_of_open hopen]
      exact h.nodup.erase name

theorem ensureClass (name : String) : (store.ensureClass name).ExactNames := by
  unfold Store.ensureClass
  split
  · exact h
  · rename_i hnew
    have hnone : store.classes.get? name = none := by
      rw [Table.contains_eq_isSome, Bool.not_eq_true, Option.isSome_eq_false_iff,
        Option.isNone_iff_eq_none] at hnew
      exact hnew
    have hopen : store.hasGivenClass name = false := hasGivenClass_eq_false_iff.2 (.inl hnone)
    have hmapped := h.mapClass name name
    have hclass : (store.mapClass name name).classes.get? name = some name := by
      rw [h.get?_classes_mapClass hopen, if_pos rfl]
    refine ⟨hmapped.names, fun other hother => ?_, ?_⟩
    · rcases List.mem_cons.1 hother with rfl | hmem
      · exact hclass
      · exact hmapped.implied other hmem
    · refine List.nodup_cons.2 ⟨fun hmem => ?_, hmapped.nodup⟩
      rw [h.mapClass_eq_of_open hopen] at hmem
      have hold := h.implied name (List.mem_of_mem_erase hmem)
      rw [hnone] at hold
      cases hold

theorem apply (insertion : Insertion) : (insertion.apply store).ExactNames := by
  cases insertion with
  | mapClass name mapping => exact h.mapClass name mapping
  | ensureClass name => exact h.ensureClass name
  | mapField className row =>
    rw [Insertion.apply, mapField_eq_with]
    exact ⟨h.names, h.implied, h.nodup⟩
  | mapMethod className row =>
    rw [Insertion.apply, mapMethod_eq_with]
    exact ⟨h.names, h.implied, h.nodup⟩
  | completeDescriptors => exact ⟨h.names, h.implied, h.nodup⟩

end ExactNames

theorem exactNames_made (direction : Direction) (insertions : List Insertion) :
    (made direction insertions).ExactNames :=
  made_induction (exactNames_empty direction) insertions fun _ hstore insertion _ =>
    hstore.apply insertion

/-! ## Forgotten names -/

/-- Whether an insertion gives another name to a class that was implied and to which its own name led
back. -/
def Displaces (store : Store) (insertion : Insertion) (name : String) : Prop :=
  name ∈ store.implied ∧ store.names.get? name = some name ∧
    ∃ image, image ≠ name ∧ insertion = .mapClass name image

/-- Whether an insertion maps one more class to a name. -/
def Restores (store : Store) (insertion : Insertion) (mapping : String) : Prop :=
  ∃ name, store.hasGivenClass name = false ∧ insertion = .mapClass name mapping

/-- The names that insertions have made a store forget: that of a displaced class, until a class is
mapped to it again. -/
inductive Forgotten (direction : Direction) : List Insertion → String → Prop
  | displaced {insertions : List Insertion} {insertion : Insertion} {name : String}
      (h : (made direction insertions).Displaces insertion name) :
      Forgotten direction (insertions ++ [insertion]) name
  | kept {insertions : List Insertion} {insertion : Insertion} {name : String}
      (h : Forgotten direction insertions name)
      (hkept : ¬(made direction insertions).Restores insertion name) :
      Forgotten direction (insertions ++ [insertion]) name

/-- An insertion leaves the class mappings alone, or it gives one to a class that has not been given
any. -/
theorem apply_cases (store : Store) (insertion : Insertion) :
    ((insertion.apply store).classes = store.classes ∧ (insertion.apply store).names = store.names ∧
        ∀ name mapping, store.hasGivenClass name = false → insertion ≠ .mapClass name mapping) ∨
      ∃ name mapping, store.hasGivenClass name = false ∧
        (insertion.apply store).classes = (store.mapClass name mapping).classes ∧
          (insertion.apply store).names = (store.mapClass name mapping).names ∧
            (insertion = .mapClass name mapping ∨
              store.classes.get? name = none ∧ mapping = name ∧ insertion = .ensureClass name) := by
  cases insertion with
  | mapClass name mapping =>
    cases hopen : store.hasGivenClass name with
    | true =>
      have hsame : Insertion.apply store (.mapClass name mapping) = store :=
        mapClass_of_given hopen mapping
      refine .inl ⟨by rw [hsame], by rw [hsame], fun other image hother hinsertion => ?_⟩
      obtain ⟨rfl, -⟩ := Insertion.mapClass.inj hinsertion
      rw [hopen] at hother
      cases hother
    | false => exact .inr ⟨name, mapping, hopen, rfl, rfl, .inl rfl⟩
  | ensureClass name =>
    rw [Insertion.apply, ensureClass, Table.contains_eq_isSome]
    cases hclass : store.classes.get? name with
    | some mapping => exact .inl ⟨rfl, rfl, fun _ _ _ h => by cases h⟩
    | none =>
      exact .inr ⟨name, name, hasGivenClass_eq_false_iff.2 (.inl hclass), rfl, rfl,
        .inr ⟨hclass, rfl, rfl⟩⟩
  | mapField className row =>
    rw [Insertion.apply, mapField_eq_with]
    exact .inl ⟨rfl, rfl, fun _ _ _ h => by cases h⟩
  | mapMethod className row =>
    rw [Insertion.apply, mapMethod_eq_with]
    exact .inl ⟨rfl, rfl, fun _ _ _ h => by cases h⟩
  | completeDescriptors => exact .inl ⟨rfl, rfl, fun _ _ _ h => by cases h⟩

/-- A forgotten name leads nowhere, and it is that of a class. -/
theorem get?_names_of_forgotten {direction : Direction} {insertions : List Insertion} {name : String}
    (h : Forgotten direction insertions name) :
    (made direction insertions).names.get? name = none ∧
      ((made direction insertions).classes.get? name).isSome := by
  induction h with
  | @displaced insertions insertion name h =>
    have hexact := exactNames_made direction insertions
    obtain ⟨himplied, hown, image, himage, rfl⟩ := h
    have hopen := hasGivenClass_eq_false_iff.2 (.inr himplied)
    rw [made_concat, Insertion.apply, hexact.get?_names_mapClass hopen,
      hexact.get?_classes_mapClass hopen, if_pos ⟨hown, rfl⟩, if_neg himage, if_pos rfl]
    exact ⟨rfl, rfl⟩
  | @kept insertions insertion name h hkept ih =>
    have hexact := exactNames_made direction insertions
    rw [made_concat]
    rcases apply_cases (made direction insertions) insertion with
      ⟨hclasses, hnames, -⟩ | ⟨class_, mapping, hopen, hclasses, hnames, hcase⟩
    · rwa [hclasses, hnames]
    · have hmapping : mapping ≠ name := by
        rcases hcase with rfl | ⟨hnone, rfl, -⟩
        · rintro rfl
          exact hkept ⟨class_, hopen, rfl⟩
        · rintro rfl
          rw [hnone] at ih
          cases ih.2
      rw [hclasses, hnames, hexact.get?_names_mapClass hopen, hexact.get?_classes_mapClass hopen,
        if_neg hmapping, ih.1, ite_self]
      refine ⟨rfl, ?_⟩
      split
      · rfl
      · exact ih.2

/-- A new name of a class that leads nowhere has been forgotten. -/
theorem forgotten_of_get?_names {direction : Direction} {insertions : List Insertion}
    {name mapping : String} (hclass : (made direction insertions).classes.get? name = some mapping)
    (hnone : (made direction insertions).names.get? mapping = none) :
    Forgotten direction insertions mapping := by
  induction insertions using List.reverseRecOn with
  | nil => cases hclass
  | append_singleton insertions insertion ih =>
    have hexact := exactNames_made direction insertions
    rw [made_concat] at hclass hnone
    rcases apply_cases (made direction insertions) insertion with
      ⟨hclasses, hnames, hleft⟩ | ⟨class_, image, hopen, hclasses, hnames, hcase⟩
    · rw [hclasses] at hclass
      rw [hnames] at hnone
      refine .kept (ih hclass hnone) ?_
      rintro ⟨other, hother, rfl⟩
      exact hleft other mapping hother rfl
    · rw [hclasses, hexact.get?_classes_mapClass hopen] at hclass
      rw [hnames, hexact.get?_names_mapClass hopen, Option.or_eq_none_iff] at hnone
      obtain ⟨hold, hnew⟩ := hnone
      have himage : image ≠ mapping := by
        rintro rfl
        rw [if_pos rfl] at hnew
        cases hnew
      have hother : (made direction insertions).classes.get? name = some mapping := by
        split at hclass
        · exact absurd (Option.some.inj hclass) himage
        · exact hclass
      split at hold
      · -- the class of this name has left its own name
        rename_i hown
        obtain ⟨hown, rfl⟩ := hown
        rcases hcase with rfl | ⟨hunmapped, -, -⟩
        · refine .displaced ⟨?_, hown, image, himage, rfl⟩
          rcases hasGivenClass_eq_false_iff.1 hopen with hunmapped | himplied
          · rw [hexact.names _ _ hown] at hunmapped
            cases hunmapped
          · exact himplied
        · rw [hexact.names _ _ hown] at hunmapped
          cases hunmapped
      · refine .kept (ih hother hold) ?_
        rintro ⟨again, hagain, rfl⟩
        rcases hcase with hsame | ⟨-, -, hsame⟩
        · exact himage (Insertion.mapClass.inj hsame).2.symm
        · cases hsame

/-! ## Leading back -/

/-- In every store that is made by insertions, a name that leads back leads to a class that is mapped to
it, and the mapping of a class leads back to a class with this mapping unless the insertions have made the
store forget it. -/
theorem classByMapping?_made_iff (direction : Direction) (insertions : List Insertion) :
    let store := made direction insertions
    (∀ mapping name, store.names.get? mapping = some name →
        store.classes.get? name = some mapping) ∧
      ∀ name mapping, store.classes.get? name = some mapping →
        ((∃ found, store.classByMapping? mapping = some found ∧ found.mapping = mapping) ↔
          ¬Forgotten direction insertions mapping) := by
  intro store
  have hexact := exactNames_made direction insertions
  refine ⟨hexact.names, fun name mapping hclass => ⟨?_, fun hkept => ?_⟩⟩
  · rintro ⟨found, hfound, -⟩ hforgotten
    rw [classByMapping?, (get?_names_of_forgotten hforgotten).1] at hfound
    cases hfound
  · cases hnames : store.names.get? mapping with
    | none => exact absurd (forgotten_of_get?_names hclass hnames) hkept
    | some other =>
      refine ⟨{ name := other, mapping }, ?_, rfl⟩
      rw [classByMapping?, hnames, Option.bind_some, class?, hexact.names mapping other hnames]
      rfl

/-- A class that is implied and then displaced, and two that are mapped to its name, one before and one
after that. -/
def displacing : List Insertion :=
  [.ensureClass "p/X", .mapClass "p/Y" "p/X", .mapClass "p/X" "q", .mapClass "p/Z" "p/X"]

/-- The name is forgotten with the third insertion and leads back again with the fourth. -/
theorem forgotten_displacing :
    Forgotten .applying (displacing.take 3) "p/X" ∧ ¬Forgotten .applying displacing "p/X" := by
  constructor
  · by_contra hkept
    obtain ⟨found, hfound, -⟩ :=
      ((classByMapping?_made_iff .applying (displacing.take 3)).2 "p/Y" "p/X" (by decide)).2 hkept
    have hnone : (made .applying (displacing.take 3)).classByMapping? "p/X" = none := by decide
    rw [hnone] at hfound
    cases hfound
  · exact ((classByMapping?_made_iff .applying displacing).2 "p/Y" "p/X" (by decide)).1
      ⟨⟨"p/Z", "p/X"⟩, by decide, rfl⟩

/-- The class `p/Y` has the mapping `p/X`, which leads back to no class. -/
theorem not_classByMapping?_displacing :
    (made .applying (displacing.take 3)).classes.get? "p/Y" = some "p/X" ∧
      (made .applying (displacing.take 3)).classByMapping? "p/X" = none := by
  decide

end JvmArchive.Mapping.Store
