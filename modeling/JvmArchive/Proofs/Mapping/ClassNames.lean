import JvmArchive.Proofs.Mapping.Fields
import JvmArchive.Proofs.Mapping.NewNames
import JvmArchive.Proofs.Mapping.Words

/-!
# Class names in generated stores

Which classes a generated store gives a new name, and that alphabetic names give no two classes one.
The counter of class names only goes up, and the last part of a new class name tells where it stood.
-/
namespace JvmArchive.Mapping

open ClassGraph Store

/-! ## Short names -/

/-- Whether a class name is a short name, alone or behind the name of an outer class. -/
def EndsInShort (short mapping : String) : Prop :=
  mapping = short ∨ ∃ outer, mapping = outer ++ "$" ++ short

/-- What stands behind the last dollar sign of a class name is its short name. -/
theorem EndsInShort.eq {short other mapping : String} (h : EndsInShort short mapping)
    (hother : EndsInShort other mapping) (hdollar : '$' ∉ short.toList)
    (hdollar' : '$' ∉ other.toList) : short = other := by
  have hlast : ∀ short : String, '$' ∉ short.toList → EndsInShort short mapping →
      mapping.toList.reverse.takeWhile (· ≠ '$') = short.toList.reverse := by
    intro short hdollar h
    have hletters : ∀ c ∈ short.toList.reverse, decide (c ≠ '$') = true := by
      intro c hc
      rw [decide_eq_true_eq]
      rintro rfl
      exact hdollar (List.mem_reverse.1 hc)
    rcases h with rfl | ⟨outer, rfl⟩
    · rw [← List.append_nil mapping.toList.reverse, List.takeWhile_append_of_pos hletters]
      rfl
    · rw [String.toList_append, String.toList_append, List.reverse_append, List.reverse_append,
        List.takeWhile_append_of_pos hletters]
      simp
  have hreverse := (hlast short hdollar h).symm.trans (hlast other hdollar' hother)
  exact String.toList_inj.1 (List.reverse_injective hreverse)

/-! ## Which classes are mapped -/

section
variable {σ : Type} (source : NameSource σ) (reserved : List String) (graph : ClassGraph)

/-- The members of a class leave the mappings of classes alone. -/
theorem classes_mapDeclarations (state : Store × σ) (entry : ClassEntry) :
    (mapDeclarations source reserved graph state entry).1.classes =
        (mapClassName source graph entry state).1.classes ∧
      (mapDeclarations source reserved graph state entry).1.implied =
        (mapClassName source graph entry state).1.implied := by
  let P := fun after : Store × σ =>
    after.1.classes = (mapClassName source graph entry state).1.classes ∧
      after.1.implied = (mapClassName source graph entry state).1.implied
  unfold mapDeclarations
  dsimp only
  refine List.foldlRecOn entry.methods _ (motive := P) ?_ fun after hafter method _ => ?_
  · split
    · exact ⟨rfl, rfl⟩
    · refine List.foldlRecOn entry.fields _ (motive := P) ⟨rfl, rfl⟩ fun after hafter field _ => ?_
      show Store.classes (Store.mapField _ _ _) = _ ∧ Store.implied (Store.mapField _ _ _) = _
      rw [mapField_eq_with]
      exact hafter
  · unfold mapDeclaredMethod
    split
    · exact hafter
    · show Store.classes (Store.mapMethod _ _ _) = _ ∧ Store.implied (Store.mapMethod _ _ _) = _
      rw [mapMethod_eq_with]
      exact hafter

variable {reserved graph}

theorem mapClassName_of_isMain (graph : ClassGraph) (state : Store × σ) {entry : ClassEntry}
    (hmain : entry.isMain = true) :
    mapClassName source graph entry state = state := by
  unfold mapClassName
  dsimp only
  rw [if_pos hmain]

/-- The new name of a class is drawn, and stands behind that of its outer class if it has one. -/
theorem exists_mapClassName_eq (graph : ClassGraph) (state : Store × σ) {entry : ClassEntry}
    (hmain : entry.isMain = false) :
    ∃ mapping, EndsInShort (source.draw .classes state.2).1 mapping ∧
      mapClassName source graph entry state =
        (state.1.mapClass entry.name mapping, (source.draw .classes state.2).2) := by
  unfold mapClassName
  dsimp only
  rw [hmain, if_neg Bool.false_ne_true]
  refine ⟨_, ?_, rfl⟩
  split
  · exact .inr ⟨_, rfl⟩
  · exact .inl rfl

/-- A class that is no main class has a mapping from then on. -/
theorem isSome_get?_mapClassName {state : Store × σ} (himplied : state.1.implied = [])
    (entry : ClassEntry) (name : String) :
    ((mapClassName source graph entry state).1.classes.get? name).isSome ↔
      (state.1.classes.get? name).isSome ∨ entry.isMain = false ∧ entry.name = name := by
  cases hmain : entry.isMain with
  | true => simp [mapClassName_of_isMain source graph state hmain]
  | false =>
    obtain ⟨mapping, -, hstate⟩ := exists_mapClassName_eq source graph state hmain
    rw [hstate, mapClass_eq himplied]
    split
    · rename_i hgiven
      constructor
      · exact Or.inl
      · rintro (h | ⟨-, rfl⟩)
        · exact h
        · exact hgiven
    · rw [Table.get?_insert]
      by_cases hname : entry.name = name
      · simp [hname]
      · simp [hname]

theorem implied_mapClassName {state : Store × σ} (himplied : state.1.implied = [])
    (entry : ClassEntry) : (mapClassName source graph entry state).1.implied = [] := by
  cases hmain : entry.isMain with
  | true => rw [mapClassName_of_isMain source graph state hmain, himplied]
  | false =>
    obtain ⟨mapping, -, hstate⟩ := exists_mapClassName_eq source graph state hmain
    rw [hstate, mapClass_eq himplied]
    split
    · exact himplied
    · exact himplied

theorem isSome_get?_foldl_mapDeclarations (places : List (ClassId × ClassEntry)) (state : Store × σ)
    (himplied : state.1.implied = []) (name : String) :
    (((places.foldl (fun state place => mapDeclarations source reserved graph state place.2)
        state).1.classes.get? name).isSome ↔
      (state.1.classes.get? name).isSome ∨
        ∃ place ∈ places, place.2.isMain = false ∧ place.2.name = name) := by
  induction places generalizing state with
  | nil => simp
  | cons place places ih =>
    obtain ⟨hclasses, hsame⟩ := classes_mapDeclarations source reserved graph state place.2
    rw [List.foldl_cons, ih _ (hsame.trans (implied_mapClassName source himplied place.2)), hclasses,
      isSome_get?_mapClassName source himplied, List.exists_mem_cons_iff, or_assoc]

variable (reserved graph)

/-- Overrides and inherited fields leave the mappings of classes alone. -/
theorem classes_generated (names : σ) :
    (generated source reserved graph names).classes =
      (declareAll source reserved graph names).1.classes := by
  let P := fun store : Store =>
    store.classes = (declareAll source reserved graph names).1.classes
  have hoverride : P (overrideAll source reserved graph names) := by
    refine List.foldlRecOn graph.toList _ (motive := P) rfl fun store hstore entry _ => ?_
    refine mapOverrides_induction hstore fun store hstore method _ _ _ _ => ?_
    show Store.classes _ = _
    rw [mapMethod_eq_with]
    exact hstore
  refine List.foldlRecOn graph.enumerate _ (motive := P) hoverride fun store hstore place _ => ?_
  refine mapInheritedFields_induction hstore fun store hstore owner row _ => ?_
  show Store.classes _ = _
  rw [mapField_eq_with]
  exact hstore

/-- A generated store maps the classes that are no main classes. -/
theorem isSome_get?_classes_generated (names : σ) (name : String) :
    ((generated source reserved graph names).classes.get? name).isSome ↔
      ∃ entry ∈ graph.toList, entry.isMain = false ∧ entry.name = name := by
  have hnone : ¬((Store.empty .applying).classes.get? name).isSome = true := by simp [Store.empty]
  rw [classes_generated, declareAll, isSome_get?_foldl_mapDeclarations source _ _ rfl,
    or_iff_right hnone]
  constructor
  · rintro ⟨place, hplace, h⟩
    exact ⟨place.2, mem_of_mem_enumerate (mem_of_mem_classOrder hplace), h⟩
  · rintro ⟨entry, hentry, h⟩
    obtain ⟨index, hindex⟩ := List.getElem?_of_mem hentry
    have hplace : (⟨index⟩, entry) ∈ graph.enumerate :=
      List.mem_map.2 ⟨(entry, index), List.mem_zipIdx_iff_getElem?.2 hindex, rfl⟩
    exact ⟨_, mem_classOrder hplace, h⟩

end

/-! ## Counted names -/

/-- The members of a class are not counted among the classes. -/
theorem count_mapDeclarations (reserved : List String) (graph : ClassGraph) (state : Store × Counters)
    (entry : ClassEntry) :
    (mapDeclarations Counters.source reserved graph state entry).2.classes =
      (mapClassName Counters.source graph entry state).2.classes := by
  unfold mapDeclarations
  dsimp only
  let P := fun after : Store × Counters =>
    after.2.classes = (mapClassName Counters.source graph entry state).2.classes
  refine List.foldlRecOn entry.methods _ (motive := P) ?_ fun after hafter method _ => ?_
  · split
    · rfl
    · exact List.foldlRecOn entry.fields _ (motive := P) rfl fun after hafter field _ => hafter
  · unfold mapDeclaredMethod
    split
    · exact hafter
    · exact hafter

/-- Whether all new class names were counted so far, and no two classes got one of them. -/
structure CountsClasses (state : Store × Counters) : Prop where
  implied : state.1.implied = []
  counted : ∀ name mapping, state.1.classes.get? name = some mapping →
    ∃ n < state.2.classes, EndsInShort (nthName n) mapping
  distinct : ∀ name other mapping, state.1.classes.get? name = some mapping →
    state.1.classes.get? other = some mapping → name = other

namespace CountsClasses

variable {state : Store × Counters}

/-- A new class name ends in the next short name, so no class has it yet. -/
theorem mapClassName (h : CountsClasses state) (graph : ClassGraph) (entry : ClassEntry) :
    CountsClasses (mapClassName Counters.source graph entry state) := by
  cases hmain : entry.isMain with
  | true =>
    rw [mapClassName_of_isMain Counters.source graph state hmain]
    exact h
  | false =>
    obtain ⟨mapping, hshort, hstate⟩ :=
      exists_mapClassName_eq Counters.source graph state hmain
    change EndsInShort (nthName state.2.classes) mapping at hshort
    have hold : ∀ name image, state.1.classes.get? name = some image →
        ∃ n < state.2.classes + 1, EndsInShort (nthName n) image := by
      intro name image himage
      obtain ⟨n, hn, hends⟩ := h.counted name image himage
      exact ⟨n, Nat.lt_succ_of_lt hn, hends⟩
    have hnew : ∀ name, state.1.classes.get? name ≠ some mapping := by
      intro name himage
      obtain ⟨n, hn, hends⟩ := h.counted name mapping himage
      have hsame := nthName_inj (hends.eq hshort (dollar_not_mem_nthName n) (dollar_not_mem_nthName _))
      omega
    rw [hstate, mapClass_eq h.implied]
    split
    · exact ⟨h.implied, hold, h.distinct⟩
    · refine ⟨h.implied, fun name image himage => ?_, fun name other image himage hother => ?_⟩
      · rw [Table.get?_insert] at himage
        split at himage
        · exact ⟨_, Nat.lt_succ_self _, Option.some.inj himage ▸ hshort⟩
        · exact hold name image himage
      · rw [Table.get?_insert] at himage hother
        split at himage <;> split at hother
        · exact Eq.trans (Eq.symm (by assumption)) (by assumption)
        · exact absurd (himage ▸ hother) (hnew other)
        · exact absurd (hother ▸ himage) (hnew name)
        · exact h.distinct name other image himage hother

theorem of_eq {after : Store × Counters} (h : CountsClasses state)
    (himplied : after.1.implied = state.1.implied) (hclasses : after.1.classes = state.1.classes)
    (hcount : after.2.classes = state.2.classes) : CountsClasses after where
  implied := himplied.trans h.implied
  counted := by
    rw [hclasses, hcount]
    exact h.counted
  distinct := by
    rw [hclasses]
    exact h.distinct

theorem mapDeclarations (h : CountsClasses state) (reserved : List String) (graph : ClassGraph)
    (entry : ClassEntry) :
    CountsClasses (mapDeclarations Counters.source reserved graph state entry) := by
  obtain ⟨hclasses, himplied⟩ := classes_mapDeclarations Counters.source reserved graph state entry
  exact (h.mapClassName graph entry).of_eq himplied hclasses
    (count_mapDeclarations reserved graph state entry)

end CountsClasses

/-- Alphabetic names give no two classes the same one. -/
theorem eq_of_get?_classes_generated (reserved : List String) (graph : ClassGraph) (names : Counters)
    {name other mapping : String}
    (h : (generated Counters.source reserved graph names).classes.get? name = some mapping)
    (hother : (generated Counters.source reserved graph names).classes.get? other = some mapping) :
    name = other := by
  have hcounts : CountsClasses (declareAll Counters.source reserved graph names) :=
    List.foldlRecOn (classOrder graph) _ (motive := CountsClasses)
      ⟨rfl, fun name mapping h => by simp [Store.empty] at h,
        fun name other mapping h => by simp [Store.empty] at h⟩
      fun state hstate place _ => hstate.mapDeclarations reserved graph place.2
  rw [classes_generated] at h hother
  exact hcounts.distinct name other mapping h hother

/-! ## Strategies -/

/-- Whether one source draws what another one draws, with its states taken for those of the other. -/
structure NameSource.Embeds {σ τ : Type} (source : NameSource σ) (other : NameSource τ) (f : σ → τ) :
    Prop where
  draw : ∀ scope names, other.draw scope (f names) = (source.draw scope names).map id f
  enterClass : ∀ names, other.enterClass (f names) = f (source.enterClass names)

namespace NameSource.Embeds

variable {σ τ : Type} {source : NameSource σ} {other : NameSource τ} {f : σ → τ}
  (h : source.Embeds other f) (reserved : List String) (graph : ClassGraph)
include h

theorem mapDeclarations_eq (state : Store × σ) (entry : ClassEntry) :
    mapDeclarations other reserved graph (state.map id f) entry =
      (mapDeclarations source reserved graph state entry).map id f := by
  have hclass : mapClassName other graph entry (state.map id f) =
      (mapClassName source graph entry state).map id f := by
    simp only [mapClassName, Prod.map, id_eq, h.draw]
    split <;> rfl
  have hfield : ∀ (state : Store × σ) field, mapDeclaredField other entry.name (state.map id f) field =
      (mapDeclaredField source entry.name state field).map id f := by
    intro state field
    unfold mapDeclaredField
    rw [Prod.map_snd, h.draw]
    rfl
  have hmethod : ∀ (state : Store × σ) method,
      mapDeclaredMethod other reserved entry.name (state.map id f) method =
        (mapDeclaredMethod source reserved entry.name state method).map id f := by
    intro state method
    unfold mapDeclaredMethod
    rw [Prod.map_snd, h.draw]
    split <;> rfl
  unfold mapDeclarations
  rw [hclass]
  generalize mapClassName source graph entry state = named
  obtain ⟨store, names⟩ := named
  have hstart : (store, other.enterClass (f names)) = (store, source.enterClass names).map id f := by
    rw [h.enterClass]
    rfl
  simp only [Prod.map_apply, id_eq]
  rw [hstart]
  split
  · exact List.foldl_hom (Prod.map id f) hmethod
  · rw [List.foldl_hom (Prod.map id f) hfield]
    exact List.foldl_hom (Prod.map id f) hmethod

/-- Both sources generate the same store. -/
theorem generated_eq (names : σ) :
    generated other reserved graph (f names) = generated source reserved graph names := by
  have hdeclare : declareAll other reserved graph (f names) =
      (declareAll source reserved graph names).map id f := by
    change List.foldl _ ((Store.empty .applying, names).map id f) _ = _
    exact List.foldl_hom (Prod.map id f) fun state place =>
      h.mapDeclarations_eq reserved graph state place.2
  rw [generated, generated, inheritAll, inheritAll, overrideAll, overrideAll, hdeclare]
  rfl

end NameSource.Embeds

section
variable {ρ : Type} (words : WordSource ρ)

/-- From counters the names are alphabetic, whatever the source of words. -/
theorem embeds_alphabetic : Counters.source.Embeds (Naming.source words) .alphabetic where
  draw _ _ := rfl
  enterClass _ := rfl

/-- Among alphabetic names, no two classes get the same one. -/
theorem eq_of_get?_classes_alphabetic (reserved : List String) (graph : ClassGraph)
    (counters : Counters) {name other mapping : String}
    (h : (generated (Naming.source words) reserved graph (.alphabetic counters)).classes.get? name =
      some mapping)
    (hother : (generated (Naming.source words) reserved graph (.alphabetic counters)).classes.get? other =
      some mapping) : name = other := by
  rw [(embeds_alphabetic words).generated_eq] at h hother
  exact eq_of_get?_classes_generated reserved graph counters h hother

end

end JvmArchive.Mapping
