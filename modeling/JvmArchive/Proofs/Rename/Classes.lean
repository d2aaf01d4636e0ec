import JvmArchive.Proofs.Mapping.ClassNames
import JvmArchive.Proofs.Rename.Generated

/-!
# Classes of renamed graphs

Renaming drops a class if it gets the name of another one. Alphabetic names are different from each other,
but a main class keeps its name, and nothing keeps a new name from being that one.
-/
namespace JvmArchive

namespace ClassGraph

theorem size_ofList_eq_iff (entries : List ClassEntry) :
    (ofList entries).size = entries.length ↔ (entries.map (·.name)).Nodup := by
  have h := Table.length_ofList_eq_iff (entries.map fun entry => (entry.name, entry))
  rw [List.length_map, List.map_map] at h
  exact h

theorem size_eq_length (graph : ClassGraph) : graph.size = graph.toList.length := by
  simp [size, Table.length, toList, Table.values]

theorem size_resolve (graph : ClassGraph) : graph.resolve.size = graph.size := by
  rw [size_eq_length, size_eq_length, toList_resolve, length_linkAll]

end ClassGraph

namespace Renamer

open ClassGraph Mapping Mapping.Store

/-- Whether classes have different names, and no class gets the name that a main class keeps. -/
structure SparesMain (store : Store) (entries : List ClassEntry) : Prop where
  distinct : (entries.map (·.name)).Nodup
  spared : ∀ main ∈ entries, main.isMain = true →
    ∀ entry ∈ entries, entry.isMain = false → store.mappedName entry.name ≠ main.name

instance (store : Store) (entries : List ClassEntry) : Decidable (SparesMain store entries) :=
  decidable_of_iff (_ ∧ _) ⟨fun h => ⟨h.1, h.2⟩, fun h => ⟨h.distinct, h.spared⟩⟩

section
variable {renamer : Renamer} {graph : ClassGraph} {store : Store}

/-- A renamed graph has every class exactly if no two classes come to have one name. -/
theorem size_rename_eq_iff (hresolved : graph.resolved = true) :
    (graph.rename store).size = graph.size ↔
      (graph.toList.map fun entry => (ofStore graph store).mapType entry.name).Nodup := by
  have hsize := size_ofList_eq_iff (graph.toList.map (ofStore graph store).mapClass)
  rw [List.length_map, List.map_map] at hsize
  rw [rename, ensureResolved, if_pos hresolved, size_resolve, size_eq_length graph]
  exact hsize

/-- Where the new names are different, every class comes out renamed in its place. -/
theorem declarations_rename (hresolved : graph.resolved = true)
    (h : (graph.toList.map fun entry => (ofStore graph store).mapType entry.name).Nodup) :
    (graph.rename store).toList.map (fun entry => (entry.toNode, entry.isMain)) =
      graph.toList.map fun entry =>
        (((ofStore graph store).mapClass entry).toNode, entry.isMain) := by
  have hnames : ((graph.toList.map (ofStore graph store).mapClass).map (·.name)).Nodup := by
    rw [List.map_map]
    exact h
  rw [rename, ensureResolved, if_pos hresolved, toList_resolve, toList_ofList hnames,
    declarations_linkAll, List.map_map]
  rfl

end

section
variable (reserved : List String) (names : Counters)

section
variable {graph : ClassGraph}

/-- A class that is no main class gets its alphabetic name, and a main class keeps its own. -/
theorem mapType_alphabetic {entry : ClassEntry} (hentry : entry ∈ graph.toList)
    (hnodup : (graph.toList.map (·.name)).Nodup) (hdot : '.' ∉ entry.name.toList)
    (harray : entry.name.toList.head? ≠ some '[') :
    if entry.isMain then
      (ofGenerated Counters.source reserved names graph).mapType entry.name = entry.name
    else
      (generated Counters.source reserved graph names).classes.get? entry.name =
        some ((ofGenerated Counters.source reserved names graph).mapType entry.name) := by
  have hdirection := (describes_generated Counters.source reserved graph names).direction
  have hmapped := isSome_get?_classes_generated Counters.source reserved graph names entry.name
  rw [mapType_ofStore hdirection hdot harray, mappedName]
  split
  · rename_i hmain
    cases hget : (generated Counters.source reserved graph names).classes.get? entry.name with
    | none => rfl
    | some mapping =>
      rw [hget] at hmapped
      obtain ⟨other, hother, hotherMain, hname⟩ := hmapped.1 rfl
      obtain rfl := List.inj_on_of_nodup_map hnodup hother hentry hname
      exact absurd (hmain.symm.trans hotherMain) (by simp)
  · rename_i hmain
    obtain ⟨mapping, hmapping⟩ := Option.isSome_iff_exists.1
      (hmapped.2 ⟨entry, hentry, Bool.not_eq_true _ ▸ hmain, rfl⟩)
    rw [hmapping]
    rfl

/-- The new names of classes are different exactly if the names are and no class gets that of a main
class. -/
theorem nodup_mapType_iff (hplain : ∀ entry ∈ graph.toList,
      '.' ∉ entry.name.toList ∧ entry.name.toList.head? ≠ some '[') :
    (graph.toList.map fun entry =>
        (ofGenerated Counters.source reserved names graph).mapType entry.name).Nodup ↔
      SparesMain (generated Counters.source reserved graph names) graph.toList := by
  have hdirection := (describes_generated Counters.source reserved graph names).direction
  have hcomp : graph.toList.map (fun entry =>
        (ofGenerated Counters.source reserved names graph).mapType entry.name) =
      (graph.toList.map (·.name)).map (ofGenerated Counters.source reserved names graph).mapType := by
    rw [List.map_map]
    rfl
  constructor
  · intro h
    have hnodup : (graph.toList.map (·.name)).Nodup := (hcomp ▸ h).of_map _
    refine ⟨hnodup, fun main hmain hisMain entry hentry hother hsame => ?_⟩
    have hkept := mapType_alphabetic reserved names hmain hnodup (hplain main hmain).1
      (hplain main hmain).2
    rw [if_pos hisMain] at hkept
    have hnew : (ofGenerated Counters.source reserved names graph).mapType entry.name =
        (ofGenerated Counters.source reserved names graph).mapType main.name := by
      rw [hkept, ← hsame]
      exact mapType_ofStore hdirection (hplain entry hentry).1 (hplain entry hentry).2
    obtain rfl := List.inj_on_of_nodup_map h hentry hmain hnew
    exact absurd (hisMain.symm.trans hother) (by simp)
  · intro h
    rw [hcomp]
    refine h.distinct.map_on ?_
    rw [List.forall_mem_map]
    intro a ha
    rw [List.forall_mem_map]
    intro b hb hsame
    have hA := mapType_alphabetic reserved names ha h.distinct (hplain a ha).1 (hplain a ha).2
    have hB := mapType_alphabetic reserved names hb h.distinct (hplain b hb).1 (hplain b hb).2
    have hmapped : ∀ {entry : ClassEntry}, entry ∈ graph.toList →
        (ofGenerated Counters.source reserved names graph).mapType entry.name =
          (generated Counters.source reserved graph names).mappedName entry.name := fun hentry =>
      mapType_ofStore hdirection (hplain _ hentry).1 (hplain _ hentry).2
    cases haMain : a.isMain <;> cases hbMain : b.isMain <;> rw [haMain] at hA <;> rw [hbMain] at hB
    · exact eq_of_get?_classes_generated reserved graph names hA (hsame ▸ hB)
    · exact absurd ((hmapped ha).symm.trans (hsame.trans hB)) (h.spared b hb hbMain a ha haMain)
    · exact absurd ((hmapped hb).symm.trans (hsame.symm.trans hA)) (h.spared a ha haMain b hb hbMain)
    · exact hA.symm.trans (hsame.trans hB)

end

/-- Generating alphabetic names for a resolved graph succeeds, and renaming by the store keeps the number
of classes exactly if they have different names and none gets that of a main class. Then every class
comes out renamed in its place. -/
theorem exists_alphabetic_size_rename_iff (graph : ClassGraph) (hresolved : graph.resolved = true)
    (hplain : ∀ entry ∈ graph.toList,
      '.' ∉ entry.name.toList ∧ entry.name.toList.head? ≠ some '[') :
    ∃ store rest, generate Counters.source reserved graph names = .ok (store, rest) ∧
      ((graph.rename store).size = graph.size ↔ SparesMain store graph.toList) ∧
      (SparesMain store graph.toList →
        (graph.rename store).toList.map (fun entry => (entry.toNode, entry.isMain)) =
          graph.toList.map fun entry =>
            (((ofStore graph store).mapClass entry).toNode, entry.isMain)) := by
  refine ⟨_, _, generate_eq_ok _ _ _ _ hresolved, ?_, fun h => ?_⟩
  · rw [size_rename_eq_iff hresolved]
    exact nodup_mapType_iff reserved names hplain
  · exact declarations_rename hresolved ((nodup_mapType_iff reserved names hplain).2 h)

end

/-- A main class and a class beside it. -/
def mainGraph (main : String) : ClassGraph :=
  .ofList
    [{ ClassEntry.ofNode { access := 1, name := main, superName := some "java/lang/Object" } with
        isMain := true },
    .ofNode { access := 1, name := "p/B", superName := some main }]

/-- The class beside the main one is renamed and both are kept. -/
theorem alphabetic_size_rename_apart :
    ∃ store rest, generate Counters.source reservedMethods (mainGraph "p/Main").resolve {} =
        .ok (store, rest) ∧
      ((mainGraph "p/Main").resolve.rename store).size = 2 ∧
      ((mainGraph "p/Main").resolve.rename store).toList.map (·.name) = ["p/Main", "a"] := by
  obtain ⟨store, rest, hgenerate, hsize, hclasses⟩ := exists_alphabetic_size_rename_iff
    reservedMethods {} (mainGraph "p/Main").resolve rfl (by decide +kernel)
  have hstore : store =
      generated Counters.source reservedMethods (mainGraph "p/Main").resolve {} := by
    rw [generate_eq_ok _ _ _ _ rfl, Except.ok.injEq, Prod.mk.injEq] at hgenerate
    exact hgenerate.1.symm
  have hspared : SparesMain store (mainGraph "p/Main").resolve.toList := by
    rw [hstore]
    decide +kernel
  refine ⟨store, rest, hgenerate, (hsize.2 hspared).trans (by decide +kernel), ?_⟩
  have hnames := congrArg (List.map fun declared => declared.1.name) (hclasses hspared)
  rw [List.map_map, List.map_map] at hnames
  refine Eq.trans hnames ?_
  rw [hstore]
  decide +kernel

/-- A class gets the name of the main class, and one of the two is lost. -/
theorem alphabetic_size_rename_taken :
    ((generate Counters.source reservedMethods (mainGraph "a").resolve {}).toOption.map fun result =>
        ((mainGraph "a").resolve.size, result.1.mappedName "p/B",
          ((mainGraph "a").resolve.rename result.1).size)) =
      some (2, "a", 1) := by
  decide +kernel

end Renamer
end JvmArchive
