import JvmArchive.Proofs.Graph.Linked
import JvmArchive.Rename.Class
import Mathlib.Data.List.Nodup

/-!
# Links of renamed graphs

Renaming exchanges names and links everything again. While no class gets the new name of a class that
is named in the graph beside it, every class keeps its place, its parents and its ancestors.
-/
namespace JvmArchive

namespace Renamer

open ClassGraph

/-- The names of classes that a class says it stands at or below. -/
def namesAbove (entry : ClassEntry) : List String :=
  entry.name :: (entry.node.superName.toList ++ entry.node.interfaces)

/-- Whether a renamer gives no class of a list the new name of another class that the list names: of a
class in it, or of one right above a class in it. -/
def Separates (renamer : Renamer) (entries : List ClassEntry) : Prop :=
  ∀ entry ∈ entries, ∀ other ∈ entries, ∀ name ∈ namesAbove other,
    renamer.mapType entry.name = renamer.mapType name → entry.name = name

instance (renamer : Renamer) (entries : List ClassEntry) : Decidable (renamer.Separates entries) :=
  inferInstanceAs (Decidable (∀ entry ∈ entries, _))

variable {renamer : Renamer} {entries : List ClassEntry}

@[simp]
theorem name_mapClass (renamer : Renamer) (entry : ClassEntry) :
    (renamer.mapClass entry).name = renamer.mapType entry.name := rfl

theorem nodup_mapClass (hnames : (entries.map (·.name)).Nodup) (h : renamer.Separates entries) :
    ((entries.map renamer.mapClass).map (·.name)).Nodup := by
  rw [List.map_map]
  have hinjective : ∀ a ∈ entries, ∀ b ∈ entries,
      renamer.mapType a.name = renamer.mapType b.name → a.name = b.name :=
    fun a ha b hb => h a ha b hb _ List.mem_cons_self
  have hcomp : entries.map ((·.name) ∘ renamer.mapClass) =
      (entries.map (·.name)).map renamer.mapType := by simp [Function.comp_def]
  rw [hcomp]
  refine hnames.map_on ?_
  intro x hx y hy
  obtain ⟨a, ha, rfl⟩ := List.mem_map.1 hx
  obtain ⟨b, hb, rfl⟩ := List.mem_map.1 hy
  exact hinjective a ha b hb

/-- A renamed graph is the linked list of its renamed classes. -/
theorem toList_rename {graph : ClassGraph} {store : Mapping.Store} (hresolved : graph.resolved = true)
    (hnames : (graph.toList.map (·.name)).Nodup)
    (h : (ofStore graph store).Separates graph.toList) :
    (graph.rename store).toList = linkAll (graph.toList.map (ofStore graph store).mapClass) := by
  rw [rename, ensureResolved, if_pos hresolved, toList_resolve, toList_ofList]
  exact nodup_mapClass hnames h

/-- The classes of a renamed graph stand under their new names. -/
theorem keepsNames_rename {graph : ClassGraph} {store : Mapping.Store} (hresolved : graph.resolved = true)
    (hnames : (graph.toList.map (·.name)).Nodup)
    (h : (ofStore graph store).Separates graph.toList) : (graph.rename store).KeepsNames := by
  rw [rename, ensureResolved, if_pos hresolved]
  exact (keepsNames_ofList (nodup_mapClass hnames h)).resolve

theorem lookUp_mapClass (h : renamer.Separates entries) {entry : ClassEntry} (hentry : entry ∈ entries)
    {name : String} (hname : name ∈ namesAbove entry) :
    lookUp (entries.map renamer.mapClass) (renamer.mapType name) = lookUp entries name :=
  lookUp_map (fun other _ => name_mapClass renamer other) fun other hother =>
    h other hother entry hentry name hname

/-- The links to the classes right above survive renaming. -/
theorem parents_rename (hlinked : Linked entries) (h : renamer.Separates entries) :
    (linkAll (entries.map renamer.mapClass)).map (fun entry => (entry.superclass, entry.interfaces)) =
      entries.map fun entry => (entry.superclass, entry.interfaces) := by
  apply List.ext_getElem?
  intro index
  rw [List.getElem?_map, List.getElem?_map]
  cases hentry : (linkAll (entries.map renamer.mapClass))[index]? with
  | none =>
    rw [List.getElem?_eq_none_iff, length_linkAll, List.length_map, ← List.getElem?_eq_none_iff]
      at hentry
    rw [hentry, Option.map_none]
  | some entry =>
    obtain ⟨declared, hdeclared, hfrom⟩ := exists_of_getElem?_linkAll hentry
    rw [List.getElem?_map] at hdeclared
    obtain ⟨old, hold, rfl⟩ := Option.map_eq_some_iff.1 hdeclared
    have hmem := List.mem_of_getElem? hold
    rw [hold, Option.map_some, Option.map_some, hfrom.superclass, hfrom.interfaces,
      hlinked.superclass old hmem, hlinked.interfaces old hmem]
    have hsuper : (old.node.superName.map renamer.mapType).bind
        (lookUp (entries.map renamer.mapClass)) = old.node.superName.bind (lookUp entries) := by
      cases hname : old.node.superName with
      | none => rfl
      | some name => exact lookUp_mapClass h hmem (by simp [namesAbove, hname])
    have hinterfaces : (old.node.interfaces.map renamer.mapType).filterMap
        (lookUp (entries.map renamer.mapClass)) = old.node.interfaces.filterMap (lookUp entries) := by
      rw [List.filterMap_map]
      refine List.filterMap_congr fun name hname => ?_
      exact lookUp_mapClass h hmem (by simp [namesAbove, hname])
    exact congrArg some (Prod.ext hsuper hinterfaces)

/-- A class of a renamed graph and the class in its place before: what it declares is renamed, and it
has the same links to the classes above. -/
structure Renamed (renamer : Renamer) (old new : ClassEntry) : Prop where
  node : new.node = renamer.mapHeader old.node
  isMain : new.isMain = old.isMain
  fields : new.fields.map (·.node) = old.fields.map fun field =>
    (renamer.mapFieldEntry old.name field).node
  methods : new.methods.map (·.node) = old.methods.map fun method =>
    (renamer.mapMethodEntry old.name method).node
  superclass : new.superclass = old.superclass
  interfaces : new.interfaces = old.interfaces
  ancestors : new.ancestors = old.ancestors

theorem length_renamed (renamer : Renamer) (entries : List ClassEntry) :
    (linkAll (entries.map renamer.mapClass)).length = entries.length := by
  rw [length_linkAll, List.length_map]

theorem renamed_of_getElem? (hlinked : Linked entries) (h : renamer.Separates entries) {index : Nat}
    {old new : ClassEntry} (hold : entries[index]? = some old)
    (hnew : (linkAll (entries.map renamer.mapClass))[index]? = some new) :
    renamer.Renamed old new := by
  have hparents := parents_rename hlinked h
  have habove := congrArg (·[index]?) hparents
  simp only [List.getElem?_map, hold, hnew, Option.map_some, Option.some.injEq, Prod.mk.injEq] at habove
  obtain ⟨declared, hdeclared, hfrom⟩ := exists_of_getElem?_linkAll hnew
  rw [List.getElem?_map, hold, Option.map_some, Option.some.injEq] at hdeclared
  subst hdeclared
  refine ⟨hfrom.node, hfrom.isMain, ?_, ?_, habove.1, habove.2, ?_⟩
  · rw [hfrom.fields, mapClass, List.map_map]
    rfl
  · rw [hfrom.methods, mapClass, List.map_map]
    rfl
  · rw [(linked_linkAll _).ancestors hnew, hlinked.ancestors hold]
    exact ancestorsOf_congr hparents _

section
variable {graph renamed : ClassGraph}
  (hrenamed : renamed.toList = linkAll (graph.toList.map renamer.mapClass))
  (hlinked : Linked graph.toList) (hseparates : renamer.Separates graph.toList)
include hrenamed

theorem exists_at?_renamed {id : ClassId} {entry : ClassEntry} (hentry : graph.at? id = some entry) :
    ∃ new, renamed.at? id = some new := by
  rw [at?_eq_getElem?] at hentry
  refine ⟨_, (at?_eq_getElem? renamed id).trans (List.getElem?_eq_getElem ?_)⟩
  rw [hrenamed, length_renamed]
  exact (List.getElem?_eq_some_iff.1 hentry).1

theorem at?_renamed_of_none {id : ClassId} (h : graph.at? id = none) : renamed.at? id = none := by
  rw [at?_eq_getElem?, List.getElem?_eq_none_iff] at h ⊢
  rw [hrenamed, length_renamed]
  exact h

include hlinked hseparates

theorem renamed_of_at? {id : ClassId} {entry new : ClassEntry} (hentry : graph.at? id = some entry)
    (hnew : renamed.at? id = some new) : renamer.Renamed entry new := by
  rw [at?_eq_getElem?] at hentry hnew
  rw [hrenamed] at hnew
  exact renamed_of_getElem? hlinked hseparates hentry hnew

/-- The method at a place is renamed in its place. -/
theorem node_methodAt?_renamed (place : ClassId × Nat) :
    (renamed.methodAt? place).map (·.node) =
      (graph.at? place.1).bind fun entry =>
        (entry.methods[place.2]?).map fun method =>
          (renamer.mapMethodEntry entry.name method).node := by
  rw [methodAt?]
  cases hentry : graph.at? place.1 with
  | none => rw [at?_renamed_of_none hrenamed hentry]; rfl
  | some entry =>
    obtain ⟨new, hnew⟩ := exists_at?_renamed hrenamed hentry
    have h := renamed_of_at? hrenamed hlinked hseparates hentry hnew
    rw [hnew, Option.bind_some, Option.bind_some, ← List.getElem?_map, h.methods, List.getElem?_map]

end

end Renamer

end JvmArchive
