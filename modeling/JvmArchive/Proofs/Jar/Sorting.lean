import JvmArchive.Jar.Load
import JvmArchive.Jar.Save
import JvmArchive.Proofs.Archive.Manifest
import JvmArchive.Proofs.Graph.Repairs
import JvmArchive.Proofs.Jar.Jobs

/-!
# Sorting files

What the paths of files tell when an archive is taken apart, what sorting leaves in a jar, and how the
files that a jar is written to are sorted again.
-/
namespace JvmArchive

namespace Archive

/-! ## Paths -/

theorem endsWith_append (front word : List Char) : endsWith word (front ++ word) = true := by
  rw [endsWith, Text.dropTrailing?_append]
  rfl

theorem eq_append_of_endsWith {word text : List Char} (h : endsWith word text = true) :
    ∃ front, text = front ++ word := by
  obtain ⟨front, hfront⟩ := Option.isSome_iff_exists.1 h
  exact ⟨front, Text.eq_append_of_dropTrailing? hfront⟩

/-- Where a class is written. -/
def classPath (name : String) : String := name ++ ".class"

theorem isClassPath_classPath (name : String) : isClassPath (classPath name) = true := by
  rw [isClassPath, classPath, String.toList_append]
  exact endsWith_append _ _

/-- A text that ends with a word ends with the last letter of the word. -/
theorem endsWith_eq_false {word text : List Char} {c d : Char} (hword : word.getLast? = some c)
    (htext : text.getLast? = some d) (h : c ≠ d) : endsWith word text = false := by
  rw [Bool.eq_false_iff]
  intro hends
  obtain ⟨front, rfl⟩ := eq_append_of_endsWith hends
  rw [List.getLast?_append, hword, Option.some_or, Option.some.injEq] at htext
  exact h htext

theorem getLast?_classPath (name : String) : (classPath name).toList.getLast? = some 's' := by
  rw [classPath, String.toList_append, List.getLast?_append]
  rfl

/-- The paths of manifests and signature files end in other letters than those of classes. -/
theorem isMetadata_classPath (name : String) : isMetadata (classPath name) = false := by
  have hlast : ((classPath name).toList.map Char.toUpper).getLast? = some 'S' := by
    rw [List.getLast?_map, getLast?_classPath]
    decide
  rw [isMetadata, metadataEnds, List.any_eq_false]
  intro word hword
  rw [Bool.not_eq_true]
  simp only [List.mem_cons, List.not_mem_nil, or_false] at hword
  rcases hword with rfl | rfl | rfl | rfl
  · exact endsWith_eq_false (c := 'F') (by decide +kernel) hlast (by decide)
  · exact endsWith_eq_false (c := 'F') (by decide +kernel) hlast (by decide)
  · exact endsWith_eq_false (c := 'A') (by decide +kernel) hlast (by decide)
  · exact endsWith_eq_false (c := 'A') (by decide +kernel) hlast (by decide)

theorem sameFolded_classPath (name : String) :
    Text.sameFolded (classPath name) manifestPath = false := by
  rw [Bool.eq_false_iff]
  intro h
  have hlast := congrArg (fun s : String => s.toList.getLast?) (Text.sameFolded_iff.1 h)
  simp only [Text.foldCase, String.toList_map, List.getLast?_map, getLast?_classPath] at hlast
  revert hlast
  decide +kernel

end Archive
namespace Jar

open Job

/-! ## What sorting leaves -/

/-- Whether the file at a path is neither the manifest nor a signature nor a class. -/
structure IsResourcePath (path : String) : Prop where
  manifest : Text.sameFolded path Archive.manifestPath = false
  metadata : Archive.isMetadata path = false
  class_ : Archive.isClassPath path = false

/-- What sorting leaves in a jar: classes under their names of which none is marked, resources at paths
of resources, and a manifest that can be read. -/
structure IsSorted (jar : Jar) : Prop where
  keeps : jar.graph.KeepsNames
  unmarked : ∀ entry ∈ jar.graph.toList, entry.isMain = false
  resources : ∀ file ∈ jar.resources.entries, IsResourcePath file.1
  manifest : ∀ manifest ∈ jar.manifest, manifest.Readable

/-- What sorting a file does: it exchanges the manifest, drops the file, or adds a class or a
resource. -/
theorem sortEntry_cases {sorted next : Sorted} {entry : ArchiveEntry} {records after : List LogRecord}
    (h : (sortEntry sorted entry).Succeeds records next after) :
    (∃ manifest, Manifest.ofBytes entry.data = .ok manifest ∧
      next.jar = { sorted.jar with manifest := some manifest }) ∨
    next.jar = sorted.jar ∨
    (∃ node, ClassNode.ofBytes entry.data = .ok node ∧
      next.jar = { sorted.jar with graph := sorted.jar.graph.insert (.ofNode node) }) ∨
    IsResourcePath entry.path ∧ next.jar = sorted.jar.putResource entry.path entry.data := by
  rw [sortEntry] at h
  split at h
  · split at h
    · rename_i manifest hmanifest
      rw [succeeds_pure_iff] at h
      exact .inl ⟨manifest, hmanifest, congrArg Sorted.jar h.1⟩
    · exact absurd h not_succeeds_throw
  · rename_i hmanifest
    split at h
    · rw [succeeds_pure_iff] at h
      exact .inr (.inl (congrArg Sorted.jar h.1))
    · rename_i hmetadata
      split at h
      · split at h
        · rename_i class_ hclass
          rw [succeeds_pure_iff] at h
          obtain ⟨node, hnode, rfl⟩ : ∃ node, ClassNode.ofBytes entry.data = .ok node ∧
              ClassEntry.ofNode node = class_ := by
            rw [ClassEntry.ofBytes] at hclass
            cases hnode : ClassNode.ofBytes entry.data with
            | error error =>
              rw [hnode] at hclass
              cases hclass
            | ok node =>
              rw [hnode] at hclass
              exact ⟨node, rfl, Except.ok.inj hclass⟩
          exact .inr (.inr (.inl ⟨node, hnode, congrArg Sorted.jar h.1⟩))
        · rw [succeeds_bind_iff] at h
          obtain ⟨-, between, -, hnext⟩ := h
          rw [succeeds_pure_iff] at hnext
          exact .inr (.inl (by rw [hnext.1]))
      · rename_i hclass
        rw [succeeds_pure_iff] at h
        refine .inr (.inr (.inr ⟨⟨?_, ?_, ?_⟩, congrArg Sorted.jar h.1⟩))
        · exact Bool.eq_false_iff.2 hmanifest
        · exact Bool.eq_false_iff.2 hmetadata
        · exact Bool.eq_false_iff.2 hclass

theorem isSorted_empty (comment : Option String) (isCancelled : Bool) :
    IsSorted { comment, isCancelled } where
  keeps := rfl
  unmarked entry h := by cases h
  resources file h := by cases h
  manifest manifest h := by cases h

/-- Sorting a file keeps a jar sorted, and does not cancel the work on it. -/
theorem isSorted_sortEntry {isCancelled : Bool} {sorted next : Sorted} {entry : ArchiveEntry}
    {records after : List LogRecord}
    (hsorted : sorted.jar.IsSorted ∧ sorted.jar.isCancelled = isCancelled)
    (h : (sortEntry sorted entry).Succeeds records next after) :
    next.jar.IsSorted ∧ next.jar.isCancelled = isCancelled := by
  obtain ⟨hjar, hcancelled⟩ := hsorted
  obtain ⟨manifest, hmanifest, hnext⟩ | hnext | ⟨node, -, hnext⟩ | ⟨hpath, hnext⟩ :=
    sortEntry_cases h <;> rw [hnext]
  · refine ⟨{ hjar with manifest := ?_ }, hcancelled⟩
    rintro other ⟨⟩
    exact Manifest.readable_of_ofBytes hmanifest
  · exact ⟨hjar, hcancelled⟩
  · refine ⟨{ hjar with keeps := hjar.keeps.insert _, unmarked := ?_ }, hcancelled⟩
    intro class_ hclass
    obtain ⟨pair, hpair, rfl⟩ := List.mem_map.1 hclass
    rcases Table.mem_entries_insert hpair with rfl | hold
    · rfl
    · exact hjar.unmarked _ (List.mem_map_of_mem hold)
  · refine ⟨{ hjar with resources := ?_ }, hcancelled⟩
    intro file hfile
    rcases Table.mem_entries_insert hfile with rfl | hold
    · exact hpath
    · exact hjar.resources file hold

/-! ## Sorting what has been written -/

theorem gives_sortEntry_manifest (sorted : Sorted) {data : List UInt8} {manifest : Manifest}
    (h : Manifest.ofBytes data = .ok manifest) :
    (sortEntry sorted { path := Archive.manifestPath, data }).Gives
      { sorted with jar := { sorted.jar with manifest := some manifest } } := by
  rw [sortEntry, if_pos (Text.sameFolded_self _), h]
  exact gives_pure _

theorem gives_sortEntry_class (sorted : Sorted) {name : String} {data : List UInt8} {node : ClassNode}
    (h : ClassNode.ofBytes data = .ok node) :
    (sortEntry sorted { path := Archive.classPath name, data }).Gives
      { sorted with jar := { sorted.jar with graph := sorted.jar.graph.insert (.ofNode node) } } := by
  have hclass : ClassEntry.ofBytes data = .ok (.ofNode node) := by
    rw [ClassEntry.ofBytes, h]
    rfl
  rw [sortEntry, Archive.sameFolded_classPath, if_neg Bool.false_ne_true, Archive.isMetadata_classPath,
    if_neg Bool.false_ne_true, if_pos (Archive.isClassPath_classPath name), hclass]
  exact gives_pure _

theorem gives_sortEntry_resource (sorted : Sorted) {path : String} (h : IsResourcePath path)
    (data : List UInt8) :
    (sortEntry sorted { path, data }).Gives
      { sorted with jar := sorted.jar.putResource path data } := by
  rw [sortEntry, h.manifest, if_neg Bool.false_ne_true, h.metadata, if_neg Bool.false_ne_true, h.class_,
    if_neg Bool.false_ne_true]
  exact gives_pure _

/-- Whether a file is that of a class, under any name. -/
def IsClassFile (file : ArchiveEntry) (node : ClassNode) : Prop :=
  (∃ name, file.path = Archive.classPath name) ∧ ClassNode.ofBytes file.data = .ok node

/-- Classes are inserted in the order of their files. -/
theorem gives_foldlM_classes {files : List ArchiveEntry} {nodes : List ClassNode}
    (h : List.Forall₂ IsClassFile files nodes) (sorted : Sorted) :
    (files.foldlM sortEntry sorted).Gives
      { sorted with
        jar :=
          { sorted.jar with
            graph := (nodes.map .ofNode).foldl ClassGraph.insert sorted.jar.graph } } := by
  induction h generalizing sorted with
  | nil => exact gives_pure _
  | @cons file node files nodes hfile _ ih =>
    obtain ⟨path, data⟩ := file
    obtain ⟨⟨name, rfl⟩, hnode⟩ := hfile
    exact (gives_sortEntry_class sorted hnode).bind (ih _)

/-- Resources are put in the order of their files. -/
theorem gives_foldlM_resources {files : List (String × List UInt8)}
    (h : ∀ file ∈ files, IsResourcePath file.1) (sorted : Sorted) :
    ((files.map fun (path, data) => ({ path, data } : ArchiveEntry)).foldlM sortEntry sorted).Gives
      { sorted with
        jar :=
          { sorted.jar with
            resources :=
              files.foldl (fun table file => table.insert file.1 file.2) sorted.jar.resources } } := by
  induction files generalizing sorted with
  | nil => exact gives_pure _
  | cons file files ih =>
    rw [List.forall_mem_cons] at h
    exact (gives_sortEntry_resource sorted h.1 file.2).bind (ih h.2 _)

/-- The files of a jar are sorted into its manifest, the classes in their files and its resources. -/
theorem gives_foldlM_written {jar : Jar}
    (hresources : ∀ file ∈ jar.resources.entries, IsResourcePath file.1) {again : Option Manifest}
    (hmanifest : Option.Rel (fun manifest read => Manifest.ofBytes manifest.toBytes = .ok read)
      jar.manifest again)
    {files : List ArchiveEntry} {nodes : List ClassNode} (hfiles : List.Forall₂ IsClassFile files nodes)
    (comment : Option String) (isCancelled : Bool) :
    ((jar.manifestEntries ++ files ++ jar.resourceEntries).foldlM sortEntry
        { jar := { comment, isCancelled } }).Gives
      { jar :=
          { graph := .ofList (nodes.map .ofNode)
            resources := jar.resources
            manifest := again
            comment, isCancelled } } := by
  have hfirst : (jar.manifestEntries.foldlM sortEntry { jar := { comment, isCancelled } }).Gives
      { jar := { manifest := again, comment, isCancelled } } := by
    rw [manifestEntries]
    generalize jar.manifest = written at hmanifest ⊢
    cases hmanifest with
    | none =>
      rw [Option.toList_none, List.map_nil, List.foldlM_nil]
      exact gives_pure _
    | some h =>
      rw [Option.toList_some, List.map_singleton, List.foldlM_cons]
      exact (gives_sortEntry_manifest _ h).bind (gives_pure _)
  rw [List.foldlM_append, List.foldlM_append]
  have hclasses := gives_foldlM_classes hfiles { jar := { manifest := again, comment, isCancelled } }
  rw [ClassGraph.foldl_insert] at hclasses
  refine (hfirst.bind hclasses).bind ?_
  have hrest := gives_foldlM_resources hresources
    { jar := { graph := .ofList (nodes.map .ofNode), manifest := again, comment, isCancelled } }
  have htable : jar.resources.entries.foldl (fun table file => table.insert file.1 file.2) .empty =
      jar.resources := Table.ofList_entries jar.resources
  rw [htable] at hrest
  exact hrest

end Jar
end JvmArchive
