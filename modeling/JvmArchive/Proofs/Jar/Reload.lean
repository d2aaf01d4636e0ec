import JvmArchive.Proofs.ClassFile.Pool.Writers
import JvmArchive.Proofs.Graph.NameLinks
import JvmArchive.Proofs.Jar.Sorting
import Mathlib.Data.List.Forall2

/-!
# Jars that are saved and loaded again

Loading sorts the files of an archive, marks a class, repairs outer classes and links. All of that gives
the same again if the jar is written and the archive that this makes is loaded.
-/
namespace JvmArchive

namespace ClassGraph

variable {graph : ClassGraph}

/-! ## The class where the program starts -/

/-- A graph in which the class with a name is marked, if there is one. -/
def withMain (graph : ClassGraph) (main : Option String) : ClassGraph :=
  match main with
  | some name => graph.update name (·.setMain true)
  | none => graph

theorem names_withMain (graph : ClassGraph) (main : Option String) :
    (graph.withMain main).names = graph.names := by
  cases main with
  | none => rfl
  | some name => exact names_update graph name _

/-- Where no class has been marked before, the only one that is marked is the one with the name. -/
theorem toList_withMain (hkeeps : graph.KeepsNames)
    (hunmarked : ∀ entry ∈ graph.toList, entry.isMain = false) (main : Option String) :
    (graph.withMain main).toList =
      graph.toList.map fun entry => entry.setMain (decide (main = some entry.name)) := by
  have hset : ∀ entry ∈ graph.toList, entry.setMain false = entry := fun entry hentry => by
    rw [ClassEntry.setMain, ← hunmarked entry hentry]
  cases main with
  | none => exact ((List.map_congr_left hset).trans (List.map_id' _)).symm
  | some name =>
    rw [withMain, toList_update hkeeps]
    refine List.map_congr_left fun entry hentry => ?_
    by_cases hname : entry.name = name
    · simp [hname]
    · rw [if_neg hname, decide_eq_false, hset entry hentry]
      exact fun h => hname (Option.some.inj h).symm

theorem KeepsNames.withMain (hkeeps : graph.KeepsNames)
    (hunmarked : ∀ entry ∈ graph.toList, entry.isMain = false) (main : Option String) :
    (graph.withMain main).KeepsNames := by
  rw [KeepsNames, names_withMain, toList_withMain hkeeps hunmarked, List.map_map]
  exact hkeeps

theorem KeepsNames.repairOuter (hkeeps : graph.KeepsNames) : graph.repairOuter.1.KeepsNames := by
  rw [KeepsNames, names_repairOuter, toList_repairOuter, List.map_map, hkeeps]
  exact List.map_congr_left fun entry _ => (name_repaired graph entry).symm

end ClassGraph

namespace Jar

open ClassGraph Job

variable {jar : Jar} {options : LoadOptions}

/-! ## Loading -/

/-- What loading makes of a jar whose files have been sorted. -/
def linked (jar : Jar) (options : LoadOptions) : Jar :=
  { jar with graph := (jar.graph.withMain (jar.wantedMain? options)).repairOuter.1.resolve }

/-- What loading does after the files have been sorted. -/
def link (options : LoadOptions) (sorted : Sorted) : Job Jar := do
  let jar ← match sorted.jar.wantedMain? options with
    | some name => markMain sorted.jar name
    | none => pure sorted.jar
  Job.log .info
    ("loaded " ++ toString jar.graph.size ++ " classes and " ++
      toString jar.resources.length ++ " resources (" ++ toString sorted.skipped ++
      " classes skipped)")
  { jar with graph := jar.graph.repairOuter.1 }.resolve

theorem load_eq (archive : Archive) (options : LoadOptions) (isCancelled : Bool) :
    load archive options isCancelled = (do
      Job.checkpoint isCancelled .load
      let sorted ← archive.entries.foldlM sortEntry
        { jar := { comment := archive.comment, isCancelled } }
      link options sorted) := rfl

theorem gives_markMain (jar : Jar) (name : String) :
    (markMain jar name).Gives { jar with graph := jar.graph.withMain (some name) } := by
  rw [markMain]
  split
  · exact gives_pure _
  · rename_i hcontains
    rw [withMain, update_of_not_contains (Bool.eq_false_iff.2 hcontains)]
    exact (gives_log _ _).bind (gives_pure _)

theorem gives_resolve (h : jar.isCancelled = false) :
    jar.resolve.Gives { jar with graph := jar.graph.resolve } := by
  rw [resolve, h]
  exact (gives_checkpoint _).bind (gives_pure _)

theorem gives_link {sorted : Sorted} (h : sorted.jar.isCancelled = false) :
    (link options sorted).Gives (sorted.jar.linked options) := by
  have hresolve : ∀ graph : ClassGraph, ({ sorted.jar with graph } : Jar).resolve.Gives
      { sorted.jar with graph := graph.resolve } := fun graph =>
    gives_resolve h
  rw [link, linked]
  cases sorted.jar.wantedMain? options with
  | some name => exact (gives_markMain sorted.jar name).bind ((gives_log _ _).bind (hresolve _))
  | none => exact (gives_pure sorted.jar).bind ((gives_log _ _).bind (hresolve _))

/-- A jar that has been loaded is what linking makes of sorted files. -/
theorem exists_of_load {archive : Archive} {isCancelled : Bool} {log : List LogRecord}
    (h : (load archive options isCancelled).start = (.ok jar, log)) :
    isCancelled = false ∧ ∃ sorted : Jar, sorted.IsSorted ∧ sorted.isCancelled = false ∧
      jar = sorted.linked options := by
  simp only [start_eq_iff, load_eq, succeeds_bind_iff, succeeds_checkpoint_iff] at h
  obtain ⟨_, _, ⟨rfl, -⟩, sorted, between, hsort, hlink⟩ := h
  have hempty : IsSorted { comment := archive.comment } := isSorted_empty _ _
  have hsorted : sorted.jar.IsSorted ∧ sorted.jar.isCancelled = false :=
    Succeeds.foldlM isSorted_sortEntry ⟨hempty, rfl⟩ hsort
  exact ⟨rfl, sorted.jar, hsorted.1, hsorted.2, (gives_link hsorted.2).eq hlink⟩

theorem gives_load {entries : List ArchiveEntry} {comment : Option String} {sorted : Sorted}
    (h : (entries.foldlM sortEntry { jar := { comment } }).Gives sorted)
    (hcancelled : sorted.jar.isCancelled = false) :
    (load { entries, comment } options false).Gives (sorted.jar.linked options) := by
  rw [load_eq]
  exact (gives_checkpoint _).bind (h.bind (gives_link hcancelled))

/-! ## Saving -/

/-- Whether a file is what is written for a class that keeps its frames. -/
def IsFileOf (jar : Jar) (file : ArchiveEntry) (entry : ClassEntry) : Prop :=
  file.path = Archive.classPath entry.name ∧ jar.writeClassWith entry .preserve = .ok file.data

theorem gives_foldlM_saveClass {files : List ArchiveEntry} {entries : List ClassEntry}
    (h : List.Forall₂ jar.IsFileOf files entries) (report : SaveReport) (written : List ArchiveEntry) :
    (entries.foldlM (jar.saveClass {}) (report, written)).Gives
      ({ report with classesWritten := report.classesWritten + files.length }, written ++ files) := by
  induction h generalizing report written with
  | nil =>
    rw [List.append_nil]
    exact gives_pure _
  | @cons file entry files entries hfile _ ih =>
    obtain ⟨path, data⟩ := file
    obtain ⟨rfl, hdata⟩ := hfile
    have hclass : (jar.saveClass {} (report, written) entry).Gives
        ({ report with classesWritten := report.classesWritten + 1 },
          written ++ [{ path := Archive.classPath entry.name, data }]) := by
      rw [saveClass, writeClass, hdata]
      exact gives_pure _
    have hrest := ih { report with classesWritten := report.classesWritten + 1 }
      (written ++ [{ path := Archive.classPath entry.name, data }])
    rw [List.append_assoc, List.singleton_append, Nat.add_assoc, Nat.add_comm 1] at hrest
    exact hclass.bind hrest

/-- What is written: the manifest, the classes and the resources. -/
theorem gives_save (hcancelled : jar.isCancelled = false) {files : List ArchiveEntry}
    (h : List.Forall₂ jar.IsFileOf files jar.graph.toList) :
    (jar.save {}).Gives
      ({ classesWritten := files.length, resourcesWritten := jar.resources.length },
        { entries := jar.manifestEntries ++ files ++ jar.resourceEntries, comment := jar.comment }) := by
  have hclasses := gives_foldlM_saveClass h {} jar.manifestEntries
  rw [Nat.zero_add] at hclasses
  rw [save, hcancelled]
  exact (gives_checkpoint _).bind (hclasses.bind ((gives_log _ _).bind (gives_pure _)))

/-! ## Loading what has been saved -/

theorem keepsNames_linked {sorted : Jar} (h : sorted.IsSorted) (options : LoadOptions) :
    (sorted.linked options).graph.KeepsNames :=
  (h.keeps.withMain h.unmarked _).repairOuter.resolve

/-- The classes of a jar that are linked. -/
def unlinked (sorted : Jar) (options : LoadOptions) : List ClassEntry :=
  (sorted.graph.withMain (sorted.wantedMain? options)).repairOuter.1.toList

theorem toList_linked (sorted : Jar) (options : LoadOptions) :
    (sorted.linked options).graph.toList = linkAll (sorted.unlinked options) := toList_resolve _

theorem names_linked (sorted : Jar) (options : LoadOptions) :
    (sorted.linked options).graph.names = sorted.graph.names := by
  rw [linked, names_resolve, names_repairOuter, names_withMain]

/-- The class that is marked is the one that is wanted. -/
theorem isMain_unlinked {sorted : Jar} (h : sorted.IsSorted) (options : LoadOptions) :
    ∀ entry ∈ sorted.unlinked options,
      entry.isMain = decide (sorted.wantedMain? options = some entry.name) := by
  intro entry hentry
  rw [unlinked, toList_repairOuter, toList_withMain h.keeps h.unmarked, List.map_map] at hentry
  obtain ⟨before, -, rfl⟩ := List.mem_map.1 hentry
  rw [Function.comp_apply, isMain_repaired, name_repaired]
  rfl

/-- Which classes are marked can be told from what they declare. -/
theorem map_isMain_unlinked {sorted : Jar} (h : sorted.IsSorted) (options : LoadOptions) :
    (sorted.unlinked options).map (fun entry => (entry.declaration, entry.isMain)) =
      ((sorted.unlinked options).map ClassEntry.declaration).map fun declaration =>
        (declaration, decide (sorted.wantedMain? options = some declaration.name)) := by
  rw [List.map_map]
  refine List.map_congr_left fun entry hentry => ?_
  rw [isMain_unlinked h options entry hentry]
  rfl

/-- What a jar and the jar that is loaded from its files have in common. -/
structure IsReload (jar again : Jar) : Prop where
  names : again.graph.names = jar.graph.names
  links : again.graph.toList.map ClassEntry.links = jar.graph.toList.map ClassEntry.links
  memberLinks :
    again.graph.toList.map ClassEntry.memberLinks = jar.graph.toList.map ClassEntry.memberLinks
  resources : again.resources = jar.resources
  /-- The version comes first, and it is there. -/
  manifest : again.manifest.map Manifest.toList = jar.manifest.map Manifest.written
  comment : again.comment = jar.comment
  mainClass : again.mainClass? = jar.mainClass?

theorem wantedMain?_of_written {sorted read : Jar}
    (h : read.manifest.map Manifest.toList = sorted.manifest.map Manifest.written)
    (options : LoadOptions) : read.wantedMain? options = sorted.wantedMain? options := by
  have hmain : read.manifest.bind Manifest.mainClass? = sorted.manifest.bind Manifest.mainClass? := by
    cases hsorted : sorted.manifest with
    | none =>
      rw [hsorted, Option.map_none, Option.map_eq_none_iff] at h
      rw [h]
    | some manifest =>
      rw [hsorted, Option.map_some, Option.map_eq_some_iff] at h
      obtain ⟨again, hread, hwritten⟩ := h
      rw [hread, Option.bind_some, Option.bind_some, Manifest.mainClass?_of_written hwritten]
  rw [wantedMain?, wantedMain?, hmain]

theorem mainClass?_congr {again : Jar}
    (h : again.graph.toList.map (fun entry => (entry.name, entry.isMain)) =
      jar.graph.toList.map fun entry => (entry.name, entry.isMain)) :
    again.mainClass? = jar.mainClass? := by
  have hmain : ∀ jar : Jar, jar.mainClass? =
      ((jar.graph.toList.map fun entry => (entry.name, entry.isMain)).find? (·.2)).map (·.1) := by
    intro jar
    rw [mainClass?, List.find?_map, Option.map_map]
    rfl
  rw [hmain, hmain, h]

section Reload

variable {sorted read : Jar} (hsorted : sorted.IsSorted) (hread : read.IsSorted)
  (hdeclarations : read.graph.toList.map ClassEntry.declaration =
    (sorted.linked options).graph.toList.map ClassEntry.declaration)

include hsorted hread hdeclarations

theorem names_eq_of_declarations : read.graph.names = sorted.graph.names := by
  rw [← names_linked sorted options, hread.keeps, keepsNames_linked hsorted options]
  exact map_eq_of_map_eq (fun a b hsame => congrArg Declaration.name hsame) hdeclarations

/-- Classes that declare what linked classes do need no repair. -/
theorem repairOuter_withMain (main : Option String) :
    (read.graph.withMain main).repairOuter.1 = read.graph.withMain main := by
  have hnames := names_eq_of_declarations hsorted hread hdeclarations
  rw [toList_linked, declaration_linkAll] at hdeclarations
  refine repairOuter_of_missingOuter? fun entry hentry => ?_
  rw [toList_withMain hread.keeps hread.unmarked] at hentry
  obtain ⟨before, hbefore, rfl⟩ := List.mem_map.1 hentry
  have hmem : before.declaration ∈ (sorted.unlinked options).map ClassEntry.declaration :=
    hdeclarations ▸ List.mem_map_of_mem hbefore
  obtain ⟨other, hother, hsame⟩ := List.mem_map.1 hmem
  -- the class that declares the same has been repaired, so it lacks nothing
  rw [← missingOuter?_repairOuter _ other hother]
  refine missingOuter?_congr ?_ hsame.symm
  rw [names_repairOuter, names_withMain, names_withMain, hnames]

/-- What is linked is declared and marked as it was the first time. -/
theorem declarations_unlinked (hmain : read.wantedMain? options = sorted.wantedMain? options) :
    (read.unlinked options).map (fun entry => (entry.declaration, entry.isMain)) =
      (sorted.unlinked options).map fun entry => (entry.declaration, entry.isMain) := by
  have hwhole := repairOuter_withMain hsorted hread hdeclarations (read.wantedMain? options)
  rw [toList_linked, declaration_linkAll] at hdeclarations
  have hdeclared : (read.unlinked options).map ClassEntry.declaration =
      (sorted.unlinked options).map ClassEntry.declaration := by
    rw [← hdeclarations, unlinked, hwhole, toList_withMain hread.keeps hread.unmarked, List.map_map]
    rfl
  rw [map_isMain_unlinked hread, map_isMain_unlinked hsorted, hdeclared, hmain]

/-- A jar of classes that declare what the classes of a loaded jar do is linked in the same way. -/
theorem isReload_linked (hresources : read.resources = sorted.resources)
    (hmanifest : read.manifest.map Manifest.toList = sorted.manifest.map Manifest.written)
    (hcomment : read.comment = sorted.comment) :
    IsReload (sorted.linked options) (read.linked options) := by
  have hmain := wantedMain?_of_written hmanifest options
  have hsame := declarations_unlinked hsorted hread hdeclarations hmain
  refine ⟨?_, ?_, ?_, hresources, hmanifest, hcomment, mainClass?_congr ?_⟩
  · rw [names_linked, names_linked, names_eq_of_declarations hsorted hread hdeclarations]
  · rw [toList_linked, toList_linked, links_linkAll_of_declarations hsame]
  · rw [toList_linked, toList_linked, memberLinks_linkAll_of_declarations]
    exact map_eq_of_map_eq (fun a b h => congrArg Prod.fst h) hsame
  · have hlinked : ∀ entries : List ClassEntry,
        (linkAll entries).map (fun entry => (entry.name, entry.isMain)) =
          entries.map fun entry => (entry.name, entry.isMain) := fun entries =>
      map_linkAll entries fun _ _ h => Prod.ext (congrArg ClassNode.name h.node) h.isMain
    have hpairs : ∀ a b : ClassEntry, (a.declaration, a.isMain) = (b.declaration, b.isMain) →
        (a.name, a.isMain) = (b.name, b.isMain) := by
      intro a b h
      obtain ⟨hdeclaration, hmain⟩ := Prod.mk.inj h
      exact Prod.ext (congrArg Declaration.name hdeclaration) hmain
    rw [toList_linked, toList_linked, hlinked, hlinked]
    exact map_eq_of_map_eq hpairs hsame

end Reload

/-- Files for all classes, and trees that are read from them. -/
theorem exists_files {entries : List ClassEntry}
    (h : ∀ entry ∈ entries, ∃ bytes node, jar.writeClassWith entry .preserve = .ok bytes ∧
      ClassNode.ofBytes bytes = .ok node ∧ node.same entry.toNode = true) :
    ∃ files nodes, List.Forall₂ jar.IsFileOf files entries ∧ List.Forall₂ IsClassFile files nodes ∧
      List.Forall₂ (fun node entry => node.same entry.toNode = true) nodes entries := by
  induction entries with
  | nil => exact ⟨[], [], .nil, .nil, .nil⟩
  | cons entry entries ih =>
    rw [List.forall_mem_cons] at h
    obtain ⟨data, node, hwritten, hread, hsame⟩ := h.1
    obtain ⟨files, nodes, hfiles, hnodes, hsames⟩ := ih h.2
    exact ⟨{ path := Archive.classPath entry.name, data } :: files, node :: nodes,
      .cons ⟨rfl, hwritten⟩ hfiles, .cons ⟨⟨entry.name, rfl⟩, hread⟩ hnodes, .cons hsame hsames⟩

theorem isSorted_read {sorted : Jar} (hsorted : sorted.IsSorted) {nodes : List ClassNode}
    (hnodup : ((nodes.map ClassEntry.ofNode).map (·.name)).Nodup) {again : Option Manifest}
    (hagain : ∀ manifest ∈ again, manifest.Readable) :
    IsSorted
      { graph := .ofList (nodes.map .ofNode)
        resources := sorted.resources
        manifest := again
        comment := sorted.comment
        isCancelled := false } := by
  refine ⟨keepsNames_ofList hnodup, ?_, hsorted.resources, hagain⟩
  intro entry hentry
  rw [toList_ofList hnodup] at hentry
  obtain ⟨node, -, rfl⟩ := List.mem_map.1 hentry
  rfl

/-- A manifest that can be read is read from its file with the version in front. -/
theorem exists_manifest_read {written : Option Manifest}
    (hreadable : ∀ manifest ∈ written, manifest.Readable)
    (hnames : ∀ manifest ∈ written, ∀ entry ∈ manifest.toList,
      entry.1 ≠ "" ∧ (Text.utf8 entry.1.toList).length ≤ 70) :
    ∃ again : Option Manifest,
      Option.Rel (fun manifest read => Manifest.ofBytes manifest.toBytes = .ok read) written again ∧
        again.map Manifest.toList = written.map Manifest.written ∧
        ∀ manifest ∈ again, manifest.Readable := by
  cases written with
  | none => exact ⟨none, .none, rfl, fun manifest h => by cases h⟩
  | some manifest =>
    obtain ⟨again, hread, hwritten⟩ :=
      Manifest.ofBytes_toBytes (hreadable manifest rfl) fun entry hentry _ =>
        (hnames manifest rfl entry hentry).2
    refine ⟨some again, .some hread, congrArg some hwritten, ?_⟩
    rintro other ⟨⟩
    exact Manifest.readable_of_ofBytes hread

/-- A jar that has been loaded is saved as its manifest, its classes in order and its resources, and the
archive that this makes is loaded as the same jar. Every class must be written and be read as the tree
that it is, and the names of the attributes must fit in a line. -/
theorem exists_save_load {archive : Archive} {isCancelled : Bool} {log : List LogRecord}
    (hload : (load archive options isCancelled).start = (.ok jar, log))
    (hclasses : ∀ entry ∈ jar.graph.toList, ∃ bytes node,
      jar.writeClassWith entry .preserve = .ok bytes ∧ ClassNode.ofBytes bytes = .ok node ∧
        node.same entry.toNode = true)
    (hattributes : ∀ manifest ∈ jar.manifest, ∀ entry ∈ manifest.toList,
      entry.1 ≠ "" ∧ (Text.utf8 entry.1.toList).length ≤ 70) :
    ∃ report saved files saveLog again loadLog,
      (jar.save {}).start = (.ok (report, saved), saveLog) ∧
        saved.entries = jar.manifestEntries ++ files ++ jar.resourceEntries ∧
        List.Forall₂ jar.IsFileOf files jar.graph.toList ∧
        (load saved options isCancelled).start = (.ok again, loadLog) ∧ jar.IsReload again := by
  obtain ⟨rfl, sorted, hsorted, hcancelled, rfl⟩ := exists_of_load hload
  obtain ⟨files, nodes, hfiles, hnodes, hsames⟩ := exists_files hclasses
  obtain ⟨again, hrel, hwritten, hagain⟩ := exists_manifest_read hsorted.manifest hattributes
  -- what is read declares what was written, and the rest follows from that
  have hdeclarations : (nodes.map ClassEntry.ofNode).map ClassEntry.declaration =
      (sorted.linked options).graph.toList.map ClassEntry.declaration := by
    rw [← List.forall₂_eq_eq_eq, List.forall₂_map_left_iff, List.forall₂_map_left_iff,
      List.forall₂_map_right_iff]
    refine hsames.imp fun node entry hsame => ?_
    rw [declaration_ofNode, declaration_of_same hsame, declaration_toNode]
  have hnodup : ((nodes.map ClassEntry.ofNode).map (·.name)).Nodup := by
    have hnames : (nodes.map ClassEntry.ofNode).map (·.name) =
        (sorted.linked options).graph.toList.map (·.name) :=
      map_eq_of_map_eq (fun a b hsame => congrArg Declaration.name hsame) hdeclarations
    rw [hnames]
    exact (keepsNames_linked hsorted options).nodup
  have hread := isSorted_read hsorted hnodup hagain
  rw [← toList_ofList hnodup] at hdeclarations
  have hreload := isReload_linked hsorted hread hdeclarations rfl hwritten rfl
  have hunlinked : (sorted.linked options).isCancelled = false := hcancelled
  obtain ⟨saveLog, hsave⟩ := (gives_save hunlinked hfiles).start
  have hsort := gives_foldlM_written hsorted.resources hrel hnodes sorted.comment false
  obtain ⟨loadLog, hagain⟩ := (gives_load hsort rfl).start
  exact ⟨_, _, files, saveLog, _, loadLog, hsave, rfl, hfiles, hagain, hreload⟩

/-! ## An inner class that is repaired -/

open PoolWriter

/-- A class without members, with the pool of its file. -/
def bareNode (name superName : String) : ClassNode where
  majorVersion := 52
  name := name
  superName := some superName
  sourcePool := some { entries := #[.unusable, .utf8 name, .class 1, .utf8 superName, .class 3] }

/-- The file of a class without members. The text of a name is behind its length. -/
def bareFile (name superName : List UInt8) : List UInt8 :=
  [0xca, 0xfe, 0xba, 0xbe, 0, 0, 0, 52, 0, 5, 1, 0] ++ name ++ [7, 0, 1, 1, 0] ++ superName ++
    [7, 0, 3, 0, 0, 0, 2, 0, 4, 0, 0, 0, 0, 0, 0, 0, 0]

/-- An archive in which an inner class does not say what its outer class is. -/
def brokenArchive : Archive where
  entries := [
    { path := Archive.classPath "A$B", data := bareFile [3, 65, 36, 66] [1, 65] },
    { path := "notes", data := [1, 2] },
    { path := Archive.manifestPath, data := Text.utf8 "X: 1\n".toList },
    { path := Archive.classPath "old/A", data := bareFile [1, 65] [1, 82] }]
  comment := some "c"

/-- The jar that the archive is sorted into. -/
def brokenJar (manifest : Manifest) : Jar where
  graph := .ofList [.ofNode (bareNode "A$B" "A"), .ofNode (bareNode "A" "R")]
  resources := .ofList [("notes", [1, 2])]
  manifest
  comment := some "c"

theorem ofBytes_outerFile :
    ClassNode.ofBytes (bareFile [1, 65] [1, 82]) = .ok (bareNode "A" "R") := by
  with_unfolding_all rfl

theorem gives_foldlM_brokenArchive {manifest : Manifest}
    (h : Manifest.ofBytes (Text.utf8 "X: 1\n".toList) = .ok manifest) :
    (brokenArchive.entries.foldlM sortEntry { jar := { comment := brokenArchive.comment } }).Gives
      { jar := brokenJar manifest } := by
  have hinner : ClassNode.ofBytes (bareFile [3, 65, 36, 66] [1, 65]) =
      .ok (bareNode "A$B" "A") := by
    with_unfolding_all rfl
  have hnotes : IsResourcePath "notes" := by constructor <;> decide +kernel
  simp only [brokenArchive, List.foldlM_cons, List.foldlM_nil]
  exact (gives_sortEntry_class _ hinner).bind ((gives_sortEntry_resource _ hnotes _).bind
    ((gives_sortEntry_manifest _ h).bind
      ((gives_sortEntry_class _ ofBytes_outerFile).bind (gives_pure _))))

/-- The trees of the classes after the inner class has been repaired. -/
theorem toNode_linked_brokenJar (manifest : Manifest) :
    ((brokenJar manifest).linked { mainClass := some "A" }).graph.toList.map ClassEntry.toNode =
      [{ bareNode "A$B" "A" with outerClass := some "A" }, bareNode "A" "R"] := by
  have htrees : ∀ entries : List ClassEntry,
      (linkAll entries).map ClassEntry.toNode = entries.map ClassEntry.toNode := fun entries =>
    map_eq_of_map_eq (fun a b hsame => (Prod.mk.inj hsame).1) (declarations_linkAll entries)
  have hrepaired : ∀ (graph : ClassGraph) (entry : ClassEntry), (graph.repaired entry).toNode =
      (graph.missingOuter? entry).elim entry.toNode fun outer =>
        { entry.toNode with outerClass := some outer } := by
    intro graph entry
    rw [repaired]
    cases graph.missingOuter? entry <;> rfl
  have hmissing : ∀ (graph : ClassGraph) (entry : ClassEntry), graph.missingOuter? entry =
      if decide ('$' ∈ entry.name.toList) && entry.node.outerClass.isNone &&
          !entry.innerClasses.any fun inner =>
            inner.node.name == entry.name && inner.node.outerName.isSome then
        ((Text.cut? '$' entry.name.toList).map fun cut => String.ofList cut.1).filter graph.contains
      else none := by
    intro graph entry
    rw [missingOuter?, lacksOuter, String.contains_char_eq]
  rw [toList_linked, htrees, unlinked, toList_repairOuter, List.map_map]
  simp only [Function.comp_def, hrepaired, hmissing]
  with_unfolding_all rfl

/-- The file of the inner class that has been repaired. -/
def innerFile : List UInt8 :=
  [0xca, 0xfe, 0xba, 0xbe, 0, 0, 0, 52, 0, 6, 1, 0, 3, 65, 36, 66, 7, 0, 1, 1, 0, 1, 65, 7, 0, 3, 1, 0,
    15, 69, 110, 99, 108, 111, 115, 105, 110, 103, 77, 101, 116, 104, 111, 100, 0, 0, 0, 2, 0, 4, 0, 0,
    0, 0, 0, 0, 0, 1, 0, 5, 0, 0, 0, 4, 0, 4, 0, 0]

/-- Both classes are written. -/
theorem toBytes_brokenJar (settings : Encode.Settings) :
    (bareNode "A" "R").toBytes settings = .ok (bareFile [1, 65] [1, 82]) ∧
      ({ bareNode "A$B" "A" with outerClass := some "A" } : ClassNode).toBytes settings =
        .ok innerFile := by
  constructor
  all_goals
    simp [bareNode, ClassNode.toBytes, Encode.classBody, Encode.initialPool, PoolBuilder.ofPool,
      PoolBuilder.firstIndices, Encode.classIndex, PoolBuilder.class_, PoolBuilder.utf8,
      PoolBuilder.add, Encode.optional, Encode.counted, Encode.concatM, bind_run, map_run, get_run,
      Except.bind, Except.map, StateT.run, Std.HashMap.getElem?_insertIfNew,
      Std.HashMap.getElem?_erase, Std.HashMap.mem_insertIfNew, Encode.optionalText,
      Encode.annotationAttributes, Encode.annotationsAttribute, Encode.rawAttributes,
      Encode.someClasses, Encode.classAttributes, Encode.innerClasses, Encode.enclosingMethod,
      Encode.enclosingMethodIndex, Encode.nestHost, Encode.bootstrapMethods, Encode.Attribute.named,
      PoolBuilder.maxSlots, PoolEntry.isWide, ConstantPool.pushEntry, -getElem?_pos]
    decide +kernel

theorem ofBytes_innerFile :
    ClassNode.ofBytes innerFile = .ok
      { bareNode "A$B" "A" with
        outerClass := some "A"
        sourcePool := some
          { entries :=
              #[.unusable, .utf8 "A$B", .class 1, .utf8 "A", .class 3, .utf8 "EnclosingMethod"] } } := by
  with_unfolding_all rfl

/-- The archive is loaded, and the jar, whose inner class has been repaired, is saved and loaded
again. -/
theorem exists_save_load_broken :
    ∃ jar log report saved files saveLog again loadLog,
      (load brokenArchive { mainClass := some "A" } false).start = (.ok jar, log) ∧
        (jar.save {}).start = (.ok (report, saved), saveLog) ∧
        saved.entries = jar.manifestEntries ++ files ++ jar.resourceEntries ∧
        List.Forall₂ jar.IsFileOf files jar.graph.toList ∧
        (load saved { mainClass := some "A" } false).start = (.ok again, loadLog) ∧
        jar.IsReload again := by
  obtain ⟨manifest, hmanifest, hattributes⟩ : ∃ manifest,
      Manifest.ofBytes (Text.utf8 "X: 1\n".toList) = .ok manifest ∧ manifest.toList = [("X", "1")] := by
    have hread : (Manifest.ofBytes (Text.utf8 "X: 1\n".toList)).map Manifest.toList =
        .ok [("X", "1")] := by decide +kernel
    cases hmanifest : Manifest.ofBytes (Text.utf8 "X: 1\n".toList) with
    | error error =>
      rw [hmanifest] at hread
      cases hread
    | ok manifest =>
      rw [hmanifest] at hread
      exact ⟨manifest, rfl, Except.ok.inj hread⟩
  obtain ⟨log, hload⟩ : ∃ log, (load brokenArchive { mainClass := some "A" } false).start =
      (.ok ((brokenJar manifest).linked { mainClass := some "A" }), log) :=
    (gives_load (gives_foldlM_brokenArchive hmanifest) rfl).start
  have hclasses : ∀ entry ∈ ((brokenJar manifest).linked { mainClass := some "A" }).graph.toList,
      ∃ bytes node,
        ((brokenJar manifest).linked { mainClass := some "A" }).writeClassWith entry .preserve =
          .ok bytes ∧
        ClassNode.ofBytes bytes = .ok node ∧ node.same entry.toNode = true := by
    intro entry hentry
    have htree := List.mem_map_of_mem (f := ClassEntry.toNode) hentry
    rw [toNode_linked_brokenJar, List.mem_pair] at htree
    rw [writeClassWith, ClassEntry.toBytes]
    rcases htree with htree | htree
    · rw [htree, (toBytes_brokenJar _).2]
      exact ⟨_, _, rfl, ofBytes_innerFile, by decide +kernel⟩
    · rw [htree, (toBytes_brokenJar _).1]
      exact ⟨_, _, rfl, ofBytes_outerFile, by decide +kernel⟩
  obtain ⟨report, saved, files, saveLog, again, loadLog, h⟩ := exists_save_load hload hclasses (by
    rintro other ⟨⟩ pair hpair
    rw [hattributes, List.mem_singleton] at hpair
    rw [hpair]
    decide +kernel)
  exact ⟨_, log, report, saved, files, saveLog, again, loadLog, hload, h⟩

end Jar
end JvmArchive
