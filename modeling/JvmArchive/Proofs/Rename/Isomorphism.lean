import JvmArchive.Proofs.Descriptor.Names
import JvmArchive.Proofs.Graph.NameLinks
import JvmArchive.Proofs.Rename.Links
import Mathlib.Data.List.Find

/-!
# Renaming keeps links

Every link is a lookup of a name. A renaming that takes no two of the names that are looked up to one
commutes with each of these lookups, so linking the renamed classes gives the links from before, also
when names are swapped.
-/
namespace JvmArchive.Renamer

open ClassGraph

/-- The annotations of a class, of its fields and of its methods. -/
def annotationsOf (entry : ClassEntry) : List AnnotationEntry :=
  entry.annotations ++ entry.fields.flatMap (·.annotations) ++
    entry.methods.flatMap (·.annotations)

/-- The names that linking a class looks up, and its own name, under which others look it up. -/
def linkNames (entry : ClassEntry) : List String :=
  namesAbove entry ++ entry.node.outerClass.toList ++
    entry.innerClasses.flatMap (fun inner => inner.node.name :: inner.node.outerName.toList) ++
    (annotationsOf entry).filterMap (·.typeName?)

/-- Whether a renamer gives different names that links depend on different new names. -/
def SeparatesLinks (renamer : Renamer) (entries : List ClassEntry) : Prop :=
  ∀ name ∈ entries.flatMap linkNames, ∀ other ∈ entries.flatMap linkNames,
    renamer.mapType name = renamer.mapType other → name = other

instance (renamer : Renamer) (entries : List ClassEntry) :
    Decidable (renamer.SeparatesLinks entries) :=
  inferInstanceAs (Decidable (∀ name ∈ entries.flatMap linkNames, _))

/-- Whether a name is that of a class and can stand in a descriptor. -/
def IsClassName (name : String) : Prop := ';' ∉ name.toList ∧ name.toList.head? ≠ some '['

instance (name : String) : Decidable (IsClassName name) := inferInstanceAs (Decidable (_ ∧ _))

section
variable {entry : ClassEntry} {name : String}

theorem mem_linkNames_of_above (h : name ∈ namesAbove entry) : name ∈ linkNames entry :=
  List.mem_append_left _ (List.mem_append_left _ (List.mem_append_left _ h))

theorem name_mem_linkNames (entry : ClassEntry) : entry.name ∈ linkNames entry :=
  mem_linkNames_of_above List.mem_cons_self

theorem mem_linkNames_of_inner {inner : InnerClassEntry} (hinner : inner ∈ entry.innerClasses)
    (h : name ∈ inner.node.name :: inner.node.outerName.toList) : name ∈ linkNames entry :=
  List.mem_append_left _ (List.mem_append_right _ (List.mem_flatMap.2 ⟨inner, hinner, h⟩))

theorem mem_linkNames_of_annotation {noted : AnnotationEntry}
    (hnoted : noted ∈ annotationsOf entry) (h : noted.typeName? = some name) :
    name ∈ linkNames entry :=
  List.mem_append_right _ (List.mem_filterMap.2 ⟨noted, hnoted, h⟩)

/-- The outer class that a class declares is one of the names. -/
theorem mem_linkNames_of_outerName? (h : entry.outerName? = some name) : name ∈ linkNames entry := by
  unfold ClassEntry.outerName? at h
  split at h
  · rename_i outer houter
    rw [Option.some.injEq] at h
    refine List.mem_append_left _ (List.mem_append_left _ (List.mem_append_right _ ?_))
    simp [houter, h]
  · obtain ⟨inner, hinner, houter⟩ := Option.bind_eq_some_iff.1 h
    refine mem_linkNames_of_inner (List.mem_of_find?_eq_some hinner) (List.mem_cons_of_mem _ ?_)
    simp [houter]

end

variable {renamer : Renamer} {entries : List ClassEntry}

theorem SeparatesLinks.separates (h : renamer.SeparatesLinks entries) : renamer.Separates entries :=
  fun entry hentry other hother name hname =>
    h entry.name (List.mem_flatMap.2 ⟨entry, hentry, name_mem_linkNames entry⟩) name
      (List.mem_flatMap.2 ⟨other, hother, mem_linkNames_of_above hname⟩)

section
variable (h : renamer.SeparatesLinks entries) {entry : ClassEntry} (hentry : entry ∈ entries)
include h hentry

/-- Looking a new name up gives what looking the old one up gave. -/
theorem lookUp_mapType {name : String} (hname : name ∈ linkNames entry) :
    lookUp (entries.map renamer.mapClass) (renamer.mapType name) = lookUp entries name :=
  lookUp_map (fun other _ => name_mapClass renamer other) fun other hother =>
    h other.name (List.mem_flatMap.2 ⟨other, hother, name_mem_linkNames other⟩) name
      (List.mem_flatMap.2 ⟨entry, hentry, hname⟩)

theorem bind_lookUp_mapType (name? : Option String)
    (hname : ∀ name ∈ name?, name ∈ linkNames entry) :
    (name?.map renamer.mapType).bind (lookUp (entries.map renamer.mapClass)) =
      name?.bind (lookUp entries) := by
  cases name? with
  | none => rfl
  | some name => exact lookUp_mapType h hentry (hname name rfl)

/-- The outer class is renamed, whether the class names it itself or its own inner-class record does. -/
theorem outerName?_mapClass :
    (renamer.mapClass entry).outerName? = entry.outerName?.map renamer.mapType := by
  have hfind : (renamer.mapClass entry).innerClasses.find?
        (·.node.name = (renamer.mapClass entry).name) =
      (entry.innerClasses.find? (·.node.name = entry.name)).map fun inner =>
        { inner with node := renamer.mapInnerClass inner.node } := by
    show (entry.innerClasses.map _).find? _ = _
    rw [List.find?_map]
    congr 1
    refine List.find?_congr fun inner hinner => ?_
    rw [Bool.eq_iff_iff]
    simp only [Function.comp_apply, decide_eq_true_eq]
    constructor
    · exact h inner.node.name
        (List.mem_flatMap.2 ⟨entry, hentry, mem_linkNames_of_inner hinner List.mem_cons_self⟩)
        entry.name (List.mem_flatMap.2 ⟨entry, hentry, name_mem_linkNames entry⟩)
    · exact congrArg renamer.mapType
  rw [ClassEntry.outerName?, ClassEntry.outerName?, hfind]
  cases houter : entry.node.outerClass with
  | some outer => simp [mapClass, mapHeader, houter]
  | none =>
    cases hinner : entry.innerClasses.find? (·.node.name = entry.name) with
    | none => simp [mapClass, mapHeader, houter]
    | some inner => simp [mapClass, mapHeader, mapInnerClass, houter]

theorem innerReferences_mapClass :
    innerReferences (lookUp (entries.map renamer.mapClass)) (renamer.mapClass entry).innerClasses =
      innerReferences (lookUp entries) entry.innerClasses := by
  simp only [innerReferences, mapClass, List.filterMap_map, Function.comp_def, mapInnerClass]
  refine List.filterMap_congr fun inner hinner => ?_
  have hname := lookUp_mapType h hentry (mem_linkNames_of_inner hinner List.mem_cons_self)
  have houter := bind_lookUp_mapType h hentry inner.node.outerName fun name hname =>
    mem_linkNames_of_inner hinner (List.mem_cons_of_mem _ (Option.mem_toList.2 hname))
  rw [hname, houter]

section
variable (hnames : ∀ name ∈ linkNames entry, IsClassName name)
include hnames

/-- The type of an annotation is found under its new name. -/
theorem annotationReferences_mapAnnotations {annotations : List AnnotationEntry}
    (hannotations : ∀ noted ∈ annotations, noted ∈ annotationsOf entry) :
    annotationReferences (lookUp (entries.map renamer.mapClass))
        (renamer.mapAnnotations annotations) =
      annotationReferences (lookUp entries) annotations := by
  simp only [annotationReferences, mapAnnotations, List.map_map]
  refine List.map_congr_left fun noted hnoted => ?_
  have hmem : ∀ name ∈ noted.typeName?, name ∈ linkNames entry := fun name hname =>
    mem_linkNames_of_annotation (hannotations noted hnoted) hname
  have htype : AnnotationEntry.typeName?
        { noted with node := renamer.mapAnnotationNode noted.node } =
      noted.typeName?.map renamer.mapType := by
    refine (Descriptor.objectName?_map renamer.table.get? fun name hname =>
      (hnames name (hmem name hname)).1).trans (Option.map_congr fun name hname => ?_)
    rw [mapType, if_neg (hnames name (hmem name hname)).2]
    rfl
  rw [Function.comp_apply, htype]
  exact bind_lookUp_mapType h hentry _ hmem

/-- Looking up the names in a renamed class gives what looking up the old ones gave. -/
theorem references_mapClass :
    references (lookUp (entries.map renamer.mapClass)) (renamer.mapClass entry) =
      references (lookUp entries) entry := by
  have hsuper := bind_lookUp_mapType h hentry entry.node.superName fun name hname =>
    mem_linkNames_of_above (by simp_all [namesAbove])
  have hinterfaces : (entry.node.interfaces.map renamer.mapType).filterMap
      (lookUp (entries.map renamer.mapClass)) = entry.node.interfaces.filterMap (lookUp entries) := by
    rw [List.filterMap_map]
    exact List.filterMap_congr fun name hname =>
      lookUp_mapType h hentry (mem_linkNames_of_above (by simp [namesAbove, hname]))
  have houter := bind_lookUp_mapType h hentry entry.outerName? fun name hname =>
    mem_linkNames_of_outerName? hname
  have hinner : ∀ inner ∈ entry.innerClasses,
      lookUp (entries.map renamer.mapClass) (renamer.mapType inner.node.name) =
        lookUp entries inner.node.name := fun inner hinner =>
    lookUp_mapType h hentry (mem_linkNames_of_inner hinner List.mem_cons_self)
  have hfields : ∀ field ∈ entry.fields, ∀ noted ∈ field.annotations,
      noted ∈ annotationsOf entry := fun field hfield noted hnoted =>
    List.mem_append_left _ (List.mem_append_right _ (List.mem_flatMap.2 ⟨field, hfield, hnoted⟩))
  have hmethods : ∀ method ∈ entry.methods, ∀ noted ∈ method.annotations,
      noted ∈ annotationsOf entry := fun method hmethod noted hnoted =>
    List.mem_append_right _ (List.mem_flatMap.2 ⟨method, hmethod, hnoted⟩)
  rw [← outerName?_mapClass h hentry] at houter
  rw [references, references, References.mk.injEq]
  refine ⟨hsuper, hinterfaces, houter, rfl, ?_, innerReferences_mapClass h hentry, ?_, ?_, ?_⟩
  · rw [mapClass, List.map_map]
    exact List.map_congr_left hinner
  · exact annotationReferences_mapAnnotations h hentry hnames fun noted hnoted =>
      List.mem_append_left _ (List.mem_append_left _ hnoted)
  · rw [mapClass, List.map_map]
    exact List.map_congr_left fun field hfield =>
      annotationReferences_mapAnnotations h hentry hnames (hfields field hfield)
  · rw [mapClass, List.map_map]
    exact List.map_congr_left fun method hmethod =>
      annotationReferences_mapAnnotations h hentry hnames (hmethods method hmethod)

end

end

/-- The links of renamed classes are those of the classes. -/
theorem links_linkAll_mapClass (h : renamer.SeparatesLinks entries)
    (hnames : ∀ name ∈ entries.flatMap linkNames, IsClassName name) :
    (linkAll (entries.map renamer.mapClass)).map ClassEntry.links =
      (linkAll entries).map ClassEntry.links := by
  refine links_linkAll_congr ?_
  rw [List.map_map]
  exact List.map_congr_left fun entry hentry => references_mapClass h hentry fun name hname =>
    hnames name (List.mem_flatMap.2 ⟨entry, hentry, hname⟩)

/-- Renaming a linked graph by any store that separates the names which links depend on leaves the graph
linked, with every link of every class as it was. -/
theorem links_rename (declared : ClassGraph) (hkeeps : declared.KeepsNames) (store : Mapping.Store) :
    let graph := declared.resolve
    (∀ name ∈ graph.toList.flatMap linkNames, IsClassName name) →
      (ofStore graph store).SeparatesLinks graph.toList →
        (graph.rename store).resolved = true ∧
          (graph.rename store).toList.map ClassEntry.links = graph.toList.map ClassEntry.links := by
  intro graph hnames hseparates
  refine ⟨rfl, ?_⟩
  rw [toList_rename rfl hkeeps.resolve.nodup hseparates.separates,
    links_linkAll_mapClass hseparates hnames, toList_resolve, links_linkAll_linkAll]

/-- A class, and an inner class of it that inherits from it and carries it as an annotation. -/
def nestedGraph : ClassGraph :=
  .ofList
    [.ofNode { access := 1, name := "p/A", superName := some "java/lang/Object" },
    .ofNode
      { access := 1, name := "p/A$B", superName := some "p/A"
        innerClasses :=
          [{ name := "p/A$B", outerName := some "p/A", innerName := some "B", access := 1 }]
        fields :=
          [{ access := 1, name := "x", desc := "I"
             visibleAnnotations := [{ desc := "Lp/A;", values := [] }] }] }]

/-- Swaps the names of the two classes. -/
def swapStore : Mapping.Store :=
  ((Mapping.Store.empty .applying).mapClass "p/A" "p/A$B").mapClass "p/A$B" "p/A"

/-- Where two classes swap their names, each keeps its links. -/
theorem links_rename_swapped :
    (nestedGraph.resolve.rename swapStore).toList.map (·.name) = ["p/A$B", "p/A"] ∧
      (nestedGraph.resolve.rename swapStore).toList.map ClassEntry.links =
        nestedGraph.resolve.toList.map ClassEntry.links :=
  ⟨by decide +kernel,
    (links_rename nestedGraph (by decide +kernel) swapStore (by decide +kernel)
      (by decide +kernel)).2⟩

end JvmArchive.Renamer
