import JvmArchive.Proofs.Graph.Declarations

/-!
# Links and lookups

The links of a class come from lookups of the names in it. Lists of classes for which these answer the
same have the same links, so linking linked classes once more changes none. Both these links and those of
members follow from what classes declare and from which class is marked as the one where the program
starts; whatever else a class file tells does not matter to them.
-/
namespace JvmArchive

/-- The links of a class to the classes of its graph, and the flags that go with them. -/
structure ClassLinks where
  superclass : Option ClassId
  interfaces : List ClassId
  outer : Option ClassId
  ancestors : List ClassId
  isInner : Bool
  isMain : Bool
  innerClasses : List (Option ClassId)
  annotations : List (Option ClassId)
  fieldAnnotations : List (List (Option ClassId))
  methodAnnotations : List (List (Option ClassId))
  deriving DecidableEq

def ClassEntry.links (entry : ClassEntry) : ClassLinks where
  superclass := entry.superclass
  interfaces := entry.interfaces
  outer := entry.outer
  ancestors := entry.ancestors
  isInner := entry.isInner
  isMain := entry.isMain
  innerClasses := entry.innerClasses.map (·.class?)
  annotations := entry.annotations.map (·.class?)
  fieldAnnotations := entry.fields.map (·.annotations.map (·.class?))
  methodAnnotations := entry.methods.map (·.annotations.map (·.class?))

namespace ClassGraph

/-- What the lookups of the names in a class answer. -/
structure References where
  superclass : Option ClassId
  interfaces : List ClassId
  outer : Option ClassId
  isMain : Bool
  innerClasses : List (Option ClassId)
  /-- The classes that inner-class records name beside an outer class in the graph. -/
  declaredInner : List ClassId
  annotations : List (Option ClassId)
  fieldAnnotations : List (List (Option ClassId))
  methodAnnotations : List (List (Option ClassId))

/-- What lookups of annotation types answer. -/
def annotationReferences (find : String → Option ClassId) (entries : List AnnotationEntry) :
    List (Option ClassId) :=
  entries.map fun entry => entry.typeName?.bind find

/-- What lookups of inner-class records answer for those with an outer class in the graph. -/
def innerReferences (find : String → Option ClassId) (entries : List InnerClassEntry) :
    List ClassId :=
  entries.filterMap fun inner =>
    if (inner.node.outerName.bind find).isSome then find inner.node.name else none

def references (find : String → Option ClassId) (entry : ClassEntry) : References where
  superclass := entry.node.superName.bind find
  interfaces := entry.node.interfaces.filterMap find
  outer := entry.outerName?.bind find
  isMain := entry.isMain
  innerClasses := entry.innerClasses.map fun inner => find inner.node.name
  declaredInner := innerReferences find entry.innerClasses
  annotations := annotationReferences find entry.annotations
  fieldAnnotations := entry.fields.map fun field => annotationReferences find field.annotations
  methodAnnotations := entry.methods.map fun method => annotationReferences find method.annotations

/-- The links of a class, given what follows from the other classes too. -/
def References.links (references : References) (ancestors : List ClassId) (isInner : Bool) :
    ClassLinks :=
  { references with ancestors, isInner }

theorem annotationReferences_eq (find : String → Option ClassId) (entries : List AnnotationEntry) :
    annotationReferences find entries =
      (annotationTypes entries).map fun desc => (Descriptor.objectName? desc).bind find := by
  rw [annotationReferences, annotationTypes, List.map_map]
  rfl

theorem outerName?_eq (entry : ClassEntry) :
    entry.outerName? = entry.declaration.outerClass.or
      ((entry.declaration.innerClasses.find? (·.1 = entry.declaration.name)).bind (·.2)) := by
  have hrecord : (entry.declaration.innerClasses.find? (·.1 = entry.declaration.name)).bind (·.2) =
      (entry.innerClasses.find? (·.node.name = entry.name)).bind (·.node.outerName) := by
    simp only [ClassEntry.declaration, List.find?_map, Option.bind_map]
    rfl
  rw [ClassEntry.outerName?, hrecord]
  simp only [ClassEntry.declaration]
  cases entry.node.outerClass <;> rfl

/-- What lookups answer depends on the declaration and the mark alone. -/
theorem references_congr (find : String → Option ClassId) {entry other : ClassEntry}
    (h : entry.declaration = other.declaration) (hmain : entry.isMain = other.isMain) :
    references find entry = references find other := by
  have hsuper : entry.node.superName = other.node.superName := congrArg Declaration.superName h
  have hinterfaces : entry.node.interfaces = other.node.interfaces :=
    congrArg Declaration.interfaces h
  have hinner : (entry.innerClasses.map fun inner => (inner.node.name, inner.node.outerName)) =
      other.innerClasses.map fun inner => (inner.node.name, inner.node.outerName) :=
    congrArg Declaration.innerClasses h
  have hclasses : (entry.innerClasses.map fun inner => find inner.node.name) =
      other.innerClasses.map fun inner => find inner.node.name :=
    map_eq_of_map_eq (fun a b hsame => congrArg find (congrArg Prod.fst hsame)) hinner
  have hdeclared : innerReferences find entry.innerClasses =
      innerReferences find other.innerClasses := by
    have hrecords : ∀ entries : List InnerClassEntry, innerReferences find entries =
        (entries.map fun inner => (inner.node.name, inner.node.outerName)).filterMap fun record =>
          if (record.2.bind find).isSome then find record.1 else none := by
      intro entries
      rw [List.filterMap_map]
      rfl
    rw [hrecords, hrecords, hinner]
  have hannotations : annotationTypes entry.annotations = annotationTypes other.annotations :=
    congrArg Declaration.annotations h
  have hfields : entry.fields.map (fun field => annotationReferences find field.annotations) =
      other.fields.map fun field => annotationReferences find field.annotations := by
    refine map_eq_of_map_eq (fun a b hsame => ?_) (congrArg Declaration.fields h)
    rw [annotationReferences_eq, annotationReferences_eq, hsame]
  have hmethods : entry.methods.map (fun method => annotationReferences find method.annotations) =
      other.methods.map fun method => annotationReferences find method.annotations := by
    refine map_eq_of_map_eq (fun a b hsame => ?_) (congrArg Declaration.methods h)
    rw [annotationReferences_eq, annotationReferences_eq, (Prod.mk.inj hsame).2]
  simp only [references, hsuper, hinterfaces, outerName?_eq, h, hmain, hclasses, hdeclared,
    annotationReferences_eq find entry.annotations, annotationReferences_eq find other.annotations,
    hannotations, hfields, hmethods]

theorem declaredInner_linkClass (find : String → Option ClassId) (id : ClassId) (entry : ClassEntry) :
    declaredInner find (linkClass find id entry) = (references find entry).declaredInner := by
  rw [declaredInner, linkClass, List.filterMap_map]
  rfl

theorem links_linkClass (find : String → Option ClassId) (id : ClassId) (entry : ClassEntry)
    (ancestors : List ClassId) (isInner : Bool) :
    { (linkClass find id entry).links with ancestors, isInner } =
      (references find entry).links ancestors isInner := by
  simp [linkClass, linkAnnotations, ClassEntry.links, References.links, references,
    annotationReferences, Function.comp_def]

/-- The links of linked classes, one after the other. -/
theorem links_linkAll (entries : List ClassEntry) :
    (linkAll entries).map ClassEntry.links =
      (entries.map (references (lookUp entries))).zipIdx.map fun place =>
        place.1.links (ancestorsOf (marked entries) ⟨place.2⟩)
          (place.1.outer.isSome ||
            ((entries.map (references (lookUp entries))).flatMap (·.declaredInner)).contains
              ⟨place.2⟩) := by
  have hinner : (entries.zipIdx.map fun place =>
        linkClass (lookUp entries) ⟨place.2⟩ place.1).flatMap (declaredInner (lookUp entries)) =
      (entries.map (references (lookUp entries))).flatMap (·.declaredInner) := by
    have hfst : entries.zipIdx.map Prod.fst = entries := List.zipIdx_map_fst 0 entries
    conv => rhs; rw [← hfst]
    rw [List.map_map, List.flatMap_map, List.flatMap_map]
    simp [declaredInner_linkClass]
  apply List.ext_getElem?
  intro index
  rw [List.getElem?_map, linkAll_eq, getElem?_buildHierarchy, List.getElem?_map, List.getElem?_zipIdx,
    List.getElem?_map]
  cases hentry : entries[index]? with
  | none => simp [marked, hentry]
  | some entry =>
    have hmarked : (marked entries)[index]? = some
        { linkClass (lookUp entries) ⟨index⟩ entry with
          isInner := (linkClass (lookUp entries) ⟨index⟩ entry).outer.isSome ||
            ((entries.map (references (lookUp entries))).flatMap (·.declaredInner)).contains
              ⟨index⟩ } := by
      rw [← hinner]
      simp [marked, hentry]
    rw [hmarked]
    refine congrArg some (Eq.trans ?_ (links_linkClass _ ⟨index⟩ entry _ _))
    simp [ClassEntry.links, Function.comp_def]
    rfl

/-- Links depend on nothing but what the lookups of names answer. -/
theorem links_linkAll_congr {entries others : List ClassEntry}
    (h : entries.map (references (lookUp entries)) = others.map (references (lookUp others))) :
    (linkAll entries).map ClassEntry.links = (linkAll others).map ClassEntry.links := by
  have hparents : ∀ entries : List ClassEntry,
      (marked entries).map (fun entry => (entry.superclass, entry.interfaces)) =
        (entries.map (references (lookUp entries))).map fun answers =>
          (answers.superclass, answers.interfaces) := by
    intro entries
    apply List.ext_getElem?
    intro index
    obtain ⟨isInner, hmarked⟩ := getElem?_marked entries index
    rw [List.getElem?_map, hmarked, List.getElem?_map, List.getElem?_map, Option.map_map,
      Option.map_map]
    rfl
  have hancestors : ∀ id, ancestorsOf (marked entries) id = ancestorsOf (marked others) id :=
    ancestorsOf_congr (by rw [hparents, hparents, h])
  rw [links_linkAll, links_linkAll, h]
  simp only [hancestors]

/-- Linking leaves all names alone. -/
theorem references_linkAll (find : String → Option ClassId) (entries : List ClassEntry) :
    (linkAll entries).map (references find) = entries.map (references find) := by
  refine map_eq_of_map_eq (fun a b hsame => ?_) (declarations_linkAll entries)
  obtain ⟨hnode, hmain⟩ := Prod.mk.inj hsame
  refine references_congr find ?_ hmain
  rw [← declaration_toNode, ← declaration_toNode, hnode]

/-- Linking linked classes once more changes no link. -/
theorem links_linkAll_linkAll (entries : List ClassEntry) :
    (linkAll (linkAll entries)).map ClassEntry.links = (linkAll entries).map ClassEntry.links := by
  refine links_linkAll_congr ?_
  rw [lookUp_linkAll, references_linkAll]

variable {entries others : List ClassEntry}

/-- The links of classes depend on the declarations and the marks alone. -/
theorem links_linkAll_of_declarations
    (h : entries.map (fun entry => (entry.declaration, entry.isMain)) =
      others.map fun entry => (entry.declaration, entry.isMain)) :
    (linkAll entries).map ClassEntry.links = (linkAll others).map ClassEntry.links := by
  have hnames : entries.map (·.name) = others.map (·.name) :=
    map_eq_of_map_eq (fun a b hsame => congrArg (·.1.name) hsame) h
  refine links_linkAll_congr ?_
  rw [lookUp_congr hnames]
  exact map_eq_of_map_eq (fun a b hsame => references_congr _ (Prod.mk.inj hsame).1
    (Prod.mk.inj hsame).2) h

end ClassGraph

/-! ## Links of members -/

/-- The links of the members of a class. -/
structure MemberLinks where
  fieldParents : List (Option ClassId)
  methodParents : List (Option ClassId)
  bases : List (Option (ClassId × Nat))
  deriving DecidableEq

def ClassEntry.memberLinks (entry : ClassEntry) : MemberLinks where
  fieldParents := entry.fields.map (·.parent)
  methodParents := entry.methods.map (·.parent)
  bases := entry.methods.map (·.base)

namespace ClassGraph

variable {entries others : List ClassEntry}

theorem getElem?_memberLinks_linkAll (entries : List ClassEntry) (index : Nat) :
    ((linkAll entries).map ClassEntry.memberLinks)[index]? =
      (entries[index]?).map fun entry =>
        { fieldParents := entry.fields.map fun _ => some ⟨index⟩
          methodParents := entry.methods.map fun _ => some ⟨index⟩
          bases := entry.methods.map
            (baseOf (marked entries) (ancestorsOf (marked entries) ⟨index⟩)) } := by
  obtain ⟨isInner, hmarked⟩ := getElem?_marked entries index
  rw [List.getElem?_map, linkAll_eq, getElem?_buildHierarchy, hmarked, Option.map_map, Option.map_map]
  congr 1
  funext entry
  simp only [Function.comp_apply, ClassEntry.memberLinks, linkClass, List.map_map, MemberLinks.mk.injEq]
  exact ⟨rfl, rfl, List.map_congr_left fun method _ => baseOf_congr rfl _ rfl⟩

theorem identities_marked (entries : List ClassEntry) :
    (marked entries).map (fun entry => entry.methods.map MethodEntry.identity) =
      entries.map fun entry => entry.methods.map MethodEntry.identity := by
  apply List.ext_getElem?
  intro index
  obtain ⟨isInner, hmarked⟩ := getElem?_marked entries index
  rw [List.getElem?_map, List.getElem?_map, hmarked, Option.map_map]
  congr 1
  funext entry
  simp only [Function.comp_apply, linkClass, List.map_map]
  rfl

theorem parents_marked (entries : List ClassEntry) :
    (marked entries).map (fun entry => (entry.superclass, entry.interfaces)) =
      entries.map fun entry => (entry.node.superName.bind (lookUp entries),
        entry.node.interfaces.filterMap (lookUp entries)) := by
  apply List.ext_getElem?
  intro index
  obtain ⟨isInner, hmarked⟩ := getElem?_marked entries index
  rw [List.getElem?_map, List.getElem?_map, hmarked, Option.map_map]
  rfl

/-- The links of members depend on the declarations alone. -/
theorem memberLinks_linkAll_of_declarations
    (h : entries.map ClassEntry.declaration = others.map ClassEntry.declaration) :
    (linkAll entries).map ClassEntry.memberLinks = (linkAll others).map ClassEntry.memberLinks := by
  have hnames : entries.map (·.name) = others.map (·.name) :=
    map_eq_of_map_eq (fun a b hsame => congrArg Declaration.name hsame) h
  have hancestors : ∀ id, ancestorsOf (marked entries) id = ancestorsOf (marked others) id := by
    refine ancestorsOf_congr ?_
    rw [parents_marked, parents_marked, lookUp_congr hnames]
    refine map_eq_of_map_eq (fun a b hsame => ?_) h
    have hsuper : a.node.superName = b.node.superName := congrArg Declaration.superName hsame
    have hinterfaces : a.node.interfaces = b.node.interfaces := congrArg Declaration.interfaces hsame
    rw [hsuper, hinterfaces]
  have hidentities : (marked entries).map (fun entry => entry.methods.map MethodEntry.identity) =
      (marked others).map fun entry => entry.methods.map MethodEntry.identity := by
    rw [identities_marked, identities_marked]
    exact map_eq_of_map_eq (fun a b hsame => map_eq_of_map_eq (fun c d hmethod =>
      (Prod.mk.inj hmethod).1) (congrArg Declaration.methods hsame)) h
  apply List.ext_getElem?
  intro index
  have hindex := congrArg (·[index]?) h
  simp only [List.getElem?_map] at hindex
  rw [getElem?_memberLinks_linkAll, getElem?_memberLinks_linkAll]
  cases hentry : entries[index]? with
  | none =>
    rw [hentry, Option.map_none, eq_comm, Option.map_eq_none_iff] at hindex
    rw [hindex, Option.map_none, Option.map_none]
  | some entry =>
    rw [hentry, Option.map_some, eq_comm, Option.map_eq_some_iff] at hindex
    obtain ⟨other, hother, hsame⟩ := hindex
    have hfields : ∀ parent : Option ClassId,
        other.fields.map (fun _ => parent) = entry.fields.map fun _ => parent := fun parent =>
      map_eq_of_map_eq (fun _ _ _ => rfl) (congrArg Declaration.fields hsame)
    have hmethods : ∀ parent : Option ClassId,
        other.methods.map (fun _ => parent) = entry.methods.map fun _ => parent := fun parent =>
      map_eq_of_map_eq (fun _ _ _ => rfl) (congrArg Declaration.methods hsame)
    have hbases : other.methods.map (baseOf (marked others) (ancestorsOf (marked others) ⟨index⟩)) =
        entry.methods.map (baseOf (marked entries) (ancestorsOf (marked entries) ⟨index⟩)) := by
      rw [hancestors]
      exact map_eq_of_map_eq (fun a b hmethod => baseOf_congr hidentities.symm _
        (Prod.mk.inj hmethod).1) (congrArg Declaration.methods hsame)
    rw [hother, Option.map_some, Option.map_some, hfields, hmethods, hbases]

end ClassGraph
end JvmArchive
