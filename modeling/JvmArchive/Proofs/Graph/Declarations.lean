import JvmArchive.Proofs.Graph.Linked

/-!
# Declarations

What of a class matters to links: a few of the names in it, and what tells its methods from others.
Linking changes none of this, and a class has it from its tree.
-/
namespace JvmArchive

/-- Lists that agree in what is seen of their elements agree in all that depends on it. -/
theorem map_eq_of_map_eq {α β γ δ : Type} {f : α → γ} {g : β → γ} {f' : α → δ} {g' : β → δ}
    (h : ∀ a b, f a = g b → f' a = g' b) {as : List α} {bs : List β} (hmap : as.map f = bs.map g) :
    as.map f' = bs.map g' := by
  induction as generalizing bs with
  | nil =>
    rw [List.map_nil, eq_comm, List.map_eq_nil_iff] at hmap
    rw [hmap]
    rfl
  | cons a as ih =>
    cases bs with
    | nil => cases hmap
    | cons b bs =>
      rw [List.map_cons, List.map_cons, List.cons.injEq] at hmap
      rw [List.map_cons, List.map_cons, h a b hmap.1, ih hmap.2]

/-- What of a class matters to links: its name and the names in it that are looked up, and what tells
its methods from others. -/
structure Declaration where
  name : String
  superName : Option String
  interfaces : List String
  outerClass : Option String
  /-- The inner-class records, each with the outer class that it names. -/
  innerClasses : List (String × Option String)
  /-- The types of the visible annotations of the class. -/
  annotations : List String
  /-- The types of the visible annotations of each field. -/
  fields : List (List String)
  /-- The methods, each with the types of its visible annotations. -/
  methods : List ((String × String × Access) × List String)
  deriving DecidableEq

def annotationTypes (entries : List AnnotationEntry) : List String := entries.map (·.node.desc)

def ClassEntry.declaration (entry : ClassEntry) : Declaration where
  name := entry.name
  superName := entry.node.superName
  interfaces := entry.node.interfaces
  outerClass := entry.node.outerClass
  innerClasses := entry.innerClasses.map fun inner => (inner.node.name, inner.node.outerName)
  annotations := annotationTypes entry.annotations
  fields := entry.fields.map fun field => annotationTypes field.annotations
  methods := entry.methods.map fun method => (method.identity, annotationTypes method.annotations)

/-! ## Trees -/

/-- What tells a method from others, and the types of its visible annotations. -/
def MethodNode.declaration (method : MethodNode) : (String × String × Access) × List String :=
  ((method.name, method.desc, method.access), method.visibleAnnotations.map (·.desc))

def ClassNode.declaration (node : ClassNode) : Declaration where
  name := node.name
  superName := node.superName
  interfaces := node.interfaces
  outerClass := node.outerClass
  innerClasses := node.innerClasses.map fun inner => (inner.name, inner.outerName)
  annotations := node.visibleAnnotations.map (·.desc)
  fields := node.fields.map fun field => field.visibleAnnotations.map (·.desc)
  methods := node.methods.map MethodNode.declaration

/-- A class declares what its tree does. -/
theorem declaration_toNode (entry : ClassEntry) : entry.toNode.declaration = entry.declaration := by
  simp only [ClassNode.declaration, ClassEntry.declaration, ClassEntry.toNode, List.map_map]
  rw [Declaration.mk.injEq]
  refine ⟨rfl, rfl, rfl, rfl, rfl, rfl, List.map_congr_left fun field _ => ?_,
    List.map_congr_left fun method _ => ?_⟩
  · rw [annotationTypes, Function.comp_apply, FieldEntry.toNode, List.map_map]
    rfl
  · rw [annotationTypes, Function.comp_apply, MethodEntry.toNode, MethodNode.declaration, List.map_map]
    rfl

theorem declaration_ofNode (node : ClassNode) :
    (ClassEntry.ofNode node).declaration = node.declaration := by
  simp only [ClassNode.declaration, ClassEntry.declaration, ClassEntry.ofNode, List.map_map,
    annotationTypes]
  rw [Declaration.mk.injEq]
  refine ⟨rfl, rfl, rfl, rfl, rfl, rfl, List.map_congr_left fun field _ => ?_,
    List.map_congr_left fun method _ => ?_⟩
  · rw [Function.comp_apply, FieldEntry.ofNode, List.map_map]
    rfl
  · rw [Function.comp_apply, MethodEntry.ofNode, MethodNode.declaration, List.map_map]
    rfl

/-- Lists that are the same agree in what the same elements agree in. -/
theorem map_eq_of_sameLists {α β : Type} {same : α → α → Bool} {f : α → β}
    (hf : ∀ a b, same a b = true → f a = f b) {as bs : List α} (h : sameLists same as bs = true) :
    as.map f = bs.map f := by
  induction as generalizing bs with
  | nil =>
    cases bs with
    | nil => rfl
    | cons b bs => cases h
  | cons a as ih =>
    cases bs with
    | nil => cases h
    | cons b bs =>
      rw [sameLists, Bool.and_eq_true] at h
      rw [List.map_cons, List.map_cons, hf a b h.1, ih h.2]

/-- Trees that are the same declare the same. -/
theorem declaration_of_same {a b : ClassNode} (h : a.same b = true) :
    a.declaration = b.declaration := by
  have hmethod : ∀ a b : MethodNode, a.same b = true → a.declaration = b.declaration := by
    intro a b hsame
    rw [MethodNode.same, decide_eq_true_iff] at hsame
    have hdeclaration := congrArg MethodNode.declaration hsame
    exact hdeclaration
  simp only [ClassNode.same, Bool.and_eq_true, beq_iff_eq] at h
  simp only [ClassNode.declaration, h, map_eq_of_sameLists hmethod h.1.1.2]

namespace ClassGraph

/-- Linking leaves all declarations alone. -/
theorem declaration_linkAll (entries : List ClassEntry) :
    (linkAll entries).map ClassEntry.declaration = entries.map ClassEntry.declaration := by
  refine map_eq_of_map_eq (fun a b hsame => ?_) (declarations_linkAll entries)
  rw [← declaration_toNode, ← declaration_toNode, (Prod.mk.inj hsame).1]

end ClassGraph
end JvmArchive
