import JvmArchive.Proofs.ClassFile.Files

/-!
# Classes without code

A class whose methods have no code is read back as it was written, but for the attributes outside the
model that may hold pool indices: without the pool that they were read with they are left out.
-/
namespace JvmArchive

/-- A field without the attributes that may hold pool indices. -/
def FieldNode.independent (field : FieldNode) : FieldNode :=
  { field with attributes := field.attributes.filter RawAttribute.isPoolIndependent }

/-- A method without the attributes that may hold pool indices; nor does a file say which label its code
hands out next. -/
def MethodNode.independent (method : MethodNode) : MethodNode :=
  { method with
    attributes := method.attributes.filter RawAttribute.isPoolIndependent, upcomingLabel := none }

/-- A class without the attributes that may hold pool indices, on itself and on its members. -/
def ClassNode.independent (node : ClassNode) : ClassNode :=
  { node with
    fields := node.fields.map FieldNode.independent
    methods := node.methods.map MethodNode.independent
    attributes := node.attributes.filter RawAttribute.isPoolIndependent }

/-- A method that has neither code nor anything that only code has. -/
structure MethodNode.Codeless (method : MethodNode) : Prop where
  instructions : method.instructions = []
  tryCatches : method.tryCatches = []
  localVariables : method.localVariables = []
  codeAttributes : method.codeAttributes = []
  maxStack : method.maxStack = 0
  maxLocals : method.maxLocals = 0

theorem keptAttributes_false (raws : List RawAttribute) :
    PoolWriter.keptAttributes false raws = raws.filter RawAttribute.isPoolIndependent := by
  simp [PoolWriter.keptAttributes]

/-- The shell of a method without code is the method. -/
theorem MethodNode.Codeless.shell_eq {method : MethodNode} (h : method.Codeless) :
    method.shell false = method.independent := by
  obtain ⟨hinstructions, htryCatches, hlocals, hattributes, hstack, hmax⟩ := h
  rw [MethodNode.shell, MethodNode.independent, keptAttributes_false, hinstructions, htryCatches,
    hlocals, hattributes, hstack, hmax]

namespace ClassNode
open PoolWriter

/-- A class without code that fits its fields is read from the bytes that are written for it, provided
that four bytes can say how many they are. -/
theorem ofBytes_toBytes_of_codeless {settings : Encode.Settings} {node : ClassNode}
    {bytes : List UInt8} (hpool : node.sourcePool = none) (hfits : node.Fits false)
    (hcode : ∀ method ∈ node.methods, method.Codeless) (hbytes : node.toBytes settings = .ok bytes)
    (hsize : bytes.length < 4294967296) :
    ∃ pool, ofBytes bytes = .ok { node.independent with sourcePool := some pool } := by
  have hkeep : node.sourcePool.isSome = false := by rw [hpool]; rfl
  have hfitsWith : node.FitsWith settings :=
    { pool := by simp [hpool]
      parts := by rwa [hkeep]
      code := fun method hmethod _ hne => absurd (hcode method hmethod).instructions hne }
  have hcross : ∀ method ∈ node.methods, ∀ instruction ∈ method.instructions,
      instruction.crosses = false := by
    intro method hmethod
    rw [(hcode method hmethod).instructions]
    simp
  obtain ⟨pool, methods, hread, hbytes⟩ := hfitsWith.ofBytes_toBytes hcross hbytes hsize
  have hsame : List.Forall₂ (· = ·) (node.methods.map MethodNode.independent) methods := by
    rw [List.forall₂_map_left_iff]
    refine ((List.forall₂_and_left _ _).2 ⟨hcode, hread⟩).imp ?_
    rintro method back ⟨hcodeless, hback⟩
    cases hback with
    | shell _ => rw [hkeep, hcodeless.shell_eq]
    | code hne _ _ => exact absurd hcodeless.instructions hne
  rw [List.forall₂_eq_eq_eq] at hsame
  refine ⟨pool, ?_⟩
  rw [hbytes, ← hsame, hkeep]
  simp only [shell, independent, keptAttributes_false]
  rfl

/-- A class with a dynamic constant, nested annotations and an attribute that is left out. -/
def annotated : ClassNode where
  name := "p/A"
  superName := some "p/B"
  fields :=
    [{ name := "f", desc := "I",
       value := some (.dynamic "c" "I" ⟨6, "p/B", "b", "()I", true⟩ [.integer 3]) }]
  methods :=
    [{ name := "m", desc := "()V", exceptions := ["p/E"],
       attributes := [⟨"Custom", [1]⟩, ⟨"Deprecated", []⟩] }]
  visibleAnnotations :=
    [{ desc := "Lp/T;",
       values := [("k", .array [.int 1, .nested "Lp/U;" [("z", .string "s")]])] }]

theorem fits_annotated : annotated.Fits false where
  name := by decide
  superName := by simp [annotated]; decide
  interfaces := by simp [annotated]
  fields := by
    refine ⟨by decide, ?_⟩
    intro field hfield
    obtain rfl := List.mem_singleton.1 hfield
    constructor <;> simp [FieldNode.attributeNames, annotationNames, keptAttributes, AnnotationsFit,
      Constant.Loadable, Constant.Fits, Constant.FitAll, Constant.depth, Constant.depthOf,
      Handle.Fits, ConstantPool.maxDepth] <;> decide
  methods := by
    refine ⟨by decide, ?_⟩
    intro method hmethod
    obtain rfl := List.mem_singleton.1 hmethod
    constructor <;> simp [MethodNode.attributeNames, MethodNode.otherNames, annotationNames,
      keptAttributes, AnnotationsFit, RawAttribute.isPoolIndependent] <;> decide
  sourceFile := by simp [annotated]
  signature := by simp [annotated]
  innerClasses := by simp [annotated]
  enclosing := by constructor <;> simp [annotated]
  nestHost := by simp [annotated]
  nestMembers := by simp [annotated]
  permittedSubclasses := by simp [annotated]
  visible := by
    simp [annotated, AnnotationsFit, AnnotationNode.Fits, ElementValue.PairsFit, ElementValue.Fits,
      ElementValue.AllFit]
    decide
  invisible := by simp [annotated, AnnotationsFit]
  attributes := by simp [annotated, keptAttributes]
  count := by decide

theorem toBytes_annotated :
    ∃ bytes, annotated.toBytes {} = .ok bytes ∧ bytes.length < 4294967296 := by
  simp [annotated, ClassNode.toBytes, Encode.classBody, Encode.initialPool, Encode.classIndex,
    PoolBuilder.class_, PoolBuilder.utf8, PoolBuilder.add, Encode.optional, Encode.counted,
    Encode.concatM, Encode.field, Encode.textIndex, Encode.constantValue, PoolBuilder.constant,
    PoolBuilder.handle, PoolBuilder.constants, PoolBuilder.methodRef, PoolBuilder.addBootstrap,
    PoolBuilder.nameAndType, bind_run, map_run, get_run, Except.bind, Except.map, StateT.run,
    ConstantPool.pushEntry, PoolBuilder.maxSlots, PoolEntry.isWide, Std.HashMap.getElem?_insert,
    HandleKind.putStatic, Encode.optionalText,
    Encode.annotationAttributes, Encode.annotationsAttribute, Encode.rawAttributes, Encode.method,
    Encode.codeAttribute, Encode.someClasses, Encode.classesAttribute,
    Encode.parameterAnnotationsAttribute, Encode.annotationDefault, Encode.parametersAttribute,
    Encode.classAttributes, Encode.innerClasses, Encode.enclosingMethod, Encode.nestHost,
    Encode.bootstrapMethods, Encode.annotationNode, Encode.elements, Encode.elementValue,
    Encode.elementValues, Encode.taggedInteger, Encode.taggedIndex, Encode.Attribute.named,
    RawAttribute.isPoolIndependent, -getElem?_pos]
  decide +kernel

theorem ofBytes_toBytes_annotated :
    ∃ bytes pool, annotated.toBytes {} = .ok bytes ∧
      ofBytes bytes = .ok { annotated.independent with sourcePool := some pool } := by
  obtain ⟨bytes, hbytes, hsize⟩ := toBytes_annotated
  have hcode : ∀ method ∈ annotated.methods, method.Codeless := by
    intro method hmethod
    obtain rfl := List.mem_singleton.1 hmethod
    constructor <;> rfl
  obtain ⟨pool, hread⟩ := ofBytes_toBytes_of_codeless rfl fits_annotated hcode hbytes hsize
  exact ⟨bytes, pool, hbytes, hread⟩

end ClassNode
end JvmArchive
