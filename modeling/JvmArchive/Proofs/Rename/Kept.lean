import JvmArchive.Proofs.ClassFile.Annotations
import JvmArchive.Proofs.Rename.Links
import JvmArchive.Proofs.Rename.Mentions
import JvmArchive.Proofs.Signature.Unchanged

/-!
# Classes of kept names

A renamer that keeps all names as class files have them leaves a class that mentions no others as it is:
the header, the members, their annotations and the code. There is one lemma for each function that
renames.
-/
namespace JvmArchive.Renamer

open ClassGraph Mapping.Store Mention

/-- Whether a renamer keeps every name that is as class files have it, where a class says it as well as
where renaming finds it in the graph. -/
structure KeepsPlain (renamer : Renamer) : Prop where
  classes : Signature.KeepsDotless renamer.table.get?
  fields : ∀ owner name, (ofField owner name).IsPlain → ∀ image ∈ renamer.fieldImage? owner name,
    image = name
  methods : ∀ owner name desc, (ofMethod owner name desc).IsPlain →
    ∀ image ∈ renamer.methodImage? owner name desc, image = name
  keys : ∀ key ∈ renamer.graph.names, '.' ∉ key.toList
  bases : ∀ entry ∈ renamer.graph.toList, ∀ method ∈ entry.methods,
    ∀ image ∈ renamer.baseImage? method, image = method.name
  elements : ∀ type name, renamer.mapElement type name = name

theorem map_eq_self {α : Type} {mentions : α → List Mention} {f : α → α}
    (hf : ∀ {a}, AllPlain (mentions a) → f a = a) {items : List α}
    (h : AllPlain (items.flatMap mentions)) : items.map f = items :=
  (List.map_congr_left fun item hitem => hf (allPlain_flatMap.1 h item hitem)).trans (List.map_id items)

theorem optionMap_eq_self {α : Type} {mentions : α → List Mention} {f : α → α}
    (hf : ∀ {a}, AllPlain (mentions a) → f a = a) {item : Option α}
    (h : AllPlain (item.toList.flatMap mentions)) : item.map f = item := by
  cases item with
  | none => rfl
  | some a => exact congrArg some (hf (allPlain_flatMap.1 h a (by simp)))

theorem getD_eq_self {α : Type} {a : α} {image : Option α} (h : ∀ b ∈ image, b = a) :
    image.getD a = a := by
  cases image with
  | none => rfl
  | some b => exact h b rfl

namespace KeepsPlain

variable {renamer : Renamer}

/-! ## Names -/

section

variable (h : renamer.KeepsPlain)
include h

theorem mapDescriptor_eq {desc : String} (hplain : AllPlain (inDescriptor desc)) :
    renamer.mapDescriptor desc = desc := by
  have hnames : ∀ name ∈ Descriptor.names desc,
      Descriptor.image renamer.table.get? name = Descriptor.image (fun _ => none) name :=
    fun name hname => getD_eq_self (h.classes name (hplain _ (List.mem_map_of_mem hname)))
  rw [mapDescriptor, Descriptor.map_congr hnames, Descriptor.map, Descriptor.mapNames_none,
    String.ofList_toList]

theorem mapType_eq {name : String} (hplain : AllPlain (inType name)) :
    renamer.mapType name = name := by
  rw [inType] at hplain
  rw [mapType]
  split
  · next harray =>
    rw [if_pos harray] at hplain
    exact h.mapDescriptor_eq hplain
  · next harray =>
    rw [if_neg harray] at hplain
    exact getD_eq_self (h.classes name (hplain _ List.mem_cons_self))

theorem mapSignature_eq (signature : String) : renamer.mapSignature signature = signature :=
  Signature.map_eq_self h.classes signature

theorem dot_not_mem_of_nameOf? {id : ClassId} {key : String}
    (hkey : renamer.graph.nameOf? id = some key) : '.' ∉ key.toList := by
  obtain ⟨row, hrow, rfl⟩ := Option.map_eq_some_iff.1 hkey
  exact h.keys row.1 (List.mem_map_of_mem (List.mem_of_getElem? hrow))

theorem mapField_eq {owner name : String} (hplain : (ofField owner name).IsPlain) (desc : String)
    (op : Opcode) : renamer.mapField owner name desc op = name := by
  rw [mapField]
  split
  · next image himage => exact h.fields owner name hplain image himage
  · refine getD_eq_self fun image himage => ?_
    obtain ⟨declaring, hdeclaring, himage⟩ := Option.bind_eq_some_iff.1 himage
    simp only [declaringField?, Option.bind_eq_bind, Option.bind_eq_some_iff] at hdeclaring
    obtain ⟨_, _, _, _, hkey⟩ := hdeclaring
    exact h.fields declaring name ⟨h.dot_not_mem_of_nameOf? hkey, hplain.2⟩ image himage

theorem mapMethod_eq {owner name desc : String} (hplain : (ofMethod owner name desc).IsPlain) :
    renamer.mapMethod owner name desc = name := by
  rw [mapMethod]
  split
  · next image himage => exact h.methods owner name desc hplain image himage
  · refine getD_eq_self fun image himage => ?_
    obtain ⟨declaring, hdeclaring, himage⟩ := Option.bind_eq_some_iff.1 himage
    simp only [declaringMethod?, Option.bind_eq_bind, Option.bind_eq_some_iff] at hdeclaring
    obtain ⟨_, _, _, _, hkey⟩ := hdeclaring
    exact h.methods declaring name desc ⟨h.dot_not_mem_of_nameOf? hkey, hplain.2⟩ image himage

end

/-! ## Annotations -/

mutual

theorem mapValue_eq (h : renamer.KeepsPlain) : ∀ value : ElementValue, AllPlain value.mentions →
    renamer.mapValue value = value
  | .enum desc name, hplain => by
    rw [ElementValue.mentions, allPlain_append] at hplain
    rw [mapValue, h.mapDescriptor_eq hplain.1, getD_eq_self fun image himage => ?_]
    obtain ⟨owner, howner, himage⟩ := Option.bind_eq_some_iff.1 himage
    exact h.fields owner name (hplain.2 _ (by simp [howner])) image himage
  | .class desc, hplain => by rw [mapValue, h.mapDescriptor_eq hplain]
  | .nested desc values, hplain => by
    rw [ElementValue.mentions, allPlain_append, allPlain_cons] at hplain
    rw [mapValue, h.mapDescriptor_eq hplain.1, h.mapElements_eq _ values hplain.2.2,
      AnnotationNode.collect_of_nodup hplain.2.1]
  | .array values, hplain => by rw [mapValue, h.mapValues_eq values hplain]
  | .byte _, _ | .char _, _ | .double _, _ | .float _, _ | .int _, _ | .long _, _ | .short _, _
  | .boolean _, _ | .string _, _ => by rw [mapValue] <;> simp

theorem mapValues_eq (h : renamer.KeepsPlain) : ∀ values : List ElementValue,
    AllPlain (ElementValue.mentionsInAll values) → renamer.mapValues values = values
  | [], _ => rfl
  | value :: values, hplain => by
    rw [ElementValue.mentionsInAll, allPlain_append] at hplain
    rw [mapValues, h.mapValue_eq value hplain.1, h.mapValues_eq values hplain.2]

theorem mapElements_eq (h : renamer.KeepsPlain) (type : Option String) :
    ∀ values : List (String × ElementValue), AllPlain (ElementValue.mentionsInPairs values) →
      renamer.mapElements type values = values
  | [], _ => rfl
  | (name, value) :: values, hplain => by
    rw [ElementValue.mentionsInPairs, allPlain_append] at hplain
    have hname : (type.map fun owner => renamer.mapElement owner name).getD name = name := by
      cases type with
      | none => rfl
      | some owner => exact h.elements owner name
    rw [mapElements, hname, h.mapValue_eq value hplain.1, h.mapElements_eq type values hplain.2]

end

section

variable (h : renamer.KeepsPlain)
include h

theorem mapAnnotationNode_eq {node : AnnotationNode} (hplain : AllPlain node.mentions) :
    renamer.mapAnnotationNode node = node := by
  rw [AnnotationNode.mentions, allPlain_append, allPlain_cons] at hplain
  rw [mapAnnotationNode, h.mapDescriptor_eq hplain.1, h.mapElements_eq _ _ hplain.2.2,
    AnnotationNode.collect_of_nodup hplain.2.1]

theorem mapAnnotationEntry_eq {entry : AnnotationEntry} (hplain : AllPlain entry.mentions) :
    { entry with node := renamer.mapAnnotationNode entry.node } = entry := by
  rw [h.mapAnnotationNode_eq hplain]

/-! ## Code -/

theorem mapHandle_eq {handle : Handle} (hplain : AllPlain handle.mentions) :
    renamer.mapHandle handle = handle := by
  simp only [Handle.mentions, allPlain_append] at hplain
  obtain ⟨⟨howner, hdesc⟩, hmember⟩ := hplain
  have hplain := hmember _ List.mem_cons_self
  rw [mapHandle, h.mapType_eq howner, h.mapDescriptor_eq hdesc]
  cases hop : HandleKind.fieldOpcode? handle.kind with
  | none =>
    have hmethod : (ofMethod handle.owner handle.name handle.desc).IsPlain := by
      simpa only [hop, Option.isSome_none, Bool.false_eq_true, if_false] using hplain
    simp only [h.mapMethod_eq hmethod]
  | some op =>
    have hfield : (ofField handle.owner handle.name).IsPlain := by
      simpa only [hop, Option.isSome_some, if_true] using hplain
    simp only [h.mapField_eq hfield]

end

mutual

theorem mapConstant_eq (h : renamer.KeepsPlain) : ∀ constant : Constant, AllPlain constant.mentions →
    renamer.mapConstant constant = constant
  | .class name, hplain => by rw [mapConstant, h.mapType_eq hplain]
  | .methodType desc, hplain => by rw [mapConstant, h.mapDescriptor_eq hplain]
  | .methodHandle handle, hplain => by rw [mapConstant, h.mapHandle_eq hplain]
  | .dynamic name desc bootstrap arguments, hplain => by
    rw [Constant.mentions, allPlain_append, allPlain_append] at hplain
    rw [mapConstant, h.mapDescriptor_eq hplain.1.1, h.mapHandle_eq hplain.1.2,
      h.mapConstants_eq arguments hplain.2]
  | .integer _, _ | .float _, _ | .long _, _ | .double _, _ | .string _, _ => by
    rw [mapConstant] <;> simp

theorem mapConstants_eq (h : renamer.KeepsPlain) : ∀ constants : List Constant,
    AllPlain (Constant.mentionsInAll constants) → renamer.mapConstants constants = constants
  | [], _ => rfl
  | constant :: constants, hplain => by
    rw [Constant.mentionsInAll, allPlain_append] at hplain
    rw [mapConstants, h.mapConstant_eq constant hplain.1, h.mapConstants_eq constants hplain.2]

end

section

variable (h : renamer.KeepsPlain)
include h

theorem mapCallSite_eq {name desc : String} {bootstrap : Handle} {arguments : List Constant}
    (hplain : AllPlain (mentionsInCallSite name desc bootstrap arguments)) :
    renamer.mapCallSite name desc bootstrap arguments = name := by
  unfold mentionsInCallSite at hplain
  unfold mapCallSite
  split
  · next interface erased rest htype =>
    split
    · next howner =>
      simp only [htype, howner, if_true] at hplain
      exact h.mapMethod_eq (hplain _ List.mem_cons_self)
    · rfl
  · rfl

theorem mapVerificationType_eq {type : VerificationType} (hplain : AllPlain type.mentions) :
    renamer.mapVerificationType type = type := by
  cases type with
  | object name => rw [mapVerificationType, h.mapType_eq hplain]
  | _ => rfl

theorem mapInstruction_eq {instruction : Instruction} (hplain : AllPlain instruction.mentions) :
    renamer.mapInstruction instruction = instruction := by
  cases instruction with
  | frame state =>
    rw [Instruction.mentions, List.flatMap_append, allPlain_append] at hplain
    rw [mapInstruction, map_eq_self h.mapVerificationType_eq hplain.1,
      map_eq_self h.mapVerificationType_eq hplain.2]
  | type op name => rw [mapInstruction, h.mapType_eq hplain]
  | field op owner name desc =>
    simp only [Instruction.mentions, allPlain_append] at hplain
    obtain ⟨⟨howner, hdesc⟩, hmember⟩ := hplain
    rw [mapInstruction, h.mapType_eq howner, h.mapDescriptor_eq hdesc,
      h.mapField_eq (hmember _ List.mem_cons_self)]
  | method op owner name desc interface =>
    simp only [Instruction.mentions, allPlain_append] at hplain
    obtain ⟨⟨howner, hdesc⟩, hmember⟩ := hplain
    rw [mapInstruction, h.mapType_eq howner, h.mapDescriptor_eq hdesc,
      h.mapMethod_eq (hmember _ List.mem_cons_self)]
  | invokeDynamic name desc bootstrap arguments =>
    simp only [Instruction.mentions, allPlain_append] at hplain
    obtain ⟨⟨⟨hdesc, hbootstrap⟩, harguments⟩, hsite⟩ := hplain
    rw [mapInstruction, h.mapCallSite_eq hsite, h.mapDescriptor_eq hdesc, h.mapHandle_eq hbootstrap,
      h.mapConstants_eq arguments harguments]
  | ldc constant => rw [mapInstruction, h.mapConstant_eq constant hplain]
  | multiANewArray desc dimensions => rw [mapInstruction, h.mapDescriptor_eq hplain]
  | _ => rfl

/-! ## Classes -/

theorem mapInnerClass_eq {inner : InnerClass} (hplain : AllPlain inner.mentions) :
    renamer.mapInnerClass inner = inner := by
  rw [InnerClass.mentions, allPlain_append] at hplain
  simp only [mapInnerClass, h.mapType_eq hplain.1, optionMap_eq_self h.mapType_eq hplain.2, if_true,
    Option.map_id']

theorem mapOuterMethod_eq {node : ClassNode} (hplain : AllPlain node.mentionsOuter) :
    renamer.mapOuterMethod node = node.outerMethod := by
  unfold ClassNode.mentionsOuter at hplain
  unfold mapOuterMethod
  split
  · next outer name desc houter hname hdesc =>
    simp only [houter, hname, hdesc] at hplain
    rw [h.mapMethod_eq (hplain _ List.mem_cons_self), hname]
  · rfl

theorem mapHeader_eq {node : ClassNode} (hplain : AllPlain node.mentions) :
    renamer.mapHeader node = node := by
  simp only [ClassNode.mentions, List.flatMap_cons, List.flatMap_append, allPlain_append] at hplain
  obtain ⟨⟨⟨⟨hname, ⟨⟨⟨⟨hsuper, hinterfaces⟩, houter⟩, hhost⟩, hmembers⟩, hpermitted⟩, hdesc⟩, hmethod⟩,
    hannotations⟩ := hplain
  unfold mapHeader
  rw [h.mapType_eq hname, optionMap_eq_self h.mapType_eq hsuper, map_eq_self h.mapType_eq hinterfaces,
    optionMap_eq_self h.mapType_eq houter, h.mapOuterMethod_eq hmethod,
    optionMap_eq_self h.mapDescriptor_eq hdesc, ite_self, optionMap_eq_self h.mapType_eq hhost,
    map_eq_self h.mapType_eq hmembers, map_eq_self h.mapType_eq hpermitted,
    map_eq_self h.mapAnnotationNode_eq hannotations, funext h.mapSignature_eq, Option.map_id']

theorem mapAnnotations_eq {entries : List AnnotationEntry}
    (hplain : AllPlain (entries.flatMap AnnotationEntry.mentions)) :
    renamer.mapAnnotations entries = entries :=
  map_eq_self h.mapAnnotationEntry_eq hplain

theorem mapFieldEntry_eq {owner : String} {field : FieldEntry}
    (hplain : AllPlain (field.mentions owner)) : renamer.mapFieldEntry owner field = field := by
  simp only [FieldEntry.mentions, List.cons_append, allPlain_cons, allPlain_append] at hplain
  obtain ⟨hname, ⟨hdesc, hannotations⟩, hinvisible⟩ := hplain
  have hdeclared : renamer.mapDeclaredField owner field.name = field.name :=
    getD_eq_self (h.fields owner field.name hname)
  rw [mapFieldEntry, hdeclared, h.mapDescriptor_eq hdesc, h.mapAnnotations_eq hannotations,
    map_eq_self h.mapAnnotationNode_eq hinvisible, funext h.mapSignature_eq, Option.map_id']
  rfl

theorem mapParameters_eq {annotations : Option (List (List AnnotationNode))}
    (hplain : AllPlain (mentionsInParameters annotations)) :
    annotations.map (·.map (·.map renamer.mapAnnotationNode)) = annotations :=
  optionMap_eq_self (map_eq_self (map_eq_self h.mapAnnotationNode_eq)) hplain

theorem mapTryCatch_eq {range : TryCatch} (hplain : AllPlain range.mentions) :
    { range with catchType := range.catchType.map renamer.mapType } = range := by
  rw [optionMap_eq_self h.mapType_eq hplain]

theorem mapLocalVariable_eq {declared : LocalVariable} (hplain : AllPlain declared.mentions) :
    { declared with
      desc := renamer.mapDescriptor declared.desc
      signature := declared.signature.map renamer.mapSignature } = declared := by
  rw [h.mapDescriptor_eq hplain, funext h.mapSignature_eq, Option.map_id']

theorem mapMethodNode_eq {node : MethodNode} (hplain : AllPlain node.mentions) :
    renamer.mapMethodNode node = node := by
  simp only [MethodNode.mentions, allPlain_append] at hplain
  obtain ⟨⟨⟨⟨⟨⟨⟨hdesc, hexceptions⟩, hinvisible⟩, hvisible⟩, hhidden⟩, hdefault⟩, hranges⟩, hlocals⟩ :=
    hplain
  rw [mapMethodNode, h.mapDescriptor_eq hdesc, map_eq_self h.mapType_eq hexceptions,
    map_eq_self h.mapAnnotationNode_eq hinvisible, h.mapParameters_eq hvisible,
    h.mapParameters_eq hhidden, optionMap_eq_self (h.mapValue_eq _) hdefault,
    map_eq_self h.mapTryCatch_eq hranges, map_eq_self h.mapLocalVariable_eq hlocals,
    funext h.mapSignature_eq, Option.map_id']

theorem mapDeclaredMethod_eq {entry : ClassEntry} {method : MethodEntry} {owner : String}
    (hentry : entry ∈ renamer.graph.toList) (hmethod : method ∈ entry.methods)
    (hplain : (ofMethod owner method.name method.desc).IsPlain) :
    renamer.mapDeclaredMethod owner method = method.name := by
  rw [mapDeclaredMethod]
  split
  · next image himage => exact h.methods _ _ _ hplain image himage
  · exact getD_eq_self (h.bases entry hentry method hmethod)

theorem toNode_mapMethodEntry {entry : ClassEntry} {method : MethodEntry} {owner : String}
    (hentry : entry ∈ renamer.graph.toList) (hmethod : method ∈ entry.methods)
    (hplain : AllPlain (method.mentions owner)) :
    (renamer.mapMethodEntry owner method).toNode = method.toNode := by
  simp only [MethodEntry.mentions, List.cons_append, allPlain_cons, allPlain_append] at hplain
  obtain ⟨hname, ⟨hnode, hannotations⟩, hcode⟩ := hplain
  have hinstructions : (method.editor.code.map renamer.mapInstruction).toList =
      method.editor.code.toList := by
    have := map_eq_self h.mapInstruction_eq hcode
    rw [CodeList.toList, List.map_map] at this
    rw [CodeList.toList, CodeList.map, List.map_map]
    exact this
  rw [mapMethodEntry, h.mapMethodNode_eq hnode, h.mapAnnotations_eq hannotations,
    h.mapDeclaredMethod_eq hentry hmethod hname, MethodEntry.toNode, MethodEntry.toNode]
  simp only [CodeEditor.edit, hinstructions]
  rfl

/-- A renamer that keeps all that a class mentions keeps everything in the class. -/
theorem toNode_mapClass {entry : ClassEntry} (hentry : entry ∈ renamer.graph.toList)
    (hplain : AllPlain entry.mentions) : (renamer.mapClass entry).toNode = entry.toNode := by
  simp only [ClassEntry.mentions, List.cons_append, allPlain_cons, allPlain_append] at hplain
  obtain ⟨hname, ⟨⟨⟨hnode, hinner⟩, hannotations⟩, hfields⟩, hmethods⟩ := hplain
  have hrows : entry.innerClasses.map (fun inner => renamer.mapInnerClass inner.node) =
      entry.innerClasses.map (·.node) :=
    List.map_congr_left fun inner hmem => h.mapInnerClass_eq (allPlain_flatMap.1 hinner inner hmem)
  have hdeclared : entry.fields.map (renamer.mapFieldEntry entry.name) = entry.fields :=
    map_eq_self h.mapFieldEntry_eq hfields
  have hcode : (entry.methods.map fun method => (renamer.mapMethodEntry entry.name method).toNode) =
      entry.methods.map MethodEntry.toNode :=
    List.map_congr_left fun method hmem =>
      h.toNode_mapMethodEntry hentry hmem (allPlain_flatMap.1 hmethods method hmem)
  simp only [ClassEntry.toNode, mapClass, h.mapHeader_eq hnode, h.mapAnnotations_eq hannotations,
    hdeclared, List.map_map, Function.comp_def, hrows, hcode]

end

end KeepsPlain

end JvmArchive.Renamer
