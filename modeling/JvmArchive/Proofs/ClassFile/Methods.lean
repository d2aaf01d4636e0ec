import JvmArchive.Proofs.ClassFile.Fields

/-!
# Methods read back

All of a method but its code. What the code attribute has to say is left open here.
-/
namespace JvmArchive

namespace MethodNode
open PoolWriter

/-- The names of the attributes that are written for a method behind its code. -/
def otherNames (keepAll : Bool) (method : MethodNode) : List String :=
  (if method.exceptions.isEmpty then [] else ["Exceptions"]) ++
    (method.signature.toList.map fun _ => "Signature") ++
    annotationNames method.visibleAnnotations method.invisibleAnnotations ++
    (method.visibleParameterAnnotations.toList.map fun _ => "RuntimeVisibleParameterAnnotations") ++
    (method.invisibleParameterAnnotations.toList.map fun _ =>
      "RuntimeInvisibleParameterAnnotations") ++
    (method.annotationDefault.toList.map fun _ => "AnnotationDefault") ++
    (if method.parameters.isEmpty then [] else ["MethodParameters"]) ++
    (keptAttributes keepAll method.attributes).map (·.name)

/-- The names of the attributes that are written for a method. -/
def attributeNames (keepAll : Bool) (method : MethodNode) : List String :=
  (if method.instructions.isEmpty then [] else ["Code"]) ++ method.otherNames keepAll

/-- The names of the attributes of a method that are inside the model. -/
def modelled : List String :=
  ["Code", "Exceptions", "Signature", "RuntimeVisibleAnnotations", "RuntimeInvisibleAnnotations",
    "RuntimeVisibleParameterAnnotations", "RuntimeInvisibleParameterAnnotations",
    "AnnotationDefault", "MethodParameters"]

/-- All texts and numbers of a method fit where they are written, those of its code apart. -/
structure Fits (keepAll : Bool) (method : MethodNode) : Prop where
  name : TextFits method.name
  desc : TextFits method.desc
  exceptions : method.exceptions.length < 65536 ∧ ∀ c ∈ method.exceptions, TextFits c
  signature : ∀ text ∈ method.signature, TextFits text
  visible : AnnotationsFit method.visibleAnnotations
  invisible : AnnotationsFit method.invisibleAnnotations
  visibleParameters : ∀ lists ∈ method.visibleParameterAnnotations,
    lists.length < 256 ∧ ∀ nodes ∈ lists, AnnotationsFit nodes
  invisibleParameters : ∀ lists ∈ method.invisibleParameterAnnotations,
    lists.length < 256 ∧ ∀ nodes ∈ lists, AnnotationsFit nodes
  default : ∀ value ∈ method.annotationDefault, value.Fits
  parameters : method.parameters.length < 256 ∧
    ∀ parameter ∈ method.parameters, ∀ text ∈ parameter.name, TextFits text
  attributes : ∀ raw ∈ keptAttributes keepAll method.attributes,
    TextFits raw.name ∧ raw.name ∉ modelled
  count : (method.attributeNames keepAll).length < 65536

/-- What remains of a method without its code when it is written and read. -/
def shell (keepAll : Bool) (method : MethodNode) : MethodNode :=
  { access := method.access, name := method.name, desc := method.desc,
    signature := method.signature, exceptions := method.exceptions, parameters := method.parameters,
    visibleAnnotations := method.visibleAnnotations,
    invisibleAnnotations := method.invisibleAnnotations,
    visibleParameterAnnotations := method.visibleParameterAnnotations,
    invisibleParameterAnnotations := method.invisibleParameterAnnotations,
    annotationDefault := method.annotationDefault,
    attributes := keptAttributes keepAll method.attributes }

end MethodNode

namespace PoolWriter
open PoolBuilder Reader

theorem addMethodAttribute_of_notMem {raw : RawAttribute} (h : raw.name ∉ MethodNode.modelled)
    (pool : ConstantPool) (method : MethodNode) :
    Decode.addMethodAttribute pool method raw =
      .ok { method with attributes := method.attributes ++ [raw] } := by
  simp only [MethodNode.modelled, List.mem_cons, List.not_mem_nil, not_or, or_false] at h
  unfold Decode.addMethodAttribute
  split <;> simp_all
  rfl

theorem yields_parameter {parameter : ParameterNode} (h : ∀ text ∈ parameter.name, TextFits text) :
    Yields (Encode.parameter parameter) fun final bytes =>
      Reads (Decode.parameter final.toPool) bytes parameter := by
  apply (yields_optional fun text htext => yields_textIndex (h text htext)).bind_pure
  rintro final _ - ⟨index, rfl, hindex⟩
  exact reads_index hindex ((reads_uint16 _).bind_pure (reads_pure parameter))

theorem yields_parameters {parameters : List ParameterNode} (hcount : parameters.length < 256)
    (h : ∀ parameter ∈ parameters, ∀ text ∈ parameter.name, TextFits text) :
    Yields (Encode.concatM Encode.parameter parameters) fun final bytes =>
      Reads (Decode.parameters final.toPool) (parameters.length.toUInt8 :: bytes) parameters := by
  apply (yields_concatM fun parameter hparameter => yields_parameter (h parameter hparameter)).mono
  rintro final _ - ⟨chunks, rfl, hchunks⟩
  refine (reads_uint8 _).bind ?_
  rw [Bytes.toNat_toUInt8 hcount]
  exact reads_times hchunks

/-! Each piece sets one part of a method that has not got it yet. -/

variable (method : MethodNode)

theorem yields_exceptions {classes : List String} (hcount : classes.length < 65536)
    (hclasses : ∀ c ∈ classes, TextFits c) (hnone : method.exceptions = []) :
    Yields (Encode.someClasses "Exceptions" classes)
      (Tells Decode.addMethodAttribute (if classes.isEmpty then [] else ["Exceptions"]) method
        { method with exceptions := classes }) := by
  apply yields_someClasses (by decide) hcount hclasses
  · rintro rfl
    rw [← hnone]
  · intro pool bytes hbytes
    simp only [Decode.addMethodAttribute, hbytes.onBytes, bind, Except.bind]
    rfl

theorem yields_methodSignature {signature : Option String} (h : ∀ text ∈ signature, TextFits text)
    (hnone : method.signature = none) :
    Yields (Encode.optionalText "Signature" signature)
      (Tells Decode.addMethodAttribute (signature.toList.map fun _ => "Signature") method
        { method with signature }) := by
  apply yields_optionalText (by decide) h
  · rintro rfl
    rw [← hnone]
  · rintro pool index text rfl hindex
    simp only [Decode.addMethodAttribute, (reads_uint16 index).onBytes, bind, Except.bind, hindex]
    rfl

theorem yields_methodAnnotations {visible invisible : List AnnotationNode}
    (hvisible : AnnotationsFit visible) (hinvisible : AnnotationsFit invisible)
    (hnone : method.visibleAnnotations = []) (hnone' : method.invisibleAnnotations = []) :
    Yields (Encode.annotationAttributes visible invisible)
      (Tells Decode.addMethodAttribute (annotationNames visible invisible) method
        { method with visibleAnnotations := visible, invisibleAnnotations := invisible }) := by
  apply yields_annotationAttributes hvisible hinvisible
    (b := { method with visibleAnnotations := visible })
  · rintro rfl
    rw [← hnone]
  · rintro rfl
    rw [← hnone']
  · intro pool bytes hbytes
    simp only [Decode.addMethodAttribute, hbytes.onBytes, bind, Except.bind]
    rfl
  · intro pool bytes hbytes
    simp only [Decode.addMethodAttribute, hbytes.onBytes, bind, Except.bind]
    rfl

/-- The annotations of parameters, visible or invisible. -/
theorem yields_parameterAnnotationsAttribute {name : String} (hname : TextFits name)
    {lists : Option (List (List AnnotationNode))}
    (h : ∀ ls ∈ lists, ls.length < 256 ∧ ∀ nodes ∈ ls, AnnotationsFit nodes) {before after : MethodNode}
    (hnone : lists = none → after = before)
    (hadd : ∀ (pool : ConstantPool) (bytes : List UInt8) (ls : List (List AnnotationNode)),
      lists = some ls → Reads (Decode.parameterAnnotations pool) bytes ls →
        Decode.addMethodAttribute pool before ⟨name, bytes⟩ = .ok after) :
    Yields (Encode.parameterAnnotationsAttribute name lists)
      (Tells Decode.addMethodAttribute (lists.toList.map fun _ => name) before after) := by
  apply yields_optionalAttribute
    (fun ls => Encode.concatM (Encode.counted Encode.annotationNode) ls >>= fun bytes =>
      pure (ls.length.toUInt8 :: bytes))
    (fun ls final bytes => Reads (Decode.parameterAnnotations final.toPool) bytes ls) hname
  · rintro rfl
    exact ⟨rfl, hnone rfl⟩
  · rintro ls rfl
    obtain ⟨hcount, hlists⟩ := h ls rfl
    refine ⟨by simp only [Encode.parameterAnnotationsAttribute, bind_assoc, pure_bind], ?_, ?_⟩
    · exact (yields_parameterAnnotations hcount hlists).bind_pure fun _ _ _ hbytes => hbytes
    · intro final bytes hbytes
      exact hadd final.toPool bytes ls rfl hbytes

theorem yields_visibleParameters {lists : Option (List (List AnnotationNode))}
    (h : ∀ ls ∈ lists, ls.length < 256 ∧ ∀ nodes ∈ ls, AnnotationsFit nodes)
    (hnone : method.visibleParameterAnnotations = none) :
    Yields (Encode.parameterAnnotationsAttribute "RuntimeVisibleParameterAnnotations" lists)
      (Tells Decode.addMethodAttribute
        (lists.toList.map fun _ => "RuntimeVisibleParameterAnnotations") method
        { method with visibleParameterAnnotations := lists }) := by
  apply yields_parameterAnnotationsAttribute (by decide) h
  · rintro rfl
    rw [← hnone]
  · rintro pool bytes ls rfl hbytes
    simp only [Decode.addMethodAttribute, hbytes.onBytes, bind, Except.bind]
    rfl

theorem yields_invisibleParameters {lists : Option (List (List AnnotationNode))}
    (h : ∀ ls ∈ lists, ls.length < 256 ∧ ∀ nodes ∈ ls, AnnotationsFit nodes)
    (hnone : method.invisibleParameterAnnotations = none) :
    Yields (Encode.parameterAnnotationsAttribute "RuntimeInvisibleParameterAnnotations" lists)
      (Tells Decode.addMethodAttribute
        (lists.toList.map fun _ => "RuntimeInvisibleParameterAnnotations") method
        { method with invisibleParameterAnnotations := lists }) := by
  apply yields_parameterAnnotationsAttribute (by decide) h
  · rintro rfl
    rw [← hnone]
  · rintro pool bytes ls rfl hbytes
    simp only [Decode.addMethodAttribute, hbytes.onBytes, bind, Except.bind]
    rfl

theorem yields_annotationDefault {value : Option ElementValue} (h : ∀ v ∈ value, v.Fits)
    (hnone : method.annotationDefault = none) :
    Yields (Encode.annotationDefault value)
      (Tells Decode.addMethodAttribute (value.toList.map fun _ => "AnnotationDefault") method
        { method with annotationDefault := value }) := by
  apply yields_optionalAttribute Encode.elementValue ReadsValue (by decide)
  · rintro rfl
    exact ⟨rfl, by rw [← hnone]⟩
  · rintro v rfl
    refine ⟨rfl, yields_elementValue v (h v rfl), ?_⟩
    intro final bytes hbytes
    simp only [Decode.addMethodAttribute, hbytes.reads.onBytes, bind, Except.bind]
    rfl

theorem yields_parametersAttribute {parameters : List ParameterNode}
    (hcount : parameters.length < 256)
    (h : ∀ parameter ∈ parameters, ∀ text ∈ parameter.name, TextFits text)
    (hnone : method.parameters = []) :
    Yields (Encode.parametersAttribute parameters)
      (Tells Decode.addMethodAttribute (if parameters.isEmpty then [] else ["MethodParameters"]) method
        { method with parameters }) := by
  have hwrite : Encode.parametersAttribute parameters =
      (if parameters.isEmpty then pure [] else
        (Encode.concatM Encode.parameter parameters >>= fun rows =>
          pure (parameters.length.toUInt8 :: rows)) >>= fun bytes =>
            Encode.Attribute.named "MethodParameters" bytes >>= fun a => pure [a]) := by
    simp only [Encode.parametersAttribute, bind_assoc, pure_bind]
  have hrows : Yields (Encode.concatM Encode.parameter parameters >>= fun rows =>
      pure (parameters.length.toUInt8 :: rows)) fun final bytes =>
        Reads (Decode.parameters final.toPool) bytes parameters :=
    (yields_parameters hcount h).bind_pure fun _ _ _ hbytes => hbytes
  rw [hwrite]
  apply yields_listAttribute (by decide) hrows
  · rintro rfl
    rw [← hnone]
  · intro final bytes hbytes
    simp only [Decode.addMethodAttribute, hbytes.onBytes, bind, Except.bind, hnone, List.nil_append]
    rfl

/-- The code attribute of a method that has instructions, with a property of its bytes. -/
def TellsCode (method : MethodNode) (post : PoolBuilder → List UInt8 → Prop) (final : PoolBuilder)
    (written : List Encode.Attribute) : Prop :=
  if method.instructions.isEmpty then written = []
  else ∃ first data, written = [first] ∧ Spells final first ⟨"Code", data⟩ ∧ post final data

theorem yields_codeAttribute {settings : Encode.Settings} {keepAll : Bool} {version : UInt16}
    {owner : String} {post : PoolBuilder → List UInt8 → Prop}
    (h : method.instructions ≠ [] → Yields (Encode.code settings keepAll version owner method) post) :
    Yields (Encode.codeAttribute settings keepAll version owner method) (TellsCode method post) := by
  unfold Encode.codeAttribute
  cases hempty : method.instructions.isEmpty with
  | true =>
    apply yields_pure
    intro final _
    simp only [TellsCode, hempty, if_true]
  | false =>
    apply (h (fun hnil => by simp [hnil] at hempty)).bind
    intro data
    apply (yields_named (by decide) data).bind_pure
    intro final first _ hfirst hdata
    simp only [TellsCode, hempty, Bool.false_eq_true, if_false]
    exact ⟨first, data, rfl, hfirst, hdata⟩

/-- A method is read in two steps, and its code last of all. -/
def ReadsMethod (keepAll : Bool) (owner : String) (method : MethodNode)
    (post : PoolBuilder → List UInt8 → Prop) (final : PoolBuilder) (bytes : List UInt8) : Prop :=
  bytes.length < 4294967296 → ∃ pending,
    Reads (Decode.pendingMember { entries := final.entries }) bytes pending ∧
      if method.instructions.isEmpty then
        Decode.method final.toPool owner pending = .ok (method.shell keepAll)
      else ∃ data, data.length < 4294967296 ∧ post final data ∧
        Decode.method final.toPool owner pending =
          Decode.code final.toPool owner (method.shell keepAll) data

theorem code_notMem_otherNames {keepAll : Bool} (h : method.Fits keepAll) :
    "Code" ∉ method.otherNames keepAll := by
  have hraw : "Code" ∉ (keptAttributes keepAll method.attributes).map (·.name) := by
    intro hmem
    obtain ⟨raw, hraw, hname⟩ := List.mem_map.1 hmem
    apply (h.attributes raw hraw).2
    rw [hname]
    decide
  simp only [MethodNode.otherNames, annotationNames, List.mem_append, hraw]
  simp

theorem readsMethod_of_tells (owner : String) {keepAll : Bool} (h : method.Fits keepAll)
    {post : PoolBuilder → List UInt8 → Prop} {final : PoolBuilder} {first second : List UInt8}
    {code rest : List Encode.Attribute} (hname : ReadsIndex ConstantPool.utf8 method.name final first)
    (hdesc : ReadsIndex ConstantPool.utf8 method.desc final second)
    (hcode : TellsCode method post final code)
    (hrest : Tells Decode.addMethodAttribute (method.otherNames keepAll)
      { access := method.access, name := method.name, desc := method.desc }
      (method.shell keepAll) final rest) :
    ReadsMethod keepAll owner method post final
      (Bytes.ofUInt16 method.access ++ first ++ second ++ Encode.attributesBytes (code ++ rest)) := by
  intro hsize
  obtain ⟨raws, hspells, hnames, hadd⟩ := hrest
  have hcount : (if method.instructions.isEmpty then 0 else 1) + raws.length < 65536 := by
    have hlimit := h.count
    rw [MethodNode.attributeNames, List.length_append, ← hnames, List.length_map] at hlimit
    split at hlimit <;> simp_all
  have hother : raws.filter (·.name == "Code") = [] := by
    rw [List.filter_eq_nil_iff]
    intro raw hraw heq
    apply code_notMem_otherNames method h
    rw [← hnames, ← eq_of_beq heq]
    exact List.mem_map_of_mem hraw
  have hbytes : (Encode.attributesBytes (code ++ rest)).length < 4294967296 := by
    simp only [List.length_append] at hsize
    omega
  cases hempty : method.instructions.isEmpty with
  | true =>
    simp only [TellsCode, hempty, if_true] at hcode
    subst hcode
    refine ⟨_, reads_pendingMember hname hdesc hspells (by simpa [hempty] using hcount) hbytes, ?_⟩
    simp only [Decode.method, hadd, hother]
    rfl
  | false =>
    simp only [TellsCode, hempty, Bool.false_eq_true, if_false] at hcode
    obtain ⟨head, data, rfl, hhead, hdata⟩ := hcode
    have hall := List.Forall₂.cons hhead hspells
    have hcount' : (⟨"Code", data⟩ :: raws).length < 65536 := by
      rw [hempty, if_neg Bool.false_ne_true] at hcount
      rw [List.length_cons]
      omega
    refine ⟨_, reads_pendingMember hname hdesc hall hcount' hbytes, data, ?_, hdata, ?_⟩
    · have hlength : head.data.length = data.length := by rw [hhead.2]
      simp [Encode.attributesBytes, Encode.Attribute.bytes] at hbytes
      omega
    · have hadd' : List.foldlM (Decode.addMethodAttribute final.toPool)
          { access := method.access, name := method.name, desc := method.desc }
          (⟨"Code", data⟩ :: raws) = .ok (method.shell keepAll) := hadd
      simp only [Decode.method, hadd', List.filter_cons, hother]
      rfl

/-- A method that fits is read from the bytes that are written for it, as far as its code is. -/
theorem yields_method {settings : Encode.Settings} {keepAll : Bool} {version : UInt16} {owner : String}
    (h : method.Fits keepAll) {post : PoolBuilder → List UInt8 → Prop}
    (hcode : method.instructions ≠ [] →
      Yields (Encode.code settings keepAll version owner method) post) :
    Yields (Encode.method settings keepAll version owner method)
      (ReadsMethod keepAll owner method post) := by
  let bare : MethodNode := { access := method.access, name := method.name, desc := method.desc }
  let throwing : MethodNode := { bare with exceptions := method.exceptions }
  let signed : MethodNode := { throwing with signature := method.signature }
  let annotated : MethodNode :=
    { signed with
      visibleAnnotations := method.visibleAnnotations
      invisibleAnnotations := method.invisibleAnnotations }
  let visible : MethodNode :=
    { annotated with visibleParameterAnnotations := method.visibleParameterAnnotations }
  let invisible : MethodNode :=
    { visible with invisibleParameterAnnotations := method.invisibleParameterAnnotations }
  let defaulting : MethodNode := { invisible with annotationDefault := method.annotationDefault }
  let named : MethodNode := { defaulting with parameters := method.parameters }
  apply (yields_textIndex h.name).bind
  intro name
  apply (yields_textIndex h.desc).bind
  intro desc
  apply (yields_codeAttribute method hcode).bind
  intro code
  apply (yields_exceptions bare h.exceptions.1 h.exceptions.2 rfl).bind
  intro exceptions
  apply (yields_methodSignature throwing h.signature rfl).bind
  intro signature
  apply (yields_methodAnnotations signed h.visible h.invisible rfl rfl).bind
  intro annotations
  apply (yields_visibleParameters annotated h.visibleParameters rfl).bind
  intro visibleParameters
  apply (yields_invisibleParameters visible h.invisibleParameters rfl).bind
  intro invisibleParameters
  apply (yields_annotationDefault invisible h.default rfl).bind
  intro default
  apply (yields_parametersAttribute defaulting h.parameters.1 h.parameters.2 rfl).bind
  intro parameters
  apply (yields_rawAttributes (fun raw hraw => ⟨(h.attributes raw hraw).1,
    addMethodAttribute_of_notMem (h.attributes raw hraw).2⟩) named).bind_pure
  intro final raw _ hraw hparameters hdefault hinvisible hvisible hannotations hsignature
    hexceptions hcode hdesc hname
  rw [foldl_push MethodNode.attributes (fun method attributes => { method with attributes })
    (fun _ _ => rfl) (fun _ _ _ => rfl) (fun _ => rfl)] at hraw
  have hrest : Tells Decode.addMethodAttribute (method.otherNames keepAll) bare
      (method.shell keepAll) final (exceptions ++ signature ++ annotations ++ visibleParameters ++
        invisibleParameters ++ default ++ parameters ++ raw) :=
    ((((((hexceptions.append hsignature).append hannotations).append hvisible).append
      hinvisible).append hdefault).append hparameters).append hraw
  have hmethod := readsMethod_of_tells method owner h hname hdesc hcode hrest
  simpa only [List.append_assoc] using hmethod

/-- Reading a method, with a failure as a result. -/
def attemptMethod (owner : String) (pool : ConstantPool) (pending : Decode.PendingMember) :
    Except FormatError (Except FormatError MethodNode) :=
  .ok (Decode.method pool owner pending)

/-- What becomes of a method when it is read depends on its code alone. -/
theorem ReadsMethod.readsMember {method : MethodNode} {keepAll : Bool} {owner : String}
    {post : PoolBuilder → List UInt8 → Prop} {good : Except FormatError MethodNode → Prop}
    {final : PoolBuilder} {bytes : List UInt8} (h : ReadsMethod keepAll owner method post final bytes)
    (hshell : method.instructions = [] → good (.ok (method.shell keepAll)))
    (hcode : ∀ data, method.instructions ≠ [] → data.length < 4294967296 → post final data →
      good (Decode.code final.toPool owner (method.shell keepAll) data)) :
    ReadsMember (attemptMethod owner) good final bytes := by
  intro hsize
  obtain ⟨pending, hread, hdecode⟩ := h hsize
  refine ⟨pending, Decode.method final.toPool owner pending, hread, rfl, ?_⟩
  cases hempty : method.instructions.isEmpty with
  | true =>
    rw [hempty, if_pos rfl] at hdecode
    rw [hdecode]
    exact hshell (List.isEmpty_iff.1 hempty)
  | false =>
    rw [hempty] at hdecode
    obtain ⟨data, hlength, hpost, hdecode⟩ := hdecode
    have hne : method.instructions ≠ [] := by
      intro hnil
      rw [hnil] at hempty
      cases hempty
    rw [hdecode]
    exact hcode data hne hlength hpost

end PoolWriter
end JvmArchive
