import JvmArchive.Proofs.ClassFile.ClassAttributes

/-!
# Classes read back

A class as a whole: what its attributes tell, what stands behind the pool, and the file. How the code of
a method is read is left open, so that the statements serve for classes with code and without.
-/
namespace JvmArchive

namespace ClassNode
open PoolWriter

/-- The names of the attributes that are written for a class, its bootstrap table apart. -/
def attributeNames (keepAll : Bool) (node : ClassNode) : List String :=
  (node.sourceFile.toList.map fun _ => "SourceFile") ++
    (node.signature.toList.map fun _ => "Signature") ++
    (if node.innerClasses.isEmpty then [] else ["InnerClasses"]) ++
    (node.outerClass.toList.map fun _ => "EnclosingMethod") ++
    (node.nestHost.toList.map fun _ => "NestHost") ++
    (if node.nestMembers.isEmpty then [] else ["NestMembers"]) ++
    (if node.permittedSubclasses.isEmpty then [] else ["PermittedSubclasses"]) ++
    annotationNames node.visibleAnnotations node.invisibleAnnotations ++
    (keptAttributes keepAll node.attributes).map (·.name)

/-- All texts and numbers of a class fit where they are written, those of its code apart. -/
structure Fits (keepAll : Bool) (node : ClassNode) : Prop where
  name : TextFits node.name
  superName : ∀ text ∈ node.superName, TextFits text
  interfaces : node.interfaces.length < 65536 ∧ ∀ c ∈ node.interfaces, TextFits c
  fields : node.fields.length < 65536 ∧ ∀ field ∈ node.fields, field.Fits keepAll
  methods : node.methods.length < 65536 ∧ ∀ method ∈ node.methods, method.Fits keepAll
  sourceFile : ∀ text ∈ node.sourceFile, TextFits text
  signature : ∀ text ∈ node.signature, TextFits text
  innerClasses : node.innerClasses.length < 65536 ∧ ∀ inner ∈ node.innerClasses, inner.Fits
  enclosing : node.EnclosingFits
  nestHost : ∀ text ∈ node.nestHost, TextFits text
  nestMembers : node.nestMembers.length < 65536 ∧ ∀ c ∈ node.nestMembers, TextFits c
  permittedSubclasses :
    node.permittedSubclasses.length < 65536 ∧ ∀ c ∈ node.permittedSubclasses, TextFits c
  visible : AnnotationsFit node.visibleAnnotations
  invisible : AnnotationsFit node.invisibleAnnotations
  attributes : ∀ raw ∈ keptAttributes keepAll node.attributes,
    TextFits raw.name ∧ raw.name ∉ modelled
  count : (node.attributeNames keepAll).length + 1 < 65536

/-- A class of which only what stands before its members is known. -/
def header (node : ClassNode) (pool : ConstantPool) : ClassNode :=
  { minorVersion := node.minorVersion, majorVersion := node.majorVersion, access := node.access,
    name := node.name, superName := node.superName, interfaces := node.interfaces,
    sourcePool := some pool }

/-- What remains of a class without its members when it is written and read. -/
def shell (keepAll : Bool) (node : ClassNode) (pool : ConstantPool) : ClassNode :=
  { node with
    fields := [], methods := [], attributes := keptAttributes keepAll node.attributes,
    sourcePool := some pool }

end ClassNode

namespace PoolWriter
open PoolBuilder Reader

variable (node : ClassNode)

theorem yields_classAttributes {keepAll : Bool} (h : node.Fits keepAll) (pool : ConstantPool) :
    Yields (Encode.classAttributes keepAll node)
      (Tells Decode.addClassAttribute (node.attributeNames keepAll) (node.header pool)
        (node.shell keepAll pool)) := by
  let header := node.header pool
  let sourced : ClassNode := { header with sourceFile := node.sourceFile }
  let signed : ClassNode := { sourced with signature := node.signature }
  let inner : ClassNode := { signed with innerClasses := node.innerClasses }
  let enclosed : ClassNode :=
    { inner with
      outerClass := node.outerClass, outerMethod := node.outerMethod,
      outerMethodDesc := node.outerMethodDesc }
  let hosted : ClassNode := { enclosed with nestHost := node.nestHost }
  let nested : ClassNode := { hosted with nestMembers := node.nestMembers }
  let permitting : ClassNode := { nested with permittedSubclasses := node.permittedSubclasses }
  let annotated : ClassNode :=
    { permitting with
      visibleAnnotations := node.visibleAnnotations
      invisibleAnnotations := node.invisibleAnnotations }
  apply (yields_sourceFile header h.sourceFile rfl).bind
  intro source
  apply (yields_classSignature sourced h.signature rfl).bind
  intro signature
  apply (yields_innerClasses signed h.innerClasses.1 h.innerClasses.2 rfl).bind
  intro innerClasses
  apply (yields_enclosingMethod inner h.enclosing rfl rfl rfl).bind
  intro enclosing
  apply (yields_nestHost enclosed h.nestHost rfl).bind
  intro host
  apply (yields_nestMembers hosted h.nestMembers.1 h.nestMembers.2 rfl).bind
  intro members
  apply (yields_permittedSubclasses nested h.permittedSubclasses.1 h.permittedSubclasses.2 rfl).bind
  intro permitted
  apply (yields_classAnnotations permitting h.visible h.invisible rfl rfl).bind
  intro annotations
  apply (yields_rawAttributes (fun raw hraw => ⟨(h.attributes raw hraw).1,
    addClassAttribute_of_notMem (h.attributes raw hraw).2⟩) annotated).bind_pure
  intro final raw _ hraw hannotations hpermitted hmembers hhost henclosing hinner hsignature hsource
  rw [foldl_push ClassNode.attributes (fun node attributes => { node with attributes })
    (fun _ _ => rfl) (fun _ _ _ => rfl) (fun _ => rfl)] at hraw
  exact (((((((hsource.append hsignature).append hinner).append henclosing).append hhost).append
    hmembers).append hpermitted).append hannotations).append hraw

theorem bootstrap_notMem_attributeNames {keepAll : Bool} (h : node.Fits keepAll) :
    "BootstrapMethods" ∉ node.attributeNames keepAll := by
  have hraw : "BootstrapMethods" ∉ (keptAttributes keepAll node.attributes).map (·.name) := by
    intro hmem
    obtain ⟨raw, hraw, hname⟩ := List.mem_map.1 hmem
    apply (h.attributes raw hraw).2
    rw [hname]
    decide
  simp only [ClassNode.attributeNames, annotationNames, List.mem_append, hraw]
  simp

/-- The pool with the bootstrap table is the pool of the builder, whatever else the class has. -/
theorem withBootstrap_eq {final : PoolBuilder} (hcomplete : final.Complete) {raws : List RawAttribute}
    (hraws : "BootstrapMethods" ∉ raws.map (·.name)) {written : List Encode.Attribute}
    (h : TellsBootstrap final written) :
    ∃ tables : List RawAttribute, List.Forall₂ (Spells final) written tables ∧
      tables.length ≤ 1 ∧
      Decode.withBootstrap { entries := final.entries } (raws ++ tables) = .ok final.toPool ∧
      ∀ node : ClassNode, tables.foldlM (Decode.addClassAttribute final.toPool) node = .ok node := by
  have hnone : raws.find? (·.name == "BootstrapMethods") = none := by
    rw [List.find?_eq_none]
    intro raw hraw heq
    apply hraws
    rw [← eq_of_beq heq]
    exact List.mem_map_of_mem hraw
  cases hempty : final.bootstrap.isEmpty with
  | true =>
    rw [TellsBootstrap, hempty, if_pos rfl] at h
    refine ⟨[], by rw [h]; exact .nil, by simp, ?_, fun _ => rfl⟩
    have hrows : final.bootstrap = #[] := Array.isEmpty_iff.1 hempty
    simp only [Decode.withBootstrap, List.append_nil, hnone, PoolBuilder.toPool, hrows]
    rfl
  | false =>
    rw [TellsBootstrap, hempty] at h
    obtain ⟨first, rfl, hfirst⟩ := h
    refine ⟨[_], .cons hfirst .nil, by simp, ?_, fun _ => rfl⟩
    have htable := (reads_bootstrapTable hcomplete).onBytes
    simp only [Decode.withBootstrap, List.find?_append, hnone, Option.none_or, List.find?_cons,
      beq_self_eq_true, htable, bind, Except.bind, Array.toArray_toList]
    rfl

/-- The bytes behind the pool are those of a class, with a property of what becomes of its methods. -/
inductive TellsBody (keepAll : Bool) (node : ClassNode)
    (good : MethodNode → Except FormatError MethodNode → Prop) (final : PoolBuilder)
    (body : List UInt8) : Prop
  | intro {name super interfaces fields methods : List UInt8}
    {attributes bootstrap : List Encode.Attribute}
    (hbody : body = Bytes.ofUInt16 node.access ++ name ++ super ++ interfaces ++ fields ++ methods ++
      Encode.attributesBytes (attributes ++ bootstrap))
    (hname : ReadsIndex ConstantPool.className node.name final name)
    (hsuper : ReadsOptional ConstantPool.className node.superName final super)
    (hinterfaces : Reads (Decode.classNames final.toPool) interfaces node.interfaces)
    (hfields : ReadsCounted
      (fun field => ReadsMember Decode.field (· = FieldNode.kept keepAll field)) node.fields final
      fields)
    (hmethods : ReadsCounted
      (fun method => ReadsMember (attemptMethod node.name) (good method)) node.methods final methods)
    (hattributes : ∀ pool, Tells Decode.addClassAttribute (node.attributeNames keepAll)
      (node.header pool) (node.shell keepAll pool) final attributes)
    (hbootstrap : TellsBootstrap final bootstrap)

variable {node}

theorem classBody_spec {settings : Encode.Settings} (h : node.Fits node.sourcePool.isSome)
    {good : MethodNode → Except FormatError MethodNode → Prop}
    (hmethods : ∀ method ∈ node.methods,
      Yields (Encode.method settings node.sourcePool.isSome node.majorVersion node.name method)
        (ReadsMember (attemptMethod node.name) (good method)))
    {builder final : PoolBuilder} {body : List UInt8} (hvalid : builder.Valid)
    (hrun : Encode.classBody settings node builder = .ok (body, final)) :
    Grows builder final ∧
      (final.Complete → TellsBody node.sourcePool.isSome node good final body) := by
  obtain ⟨name, b₁, hrun, hgrows₁, hname⟩ := (yields_classIndex h.name).run_first hvalid hrun
  obtain ⟨super, b₂, hrun, hgrows₂, hsuper⟩ :=
    (yields_optional fun text htext => yields_classIndex (h.superName text htext)).run_first
      hgrows₁.valid hrun
  obtain ⟨interfaces, b₃, hrun, hgrows₃, hinterfaces⟩ :=
    (yields_classNames h.interfaces.1 h.interfaces.2).run_first hgrows₂.valid hrun
  obtain ⟨fields, b₄, hrun, hgrows₄, hfields⟩ :=
    (yields_countedEach fun field hfield => yields_field (h.fields.2 field hfield)).run_first
      hgrows₃.valid hrun
  obtain ⟨methods, b₅, hrun, hgrows₅, hmethods⟩ :=
    (yields_countedEach hmethods).run_first hgrows₄.valid hrun
  obtain ⟨attributes, b₆, hattributes, hrun⟩ := bind_ok hrun
  have hpieces := fun pool => yields_classAttributes node h pool _ _ _ hgrows₅.valid hattributes
  have hgrows₆ : Grows b₅ b₆ := (hpieces default).1
  obtain ⟨bootstrap, b₇, hbootstrap, hpure⟩ := bind_ok hrun
  cases hpure
  obtain ⟨hgrows₇, htable⟩ := bootstrapMethods_spec hgrows₆.valid hbootstrap
  have h₅ := hgrows₆.trans hgrows₇
  have h₄ := hgrows₅.trans h₅
  have h₃ := hgrows₄.trans h₄
  have h₂ := hgrows₃.trans h₃
  have h₁ := hgrows₂.trans h₂
  refine ⟨hgrows₁.trans h₁, fun hcomplete => ?_⟩
  exact ⟨rfl, hname _ h₁.toExtends hcomplete, hsuper _ h₂.toExtends hcomplete,
    hinterfaces _ h₃.toExtends hcomplete, hfields _ h₄.toExtends hcomplete,
    hmethods _ h₅.toExtends hcomplete,
    fun pool => (hpieces pool).2 _ hgrows₇.toExtends hcomplete, htable hcomplete⟩

theorem mapM_of_attempts {owner : String} {pool : ConstantPool}
    {pendings : List Decode.PendingMember} {results : List (Except FormatError MethodNode)}
    (h : pendings.mapM (attemptMethod owner pool) = .ok results) :
    pendings.mapM (Decode.method pool owner) = results.mapM id := by
  have hpure : pendings.mapM (attemptMethod owner pool) =
      .ok (pendings.map (Decode.method pool owner)) := List.mapM_pure
  rw [hpure] at h
  cases h
  rw [List.mapM_map]
  rfl

/-- The structure of a class file is read from its pieces in their order. -/
theorem reads_pendingClass (minor major : UInt16) (access : Access) {name : String}
    {super : Option String} {interfaces : List String} {final : PoolBuilder}
    {pendingFields pendingMethods : List Decode.PendingMember} {raws : List RawAttribute}
    {first second third fields methods attributes : List UInt8} (hcomplete : final.Complete)
    (hname : ReadsIndex ConstantPool.className name final first)
    (hsuper : ReadsOptional ConstantPool.className super final second)
    (hinterfaces : Reads (Decode.classNames final.toPool) third interfaces)
    (hfields : Reads (Reader.counted (Decode.pendingMember { entries := final.entries })) fields
      pendingFields)
    (hmethods : Reads (Reader.counted (Decode.pendingMember { entries := final.entries })) methods
      pendingMethods)
    (hattributes : Reads (Decode.rawAttributes { entries := final.entries }) attributes raws) :
    Reads Decode.pendingClass
      (Bytes.ofUInt32 0xCAFEBABE ++ Bytes.ofUInt16 minor ++ Bytes.ofUInt16 major ++
        ConstantPool.bytesOfEntries final.entries ++
        (Bytes.ofUInt16 access ++ first ++ second ++ third ++ fields ++ methods ++ attributes))
      ⟨minor, major, { entries := final.entries }, access, name, super, interfaces, pendingFields,
        pendingMethods, raws⟩ := by
  obtain ⟨i, rfl, -, hname⟩ := hname
  obtain ⟨j, rfl, hsuper⟩ := hsuper
  simp only [List.append_assoc]
  refine (reads_uint32 _).bind ?_
  refine (reads_uint16 _).bind ((reads_uint16 _).bind ?_)
  refine (ConstantPool.reads_read hcomplete.valid.laid hcomplete.size_lt).bind ?_
  refine (reads_uint16 _).bind (reads_index hname (reads_index hsuper ?_))
  refine Reads.bind hinterfaces ?_
  refine hfields.bind ?_
  refine hmethods.bind ?_
  exact hattributes.bind_pure (reads_pure _)

/-- A class is read from its bytes: its header, its fields and its attributes as they were, and its
methods as far as their code is. -/
theorem ofBytes_of_tellsBody {keepAll : Bool} (h : node.Fits keepAll)
    {good : MethodNode → Except FormatError MethodNode → Prop} {final : PoolBuilder}
    {body : List UInt8} (hcomplete : final.Complete) (hsize : body.length < 4294967296)
    (hbody : TellsBody keepAll node good final body) :
    ∃ results, List.Forall₂ good node.methods results ∧
      ClassNode.ofBytes (Bytes.ofUInt32 0xCAFEBABE ++ Bytes.ofUInt16 node.minorVersion ++
          Bytes.ofUInt16 node.majorVersion ++ ConstantPool.bytesOfEntries final.entries ++ body) =
        results.mapM id >>= fun methods => .ok
          { node.shell keepAll final.toPool with
            fields := node.fields.map (FieldNode.kept keepAll), methods } := by
  obtain ⟨rfl, hname, hsuper, hinterfaces, ⟨fields, rfl, hfields⟩, ⟨methods, rfl, hmethods⟩,
    hattributes, hbootstrap⟩ := hbody
  rename_i attributes bootstrap
  simp only [List.length_append] at hsize
  obtain ⟨pendingFields, fieldNodes, hcountFields, hreadFields, hdecodeFields, hsameFields⟩ :=
    hfields.members (by omega)
  obtain ⟨pendingMethods, results, hcountMethods, hreadMethods, hattempts, hgood⟩ :=
    hmethods.members (by omega)
  obtain ⟨raws, hspells, hnames, hadd⟩ := hattributes final.toPool
  have hnone : "BootstrapMethods" ∉ raws.map (·.name) := by
    rw [hnames]
    exact bootstrap_notMem_attributeNames node h
  obtain ⟨tables, htables, hone, hpool, hkeep⟩ := withBootstrap_eq hcomplete hnone hbootstrap
  have hcount : (raws ++ tables).length < 65536 := by
    have hraws : raws.length = (node.attributeNames keepAll).length := by
      rw [← hnames, List.length_map]
    have hlimit := h.count
    rw [List.length_append]
    omega
  have hreadAttributes :=
    reads_rawAttributes (show List.Forall₂ _ (attributes ++ bootstrap) (raws ++ tables) from
      List.rel_append hspells htables) hcount (by omega)
  have hread := reads_pendingClass node.minorVersion node.majorVersion node.access hcomplete hname
    hsuper hinterfaces (hreadFields h.fields.1) (hreadMethods h.methods.1) hreadAttributes
  have hfieldNodes : fieldNodes = node.fields.map (FieldNode.kept keepAll) := by
    have hsame : List.Forall₂ (· = ·) (node.fields.map (FieldNode.kept keepAll)) fieldNodes := by
      rw [List.forall₂_map_left_iff]
      exact hsameFields.imp fun _ _ hfield => hfield.symm
    rw [List.forall₂_eq_eq_eq] at hsame
    exact hsame.symm
  have haddAll : List.foldlM (Decode.addClassAttribute final.toPool) (node.header final.toPool)
      (raws ++ tables) = .ok (node.shell keepAll final.toPool) := by
    rw [List.foldlM_append, hadd]
    exact hkeep _
  refine ⟨results, hgood, ?_⟩
  rw [ClassNode.header] at haddAll
  rw [← mapM_of_attempts hattempts]
  simp only [ClassNode.ofBytes, hread.onBytes, bind, Except.bind, hpool, haddAll, hdecodeFields,
    hfieldNodes]
  rfl

/-- The parts of a class file. -/
theorem toBytes_ok {settings : Encode.Settings} {bytes : List UInt8}
    (h : node.toBytes settings = .ok bytes) :
    ∃ body final, Encode.classBody settings node (Encode.initialPool node) = .ok (body, final) ∧
      bytes = Bytes.ofUInt32 0xCAFEBABE ++ Bytes.ofUInt16 node.minorVersion ++
        Bytes.ofUInt16 node.majorVersion ++ ConstantPool.bytesOfEntries final.entries ++ body := by
  have hrun : node.toBytes settings =
      (Encode.classBody settings node (Encode.initialPool node)).bind fun result =>
        .ok (Bytes.ofUInt32 0xCAFEBABE ++ Bytes.ofUInt16 node.minorVersion ++
          Bytes.ofUInt16 node.majorVersion ++ ConstantPool.bytesOfEntries result.2.entries ++
          result.1) := rfl
  rw [hrun] at h
  cases hbody : Encode.classBody settings node (Encode.initialPool node) with
  | error error =>
    rw [hbody] at h
    cases h
  | ok result =>
    rw [hbody] at h
    cases h
    exact ⟨result.1, result.2, rfl, rfl⟩

end PoolWriter
end JvmArchive
