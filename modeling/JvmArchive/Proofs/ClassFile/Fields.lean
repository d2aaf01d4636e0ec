import JvmArchive.ClassFile.Decode.Member
import JvmArchive.Proofs.ClassFile.Attributes

/-!
# Fields read back
-/
namespace JvmArchive

/-- The texts of a constant fit, and its dynamic constants nest less deep than reading goes. -/
def Constant.Loadable (c : Constant) : Prop := c.Fits ∧ c.depth < ConstantPool.maxDepth

namespace FieldNode
open PoolWriter

/-- The names of the attributes that are written for a field. -/
def attributeNames (keepAll : Bool) (field : FieldNode) : List String :=
  (field.value.toList.map fun _ => "ConstantValue") ++
    (field.signature.toList.map fun _ => "Signature") ++
    annotationNames field.visibleAnnotations field.invisibleAnnotations ++
    (keptAttributes keepAll field.attributes).map (·.name)

/-- The names of the attributes of a field that are inside the model. -/
def modelled : List String :=
  ["ConstantValue", "Signature", "RuntimeVisibleAnnotations", "RuntimeInvisibleAnnotations"]

/-- All texts and numbers of a field fit where they are written. -/
structure Fits (keepAll : Bool) (field : FieldNode) : Prop where
  name : TextFits field.name
  desc : TextFits field.desc
  signature : ∀ text ∈ field.signature, TextFits text
  value : ∀ c ∈ field.value, c.Loadable
  visible : AnnotationsFit field.visibleAnnotations
  invisible : AnnotationsFit field.invisibleAnnotations
  attributes : ∀ raw ∈ keptAttributes keepAll field.attributes,
    TextFits raw.name ∧ raw.name ∉ modelled
  count : (field.attributeNames keepAll).length < 65536

/-- What remains of a field when it is written and read. -/
def kept (keepAll : Bool) (field : FieldNode) : FieldNode :=
  { field with attributes := keptAttributes keepAll field.attributes }

end FieldNode

namespace PoolWriter
open PoolBuilder Reader

/-- A member with a property is read from the bytes in two steps, unless they are too many for the
lengths in them: first with its attributes as bytes, then whole. -/
def ReadsMember {α : Type} (decode : ConstantPool → Decode.PendingMember → Except FormatError α)
    (good : α → Prop) (final : PoolBuilder) (bytes : List UInt8) : Prop :=
  bytes.length < 4294967296 → ∃ pending member,
    Reads (Decode.pendingMember { entries := final.entries }) bytes pending ∧
      decode final.toPool pending = .ok member ∧ good member

/-- Members behind their number. -/
theorem ReadsEach.members {α β : Type}
    {decode : ConstantPool → Decode.PendingMember → Except FormatError β} {good : α → β → Prop}
    {items : List α} {final : PoolBuilder} {bytes : List UInt8}
    (h : ReadsEach (fun item => ReadsMember decode (good item)) items final bytes)
    (hsize : bytes.length < 4294967296) :
    ∃ pendings members, pendings.length = items.length ∧
      (items.length < 65536 →
        Reads (Reader.counted (Decode.pendingMember { entries := final.entries }))
          (Bytes.ofNat16 items.length ++ bytes) pendings) ∧
      pendings.mapM (decode final.toPool) = .ok members ∧ List.Forall₂ good items members := by
  obtain ⟨chunks, rfl, hchunks⟩ := h
  have hall : ∃ pendings members,
      List.Forall₂ (Reads (Decode.pendingMember { entries := final.entries })) chunks pendings ∧
        pendings.mapM (decode final.toPool) = .ok members ∧ List.Forall₂ good items members := by
    induction hchunks with
    | nil => exact ⟨[], [], .nil, rfl, .nil⟩
    | @cons chunk item chunks items hitem _ ih =>
      rw [List.flatten_cons, List.length_append] at hsize
      obtain ⟨pending, member, hread, hdecode, hgood⟩ := hitem (by omega)
      obtain ⟨pendings, members, hreads, hdecodes, hgoods⟩ := ih (by omega)
      refine ⟨pending :: pendings, member :: members, .cons hread hreads, ?_, .cons hgood hgoods⟩
      rw [List.mapM_cons, hdecode, hdecodes]
      rfl
  obtain ⟨pendings, members, hreads, hdecodes, hgoods⟩ := hall
  have hlength : pendings.length = items.length := by
    rw [← hreads.length_eq, hchunks.length_eq]
  refine ⟨pendings, members, hlength, ?_, hdecodes, hgoods⟩
  intro hcount
  rw [← hlength] at hcount ⊢
  exact reads_counted hcount hreads

theorem reads_pendingMember {final : PoolBuilder} {access : Access} {name desc : String}
    {written : List Encode.Attribute} {raws : List RawAttribute} {first second : List UInt8}
    (hfirst : ReadsIndex ConstantPool.utf8 name final first)
    (hsecond : ReadsIndex ConstantPool.utf8 desc final second)
    (h : List.Forall₂ (Spells final) written raws) (hcount : raws.length < 65536)
    (hsize : (Encode.attributesBytes written).length < 4294967296) :
    Reads (Decode.pendingMember { entries := final.entries })
      (Bytes.ofUInt16 access ++ first ++ second ++ Encode.attributesBytes written)
      ⟨access, name, desc, raws⟩ := by
  obtain ⟨i, rfl, -, hname⟩ := hfirst
  obtain ⟨j, rfl, -, hdesc⟩ := hsecond
  rw [List.append_assoc, List.append_assoc]
  refine (reads_uint16 access).bind (reads_index hname (reads_index hdesc ?_))
  exact (reads_rawAttributes h hcount hsize).bind_pure (reads_pure _)

theorem addFieldAttribute_of_notMem {raw : RawAttribute} (h : raw.name ∉ FieldNode.modelled)
    (pool : ConstantPool) (field : FieldNode) :
    Decode.addFieldAttribute pool field raw =
      .ok { field with attributes := field.attributes ++ [raw] } := by
  simp only [FieldNode.modelled, List.mem_cons, List.not_mem_nil, not_or, or_false] at h
  unfold Decode.addFieldAttribute
  split <;> simp_all
  rfl

theorem yields_constantValue {value : Option Constant} (hvalue : ∀ c ∈ value, c.Loadable)
    {field : FieldNode} (hnone : field.value = none) :
    Yields (Encode.constantValue value)
      (Tells Decode.addFieldAttribute (value.toList.map fun _ => "ConstantValue") field
        { field with value }) := by
  apply yields_optionalAttribute
    (fun c => PoolBuilder.constant c >>= fun index => pure (Bytes.ofUInt16 index))
    (ReadsIndex ConstantPool.constant) (by decide)
  · rintro rfl
    exact ⟨rfl, by rw [← hnone]⟩
  · rintro c rfl
    obtain ⟨hfits, hdepth⟩ := hvalue c rfl
    refine ⟨by simp only [Encode.constantValue, bind_assoc, pure_bind], ?_, ?_⟩
    · apply (yields_constant c 32 hfits (Nat.le_of_lt_succ hdepth)).bind_pure
      intro final index _ hfound
      exact ⟨index, rfl, hfound.ne_zero, hfound.resolved⟩
    · rintro final _ ⟨index, rfl, -, hindex⟩
      simp only [Decode.addFieldAttribute, (reads_uint16 index).onBytes, bind, Except.bind, hindex]
      rfl

theorem yields_fieldSignature {signature : Option String} (h : ∀ text ∈ signature, TextFits text)
    {field : FieldNode} (hnone : field.signature = none) :
    Yields (Encode.optionalText "Signature" signature)
      (Tells Decode.addFieldAttribute (signature.toList.map fun _ => "Signature") field
        { field with signature }) := by
  apply yields_optionalText (by decide) h
  · rintro rfl
    rw [← hnone]
  · rintro pool index text rfl hindex
    simp only [Decode.addFieldAttribute, (reads_uint16 index).onBytes, bind, Except.bind, hindex]
    rfl

theorem yields_fieldAnnotations {visible invisible : List AnnotationNode}
    (hvisible : AnnotationsFit visible) (hinvisible : AnnotationsFit invisible) {field : FieldNode}
    (hnone : field.visibleAnnotations = []) (hnone' : field.invisibleAnnotations = []) :
    Yields (Encode.annotationAttributes visible invisible)
      (Tells Decode.addFieldAttribute (annotationNames visible invisible) field
        { field with visibleAnnotations := visible, invisibleAnnotations := invisible }) := by
  apply yields_annotationAttributes hvisible hinvisible
    (b := { field with visibleAnnotations := visible })
  · rintro rfl
    rw [← hnone]
  · rintro rfl
    rw [← hnone']
  · intro pool bytes hbytes
    simp only [Decode.addFieldAttribute, hbytes.onBytes, bind, Except.bind]
    rfl
  · intro pool bytes hbytes
    simp only [Decode.addFieldAttribute, hbytes.onBytes, bind, Except.bind]
    rfl

/-- A field that fits is read from the bytes that are written for it, but for the attributes outside the
model that are left out. -/
theorem yields_field {keepAll : Bool} {field : FieldNode} (h : field.Fits keepAll) :
    Yields (Encode.field keepAll field) (ReadsMember Decode.field (· = field.kept keepAll)) := by
  let bare : FieldNode := { access := field.access, name := field.name, desc := field.desc }
  let valued : FieldNode := { bare with value := field.value }
  let signed : FieldNode := { valued with signature := field.signature }
  let annotated : FieldNode :=
    { signed with
      visibleAnnotations := field.visibleAnnotations
      invisibleAnnotations := field.invisibleAnnotations }
  apply (yields_textIndex h.name).bind
  intro name
  apply (yields_textIndex h.desc).bind
  intro desc
  apply (yields_constantValue h.value (rfl : bare.value = none)).bind
  intro value
  apply (yields_fieldSignature h.signature (rfl : valued.signature = none)).bind
  intro signature
  apply (yields_fieldAnnotations h.visible h.invisible (rfl : signed.visibleAnnotations = []) rfl).bind
  intro annotations
  apply (yields_rawAttributes (fun raw hraw => ⟨(h.attributes raw hraw).1,
    addFieldAttribute_of_notMem (h.attributes raw hraw).2⟩) annotated).bind_pure
  intro final raw _ hraw hannotations hsignature hvalue hdesc hname hsize
  obtain ⟨raws, hspells, hnames, hadd⟩ :=
    ((hvalue.append hsignature).append hannotations).append hraw
  have hcount : raws.length < 65536 := by
    rw [← List.length_map, hnames]
    exact h.count
  refine ⟨_, _, reads_pendingMember hname hdesc hspells hcount ?_, ?_, rfl⟩
  · simp only [List.length_append] at hsize
    omega
  · rw [foldl_push FieldNode.attributes (fun field attributes => { field with attributes })
      (fun _ _ => rfl) (fun _ _ _ => rfl) (fun _ => rfl)] at hadd
    exact hadd

end PoolWriter
end JvmArchive
