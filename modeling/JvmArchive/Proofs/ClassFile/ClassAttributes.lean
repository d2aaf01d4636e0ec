import JvmArchive.ClassFile.Decode.Class
import JvmArchive.Proofs.ClassFile.Methods

/-!
# The attributes of a class read back

Each piece sets one part of a class that has not got it yet; the bootstrap table comes last, when no
more rows can be asked for.
-/
namespace JvmArchive

def InnerClass.Fits (inner : InnerClass) : Prop :=
  TextFits inner.name ∧ (∀ text ∈ inner.outerName, TextFits text) ∧
    ∀ text ∈ inner.innerName, TextFits text

namespace ClassNode

/-- An enclosing method is stated with its name and its descriptor, and only in an enclosing class. -/
structure EnclosingFits (node : ClassNode) : Prop where
  outer : ∀ text ∈ node.outerClass, TextFits text
  name : ∀ text ∈ node.outerMethod, TextFits text
  desc : ∀ text ∈ node.outerMethodDesc, TextFits text
  both : node.outerMethod.isSome = node.outerMethodDesc.isSome
  inside : node.outerMethod.isSome → node.outerClass.isSome

/-- The names of the attributes of a class that are inside the model. -/
def modelled : List String :=
  ["SourceFile", "Signature", "InnerClasses", "EnclosingMethod", "NestHost", "NestMembers",
    "PermittedSubclasses", "RuntimeVisibleAnnotations", "RuntimeInvisibleAnnotations",
    "BootstrapMethods"]

end ClassNode

namespace PoolWriter
open PoolBuilder Reader

theorem addClassAttribute_of_notMem {raw : RawAttribute} (h : raw.name ∉ ClassNode.modelled)
    (pool : ConstantPool) (node : ClassNode) :
    Decode.addClassAttribute pool node raw =
      .ok { node with attributes := node.attributes ++ [raw] } := by
  simp only [ClassNode.modelled, List.mem_cons, List.not_mem_nil, not_or, or_false] at h
  unfold Decode.addClassAttribute
  split <;> simp_all
  rfl

variable (node : ClassNode)

theorem yields_sourceFile {text : Option String} (h : ∀ t ∈ text, TextFits t)
    (hnone : node.sourceFile = none) :
    Yields (Encode.optionalText "SourceFile" text)
      (Tells Decode.addClassAttribute (text.toList.map fun _ => "SourceFile") node
        { node with sourceFile := text }) := by
  apply yields_optionalText (by decide) h
  · rintro rfl
    rw [← hnone]
  · rintro pool index t rfl hindex
    simp only [Decode.addClassAttribute, (reads_uint16 index).onBytes, bind, Except.bind, hindex]
    rfl

theorem yields_classSignature {text : Option String} (h : ∀ t ∈ text, TextFits t)
    (hnone : node.signature = none) :
    Yields (Encode.optionalText "Signature" text)
      (Tells Decode.addClassAttribute (text.toList.map fun _ => "Signature") node
        { node with signature := text }) := by
  apply yields_optionalText (by decide) h
  · rintro rfl
    rw [← hnone]
  · rintro pool index t rfl hindex
    simp only [Decode.addClassAttribute, (reads_uint16 index).onBytes, bind, Except.bind, hindex]
    rfl

theorem yields_innerClass {inner : InnerClass} (h : inner.Fits) :
    Yields (Encode.innerClass inner) fun final bytes =>
      Reads (Decode.innerClass final.toPool) bytes inner := by
  obtain ⟨hname, houter, hsimple⟩ := h
  apply (yields_classIndex hname).bind
  intro name
  apply (yields_optional fun text htext => yields_classIndex (houter text htext)).bind
  intro outer
  apply (yields_optional fun text htext => yields_textIndex (hsimple text htext)).bind_pure
  rintro final _ - ⟨k, rfl, hk⟩ ⟨j, rfl, hj⟩ ⟨i, rfl, -, hi⟩
  rw [List.append_assoc, List.append_assoc]
  exact reads_index hi (reads_index hj (reads_index hk
    ((reads_uint16 _).bind_pure (reads_pure inner))))

theorem yields_innerClasses {rows : List InnerClass} (hcount : rows.length < 65536)
    (h : ∀ inner ∈ rows, inner.Fits) (hnone : node.innerClasses = []) :
    Yields (Encode.innerClasses rows)
      (Tells Decode.addClassAttribute (if rows.isEmpty then [] else ["InnerClasses"]) node
        { node with innerClasses := rows }) := by
  apply yields_listAttribute (by decide)
    (yields_counted Decode.innerClass hcount fun inner hinner => yields_innerClass (h inner hinner))
  · rintro rfl
    rw [← hnone]
  · intro final bytes hbytes
    simp only [Decode.addClassAttribute, hbytes.onBytes, bind, Except.bind, hnone, List.nil_append]
    rfl

theorem yields_enclosing {outer : String} {name desc : Option String} (houter : TextFits outer)
    (hname : ∀ text ∈ name, TextFits text) (hdesc : ∀ text ∈ desc, TextFits text)
    (hboth : name.isSome = desc.isSome) :
    Yields (Encode.classIndex outer >>= fun first => Encode.enclosingMethodIndex name desc >>= fun i =>
        pure (first ++ Bytes.ofUInt16 i))
      fun final bytes => Reads (Decode.enclosingMethod final.toPool) bytes
        (outer, name.bind fun n => desc.map fun d => (n, d)) := by
  apply (yields_classIndex houter).bind
  intro first
  match name, desc, hboth with
  | none, none, _ =>
    have hzero : Yields (Encode.enclosingMethodIndex none none) fun _ index => index = 0 :=
      yields_pure fun _ _ => rfl
    apply hzero.bind_pure
    rintro final _ - rfl ⟨index, rfl, -, hindex⟩
    exact reads_index hindex ((reads_uint16 0).bind_pure (reads_pure _))
  | some n, some d, _ =>
    apply (yields_nameAndType (hname n rfl) (hdesc d rfl)).bind_pure
    rintro final method - hmethod ⟨index, rfl, -, hindex⟩
    refine reads_index hindex ((reads_uint16 method).bind_pure ?_)
    rw [if_neg hmethod.ne_zero]
    exact (reads_lift hmethod.resolved).bind_nil (reads_pure _)

theorem yields_enclosingMethod {source : ClassNode} (h : source.EnclosingFits)
    (hclass : node.outerClass = none) (hmethod : node.outerMethod = none)
    (hdesc : node.outerMethodDesc = none) :
    Yields (Encode.enclosingMethod source)
      (Tells Decode.addClassAttribute (source.outerClass.toList.map fun _ => "EnclosingMethod") node
        { node with
          outerClass := source.outerClass, outerMethod := source.outerMethod,
          outerMethodDesc := source.outerMethodDesc }) := by
  apply yields_optionalAttribute
    (fun outer => Encode.classIndex outer >>= fun first =>
      Encode.enclosingMethodIndex source.outerMethod source.outerMethodDesc >>= fun i =>
        pure (first ++ Bytes.ofUInt16 i))
    (fun outer final bytes => Reads (Decode.enclosingMethod final.toPool) bytes
      (outer, source.outerMethod.bind fun n => source.outerMethodDesc.map fun d => (n, d)))
    (by decide)
  · intro houter
    have hname' : source.outerMethod = none := by
      by_contra hsome
      have hinside := h.inside (Option.isSome_iff_ne_none.2 hsome)
      rw [houter] at hinside
      cases hinside
    have hdesc' : source.outerMethodDesc = none := by
      rw [← Option.not_isSome_iff_eq_none, ← h.both, hname']
      simp
    refine ⟨by simp only [Encode.enclosingMethod, houter], ?_⟩
    rw [houter, hname', hdesc']
    cases node
    simp_all
  · intro outer houter
    refine ⟨by simp only [Encode.enclosingMethod, houter, bind_assoc, pure_bind],
      yields_enclosing (h.outer outer houter) h.name h.desc h.both, ?_⟩
    intro final bytes hbytes
    have hboth := h.both
    simp only [Decode.addClassAttribute, hbytes.onBytes, bind, Except.bind, houter]
    cases hname : source.outerMethod with
    | none =>
      have hdesc' : source.outerMethodDesc = none := by
        rw [← Option.not_isSome_iff_eq_none, ← hboth, hname]
        simp
      simp only [hdesc', hmethod, hdesc, Option.bind_none]
      rfl
    | some n =>
      obtain ⟨d, hd⟩ : ∃ d, source.outerMethodDesc = some d := by
        rw [← Option.isSome_iff_exists, ← hboth, hname]
        rfl
      rw [hd]
      rfl

theorem yields_nestHost {host : Option String} (h : ∀ t ∈ host, TextFits t)
    (hnone : node.nestHost = none) :
    Yields (Encode.nestHost host)
      (Tells Decode.addClassAttribute (host.toList.map fun _ => "NestHost") node
        { node with nestHost := host }) := by
  apply yields_optionalAttribute Encode.classIndex (ReadsIndex ConstantPool.className) (by decide)
  · rintro rfl
    exact ⟨rfl, by rw [← hnone]⟩
  · rintro t rfl
    refine ⟨rfl, yields_classIndex (h t rfl), ?_⟩
    rintro final _ ⟨index, rfl, -, hindex⟩
    simp only [Decode.addClassAttribute, (reads_uint16 index).onBytes, bind, Except.bind, hindex]
    rfl

theorem yields_nestMembers {classes : List String} (hcount : classes.length < 65536)
    (h : ∀ c ∈ classes, TextFits c) (hnone : node.nestMembers = []) :
    Yields (Encode.someClasses "NestMembers" classes)
      (Tells Decode.addClassAttribute (if classes.isEmpty then [] else ["NestMembers"]) node
        { node with nestMembers := classes }) := by
  apply yields_someClasses (by decide) hcount h
  · rintro rfl
    rw [← hnone]
  · intro pool bytes hbytes
    simp only [Decode.addClassAttribute, hbytes.onBytes, bind, Except.bind]
    rfl

theorem yields_permittedSubclasses {classes : List String} (hcount : classes.length < 65536)
    (h : ∀ c ∈ classes, TextFits c) (hnone : node.permittedSubclasses = []) :
    Yields (Encode.someClasses "PermittedSubclasses" classes)
      (Tells Decode.addClassAttribute (if classes.isEmpty then [] else ["PermittedSubclasses"]) node
        { node with permittedSubclasses := classes }) := by
  apply yields_someClasses (by decide) hcount h
  · rintro rfl
    rw [← hnone]
  · intro pool bytes hbytes
    simp only [Decode.addClassAttribute, hbytes.onBytes, bind, Except.bind]
    rfl

theorem yields_classAnnotations {visible invisible : List AnnotationNode}
    (hvisible : AnnotationsFit visible) (hinvisible : AnnotationsFit invisible)
    (hnone : node.visibleAnnotations = []) (hnone' : node.invisibleAnnotations = []) :
    Yields (Encode.annotationAttributes visible invisible)
      (Tells Decode.addClassAttribute (annotationNames visible invisible) node
        { node with visibleAnnotations := visible, invisibleAnnotations := invisible }) := by
  apply yields_annotationAttributes hvisible hinvisible
    (b := { node with visibleAnnotations := visible })
  · rintro rfl
    rw [← hnone]
  · rintro rfl
    rw [← hnone']
  · intro pool bytes hbytes
    simp only [Decode.addClassAttribute, hbytes.onBytes, bind, Except.bind]
    rfl
  · intro pool bytes hbytes
    simp only [Decode.addClassAttribute, hbytes.onBytes, bind, Except.bind]
    rfl

/-- A row of the bootstrap table. -/
theorem reads_bootstrapRow {row : BootstrapEntry} (h : row.arguments.length < 65536) :
    Reads (do
      let handle ← uint16
      let arguments ← Reader.counted uint16
      return ({ handle, arguments } : BootstrapEntry)) (Encode.bootstrapRow row) row := by
  have harguments : List.Forall₂ (Reads uint16) (row.arguments.map Bytes.ofUInt16) row.arguments := by
    rw [List.forall₂_map_left_iff]
    exact List.forall₂_same.2 fun index _ => reads_uint16 index
  rw [Encode.bootstrapRow, List.flatMap_def, List.append_assoc]
  exact (reads_uint16 _).bind ((reads_counted h harguments).bind_pure (reads_pure row))

/-- The bootstrap table is read as the rows of a complete builder. -/
theorem reads_bootstrapTable {builder : PoolBuilder} (h : builder.Complete) :
    Reads Decode.bootstrapTable
      (Bytes.ofNat16 builder.bootstrap.size ++ builder.bootstrap.toList.flatMap Encode.bootstrapRow)
      builder.bootstrap.toList := by
  rw [← Array.length_toList, List.flatMap_def]
  apply reads_counted
  · rw [Array.length_toList]
    exact h.rows_lt
  · rw [List.forall₂_map_left_iff]
    exact List.forall₂_same.2 fun row hrow =>
      reads_bootstrapRow (h.valid.arguments (Array.mem_toList_iff.1 hrow))

/-- The attribute of the bootstrap table, which is left out if the table is empty. -/
def TellsBootstrap (final : PoolBuilder) (written : List Encode.Attribute) : Prop :=
  if final.bootstrap.isEmpty then written = []
  else ∃ first, written = [first] ∧ Spells final first ⟨"BootstrapMethods",
    Bytes.ofNat16 final.bootstrap.size ++ final.bootstrap.toList.flatMap Encode.bootstrapRow⟩

/-- The table is written from the builder as it is left behind. -/
theorem bootstrapMethods_spec {builder final : PoolBuilder} {written : List Encode.Attribute}
    (hvalid : builder.Valid) (h : Encode.bootstrapMethods builder = .ok (written, final)) :
    Grows builder final ∧ (final.Complete → TellsBootstrap final written) := by
  have hrun : Encode.bootstrapMethods builder =
      (if builder.bootstrap.isEmpty then pure [] else
        PoolBuilder.utf8 "BootstrapMethods" >>= fun name => get >>= fun last =>
          pure [{ name, data := Bytes.ofNat16 last.bootstrap.size ++
            last.bootstrap.toList.flatMap Encode.bootstrapRow }] : PoolWriter _) builder := by
    rfl
  rw [hrun] at h
  cases hempty : builder.bootstrap.isEmpty with
  | true =>
    rw [hempty, if_pos rfl] at h
    cases h
    refine ⟨.refl hvalid, fun _ => ?_⟩
    simp only [TellsBootstrap, hempty, if_true]
  | false =>
    rw [hempty] at h
    obtain ⟨name, last, hname, hpure⟩ := bind_ok h
    cases hpure
    have htext : TextFits "BootstrapMethods" := by decide
    obtain ⟨hgrows, hpost⟩ := yields_utf8 htext _ _ _ hvalid hname
    have hwritable : (PoolEntry.utf8 "BootstrapMethods").Writable := htext
    have hrows : final.bootstrap = builder.bootstrap := (add_spec hvalid hwritable hname).2.2.1
    have hfinal : final.bootstrap.isEmpty = false := by rw [hrows, hempty]
    refine ⟨hgrows, fun hcomplete => ?_⟩
    simp only [TellsBootstrap, hfinal, Bool.false_eq_true, if_false]
    exact ⟨_, rfl, (hpost _ (.refl _) hcomplete).resolved, rfl⟩

end PoolWriter
end JvmArchive
