import JvmArchive.Proofs.ClassFile.Code.Offsets
import JvmArchive.Proofs.ClassFile.Methods

/-!
# Code read back

The code attribute of a method is read as code that says the same: the same real instructions in order,
handlers, lines and local variables at the same places.
-/
namespace JvmArchive
open Instruction Encode

namespace MethodNode

/-- The names of the attributes of code that are inside the model. -/
def modelledOfCode : List String :=
  ["LineNumberTable", "LocalVariableTable", "LocalVariableTypeTable", "StackMapTable"]

/-- The instructions to be written fit, and so do all texts and tables of the code of a method. -/
structure CodeFits (keepAll : Bool) (method : MethodNode) (instructions : List Instruction) : Prop where
  fits : ∀ instruction ∈ instructions, instruction.Fits
  frames : ∀ frame, .frame frame ∈ instructions → frame.Fits
  frameCount : instructions.countP isFrame < 65536
  lineCount : (lines instructions).length < 65536
  handlers : (method.tryCatches.filter (TryCatch.isUsed instructions)).length < 65536 ∧
    ∀ block ∈ method.tryCatches, ∀ text ∈ block.catchType, TextFits text
  locals : method.localVariables.length < 65536 ∧ ∀ v ∈ method.localVariables, v.Fits
  attributes : ∀ raw ∈ PoolWriter.keptAttributes keepAll method.codeAttributes,
    TextFits raw.name ∧ raw.name ∉ modelledOfCode
  count : (PoolWriter.keptAttributes keepAll method.codeAttributes).length + 4 < 65536

/-- A local variable that is read: it says the same at the same places, and one that shares its range
and slot with no other keeps its signature. -/
structure SameVariable (xs ys : List Instruction) (declared : List LocalVariable)
    (v back : LocalVariable) : Prop where
  name : back.name = v.name
  desc : back.desc = v.desc
  index : back.index = v.index
  span : back.span ys = v.span xs
  placed : (v.span xs).1.isSome
  signature : (declared.map (LocalVariable.span xs)).count (v.span xs) = 1 →
    back.signature = v.signature

/-- What is read for a method whose code was written from prepared instructions. -/
structure SameCode (keepAll : Bool) (method : MethodNode) (prepared : PreparedCode)
    (back : MethodNode) : Prop where
  rest : back =
    { method.shell keepAll with
      instructions := back.instructions
      tryCatches := back.tryCatches
      localVariables := back.localVariables
      maxStack := prepared.maxStack
      maxLocals := prepared.maxLocals
      codeAttributes := PoolWriter.keptAttributes keepAll method.codeAttributes }
  instructions : List.Forall₂ (Matches (SamePlace prepared.instructions back.instructions))
    (real prepared.instructions) (real back.instructions)
  handlers : List.Forall₂ (SameHandler (SamePlace prepared.instructions back.instructions))
    (method.tryCatches.filter (TryCatch.isUsed prepared.instructions)) back.tryCatches
  lines : ∀ place < (real prepared.instructions).length,
    linesAt back.instructions place = linesAt prepared.instructions place
  linesWithin : ∀ line ∈ Instruction.lines back.instructions,
    ∃ place < (real prepared.instructions).length, placeOf back.instructions line.1 = some place
  locals : List.Forall₂
    (SameVariable prepared.instructions back.instructions method.localVariables)
    method.localVariables back.localVariables

end MethodNode

namespace Encode
open PoolBuilder PoolWriter Reader Decode

variable {places : List Nat} {isInstruction : Nat → Bool} {entryLocals : List VerificationType}

theorem marks_keptAttributes {raws : List RawAttribute}
    (h : ∀ raw ∈ raws, raw.name ∉ MethodNode.modelledOfCode) (pool : ConstantPool)
    (tables : CodeTables) :
    Marks places (raws.foldlM (addCodeAttribute pool isInstruction entryLocals) tables)
      fun _ later => later = { tables with attributes := raws.reverse ++ tables.attributes } := by
  induction raws generalizing tables with
  | nil => exact marks_pure fun _ => rfl
  | cons raw raws ih =>
    have hname := h raw List.mem_cons_self
    simp only [MethodNode.modelledOfCode, List.mem_cons, List.not_mem_nil, not_or, or_false] at hname
    have hadd : addCodeAttribute pool isInstruction entryLocals tables raw =
        pure { tables with attributes := raw :: tables.attributes } := by
      unfold addCodeAttribute
      split <;> simp_all
    rw [List.foldlM_cons, hadd, pure_bind, List.reverse_cons, List.append_assoc]
    exact ih (fun other hother => h other (List.mem_cons_of_mem _ hother)) _

variable (places isInstruction entryLocals) in
/-- The attributes outside the model are put to the tables. -/
theorem yields_keptAttributes {keepAll : Bool} {raws : List RawAttribute}
    (h : ∀ raw ∈ keptAttributes keepAll raws,
      TextFits raw.name ∧ raw.name ∉ MethodNode.modelledOfCode) :
    Yields (Encode.rawAttributes keepAll raws) fun final written =>
      written.length = (keptAttributes keepAll raws).length ∧
      Adds places isInstruction entryLocals
        (fun _ before after => after =
          { before with
            attributes := (keptAttributes keepAll raws).reverse ++ before.attributes })
        final written := by
  have hkept : ∀ raw ∈ keptAttributes keepAll raws,
      Yields (Encode.Attribute.named raw.name raw.data) fun final written =>
        Spells final written raw := by
    intro raw hraw
    exact yields_named (h raw hraw).1 raw.data
  apply (yields_mapM hkept).mono
  intro final written _ hwritten
  refine ⟨hwritten.length_eq, _, hwritten, fun tables => ?_⟩
  exact marks_keptAttributes (fun raw hraw => (h raw hraw).2) final.toPool tables

/-- Reading code step by step. -/
theorem code_run {pool : ConstantPool} {owner : String} {method : MethodNode}
    {maxStack maxLocals : UInt16} {bytes handlers attributes : List UInt8}
    {decoded : List (Nat × Instruction)} {tryCatches : List TryCatch} {raws : List RawAttribute}
    {tables : CodeTables} {found : List LocalVariable} {first second third last : LabelTable}
    (hbytes : bytes.length < 4294967296)
    (hinstructions : Decode.instructions pool bytes = .ok (decoded, first))
    (hhandlers : Reads (countedWithLabels (tryCatch pool) first) handlers (tryCatches, second))
    (hattributes : Reads (Decode.rawAttributes pool) attributes raws)
    (htables : raws.foldlM (addCodeAttribute pool
        (Std.HashSet.ofList (decoded.map (·.1))).contains (method.entryLocals owner)) {} second =
      .ok (tables, third))
    (hlocals : Decode.localVariables (fun offset => offset == bytes.length ||
        (Std.HashSet.ofList (decoded.map (·.1))).contains offset)
        tables.locals.reverse tables.signatures [] third = .ok (found, last))
    (hcount : countLabels (placeAll last tables decoded) = last.labels.size) :
    Decode.code pool owner method (Bytes.ofUInt16 maxStack ++ Bytes.ofUInt16 maxLocals ++
        Bytes.ofNat32 bytes.length ++ bytes ++ handlers ++ attributes) =
      .ok
        { method with
          instructions := placeAll last tables decoded
          tryCatches
          localVariables := found
          maxStack
          maxLocals
          codeAttributes := tables.attributes.reverse } := by
  have htake := reads_take bytes
  rw [← Bytes.toNat_toUInt32 hbytes] at htake
  apply Reads.onBytes
  simp only [List.append_assoc]
  apply (reads_uint16 maxStack).bind
  apply (reads_uint16 maxLocals).bind
  apply (reads_uint32 _).bind
  apply htake.bind
  apply (reads_lift hinstructions).bind_nil
  apply hhandlers.bind
  rw [← List.append_nil attributes]
  apply hattributes.bind
  apply (reads_lift htables).bind_nil
  apply (reads_lift hlocals).bind_nil
  dsimp only
  rw [if_neg (not_not.2 hcount)]
  exact reads_pure _

/-- Code whose instructions are not read is not read at all. -/
theorem code_fails {pool : ConstantPool} {owner : String} {method : MethodNode}
    {maxStack maxLocals : UInt16} {bytes : List UInt8} {error : FormatError}
    (hbytes : bytes.length < 4294967296) (h : Decode.instructions pool bytes = .error error)
    (rest : List UInt8) :
    Decode.code pool owner method (Bytes.ofUInt16 maxStack ++ Bytes.ofUInt16 maxLocals ++
      Bytes.ofNat32 bytes.length ++ bytes ++ rest) = .error error := by
  have htake := reads_take bytes
  rw [← Bytes.toNat_toUInt32 hbytes] at htake
  have hread : Decode.code pool owner method (Bytes.ofUInt16 maxStack ++ (Bytes.ofUInt16 maxLocals ++
      (Bytes.ofNat32 bytes.length ++ (bytes ++ []))) ++ rest) = .error error := by
    apply Fails.onBytes
    apply (reads_uint16 maxStack).bind_fails
    apply (reads_uint16 maxLocals).bind_fails
    apply (reads_uint32 _).bind_fails
    apply htake.bind_fails
    exact (fails_lift h).bind
  simpa only [List.append_nil, List.append_assoc] using hread

/-- What the attributes of the code have told in the end. -/
structure CodeTold (offset : Label → Except WriteError Nat) (isInstruction : Nat → Bool)
    (rows : List (Nat × UInt16)) (declared : List LocalVariable) (kept : List RawAttribute)
    (table : LabelTable) (tables : CodeTables) : Prop where
  lines : ∀ place, tables.lines.getD place [] =
    if isInstruction place then (numbersAt rows place).reverse else []
  labelled : ∀ row ∈ rows, isInstruction row.1 = true → (table.label? row.1).isSome
  locals : List.Forall₂ (RowFor offset) declared tables.locals.reverse
  signatures : tables.signatures = putSignatures (signatureRows declared tables.locals.reverse) ∅
  attributes : tables.attributes.reverse = kept

/-- The four kinds of attributes of the code, one after the other. -/
theorem codeTold_of_adds {offset : Label → Except WriteError Nat} {final : PoolBuilder}
    {rows : List (Nat × UInt16)} {declared : List LocalVariable} {kept : List RawAttribute}
    {lines locals frames raw : List Encode.Attribute}
    (hlines : Adds places isInstruction entryLocals (AddsLines isInstruction rows) final lines)
    (hlocals : Adds places isInstruction entryLocals (fun _ => AddsLocals offset declared) final locals)
    (hframes : Adds places isInstruction entryLocals
      (fun _ before after => after = { before with frames := after.frames }) final frames)
    (hraw : Adds places isInstruction entryLocals
      (fun _ before after => after =
        { before with attributes := kept.reverse ++ before.attributes }) final raw) :
    ∃ raws : List RawAttribute,
      List.Forall₂ (Spells final) (lines ++ locals ++ frames ++ raw) raws ∧
      Marks places (raws.foldlM (addCodeAttribute final.toPool isInstruction entryLocals) {})
        (CodeTold offset isInstruction rows declared kept) := by
  obtain ⟨raws, hspells, hadd⟩ := ((hlines.append hlocals).append hframes).append hraw
  refine ⟨raws, hspells, (hadd {}).mono ?_⟩
  rintro table after ⟨framed, ⟨located, ⟨lined, hlined, hlocated⟩, hframed⟩, rfl⟩
  obtain ⟨found, hfound, rfl⟩ := hlocated
  rw [hframed]
  obtain ⟨hsame, hget, hlabelled⟩ := hlined
  have hempty : lined.locals = [] ∧ lined.signatures = ∅ ∧ lined.attributes = [] := by
    rw [hsame]
    exact ⟨rfl, rfl, rfl⟩
  obtain ⟨hnolocals, hnosignatures, hnoattributes⟩ := hempty
  have hrows : (found.reverse ++ lined.locals).reverse = found := by simp [hnolocals]
  refine ⟨?_, hlabelled, ?_, ?_, ?_⟩
  · intro place
    have hplace := hget place
    rw [Std.HashMap.getD_empty, List.append_nil] at hplace
    exact hplace
  · show List.Forall₂ (RowFor offset) declared (found.reverse ++ lined.locals).reverse
    rwa [hrows]
  · show putSignatures _ lined.signatures = putSignatures (signatureRows declared _) ∅
    rw [hrows, hnosignatures]
  · simp [hnoattributes]

/-- The local variables of the tables are read with their places and signatures. -/
theorem CodeTold.marks_locals {offset : Label → Except WriteError Nat} {rows : List (Nat × UInt16)}
    {declared : List LocalVariable} {kept : List RawAttribute} {table : LabelTable}
    {tables : CodeTables} (h : CodeTold offset isInstruction rows declared kept table tables)
    (hmapped : Mapped offset places) {isBoundary : Nat → Bool}
    (hboundary : ∀ place ∈ places, isBoundary place = true) :
    Marks places (Decode.localVariables isBoundary tables.locals.reverse tables.signatures [])
      fun table found => List.Forall₂ (fun v back => SameLocal offset table v back ∧
        ∀ row, RowFor offset v row →
          (tables.locals.reverse.map rowKey).count (rowKey row) = 1 → back.signature = v.signature)
        declared found := by
  have hsignature : ∀ item ∈ declared.zip tables.locals.reverse,
      (tables.locals.reverse.map rowKey).count (rowKey item.2) = 1 →
        tables.signatures[rowKey item.2]? = item.1.signature := by
    intro item hitem hone
    rw [h.signatures]
    exact getElem?_putSignatures hitem hone Std.HashMap.getElem?_empty
  apply (marks_localVariables hmapped hboundary h.locals (fun _ => Nat.le_refl _) hsignature []).mono
  rintro table found ⟨more, rfl, hmore⟩
  exact hmore

variable {name : String} {instructions : List Instruction} {final : PoolBuilder} {layout : Layout}
  {table : LabelTable} {tables : CodeTables} {decoded : List (Nat × Instruction)}

theorem map_fst_of_decoded {offset : Label → Except WriteError Nat}
    {cells : List (Instruction × Nat × Bool)}
    (h : List.Forall₂ (Decoded offset table) (realCells cells) decoded) :
    decoded.map (·.1) = starts cells := by
  unfold starts
  rw [← realCells]
  generalize realCells cells = real at h
  induction h with
  | nil => rfl
  | cons hcell _ ih => rw [List.map_cons, List.map_cons, ih, hcell.1]

/-- Code that has been laid out, as it is read with all its labels. -/
structure ReadBack (name : String) (instructions : List Instruction) (final : PoolBuilder)
    (layout : Layout) (table : LabelTable) (decoded : List (Nat × Instruction)) : Prop where
  laid : LaidOut name instructions final layout
  sound : table.Sound (layout.places instructions)
  decoded : List.Forall₂ (Decoded (offsetOf name layout.labels) table)
    (realCells (layout.cells instructions)) decoded
  codeLength : table.codeLength = layout.size

namespace ReadBack

/-- Between the decoded instructions are the places of the layout. -/
theorem offsets_eq (h : ReadBack name instructions final layout table decoded) :
    Decode.offsets table decoded = layout.places instructions := by
  rw [Decode.offsets, map_fst_of_decoded h.decoded, h.codeLength, Layout.places]

/-- The decoded instructions say the same as those that were laid out. -/
theorem instructions_match (h : ReadBack name instructions final layout table decoded) :
    List.Forall₂ (Matches (Meets (offsetOf name layout.labels) table)) (real instructions)
      (decoded.map (·.2)) := by
  have hreal : real ((layout.cells instructions).map (·.1)) =
      (realCells (layout.cells instructions)).map (·.1) := List.filter_map
  rw [h.laid.entries] at hreal
  rw [hreal, List.forall₂_map_left_iff, List.forall₂_map_right_iff]
  exact h.decoded.imp fun _ _ hcell => hcell.2

theorem decoded_real (h : ReadBack name instructions final layout table decoded) :
    ∀ item ∈ decoded, item.2.isPseudo = false := by
  intro item hitem
  apply isPseudo_of_matches h.instructions_match
  · intro next hnext
    simpa [real] using (List.mem_filter.1 hnext).2
  · exact List.mem_map_of_mem hitem

theorem length_decoded (h : ReadBack name instructions final layout table decoded) :
    decoded.length = (real instructions).length := by
  rw [h.instructions_match.length_eq, List.length_map]

/-- All labels that were asked for are in the list. -/
theorem countLabels_eq (h : ReadBack name instructions final layout table decoded) :
    countLabels (placeAll table tables decoded) = table.labels.size := by
  rw [countLabels_placeAll h.decoded_real, h.offsets_eq, h.sound.countP_eq_size]

theorem placeOf_eq (h : ReadBack name instructions final layout table decoded) (tables : CodeTables)
    {place offset : Nat} {label : Label}
    (hplace : (layout.places instructions)[place]? = some offset)
    (hlabel : table.label? offset = some label) :
    placeOf (placeAll table tables decoded) label = some place := by
  rw [← h.offsets_eq] at hplace
  exact placeOf_placeAll tables h.sound h.decoded_real (h.offsets_eq ▸ h.sound.nodup) hplace hlabel

/-- Labels of the same offset name the same place. -/
theorem samePlace (h : ReadBack name instructions final layout table decoded) (tables : CodeTables)
    {label label' : Label} (hmeets : Meets (offsetOf name layout.labels) table label label') :
    SamePlace instructions (placeAll table tables decoded) label label' := by
  obtain ⟨offset, hoffset, hlabel⟩ := hmeets
  obtain ⟨place, hplace, hat⟩ := h.laid.offset_eq_ok.1 hoffset
  exact ⟨place, hplace, h.placeOf_eq tables hat hlabel⟩

/-- The rows of the line table at an offset are the lines at its place. -/
theorem numbersAt_eq (h : ReadBack name instructions final layout table decoded)
    {rows : List (Nat × UInt16)}
    (hrows : List.Forall₂ (LineAt (offsetOf name layout.labels)) (lines instructions) rows)
    {place offset : Nat} (hplace : (layout.places instructions)[place]? = some offset) :
    numbersAt rows offset = linesAt instructions place := by
  unfold numbersAt linesAt
  generalize lines instructions = written at hrows
  induction hrows with
  | nil => rfl
  | @cons line row written rows hline _ ih =>
    obtain ⟨hstart, hnumber⟩ := hline
    obtain ⟨other, hother, hat⟩ := h.laid.offset_eq_ok.1 hstart
    rw [List.filter_cons, List.filter_cons, hother]
    by_cases heq : other = place
    · subst heq
      rw [hplace] at hat
      cases hat
      simpa [hnumber] using ih
    · have hne : row.1 ≠ offset := by
        rintro rfl
        exact heq (h.laid.place_inj hat hplace)
      simpa [heq, hne] using ih

/-- The lines of a place before the end of the code come back. -/
theorem lines_eq (h : ReadBack name instructions final layout table decoded)
    (hisInstruction : ∀ offset, isInstruction offset = true ↔ offset ∈ decoded.map (·.1))
    {rows : List (Nat × UInt16)} {declared : List LocalVariable} {kept : List RawAttribute}
    (htold : CodeTold (offsetOf name layout.labels) isInstruction rows declared kept table tables)
    (hrows : List.Forall₂ (LineAt (offsetOf name layout.labels)) (lines instructions) rows)
    {place : Nat} (hplace : place < (real instructions).length) :
    linesAt (placeAll table tables decoded) place = linesAt instructions place := by
  have hlabelled : ∀ offset ∈ decoded.map (·.1), tables.lines.getD offset [] ≠ [] →
      (table.label? offset).isSome := by
    intro offset hoffset hne
    rw [htold.lines, if_pos ((hisInstruction offset).2 hoffset)] at hne
    obtain ⟨number, hnumber⟩ := List.exists_mem_of_ne_nil _ hne
    rw [List.mem_reverse, numbersAt, List.mem_map] at hnumber
    obtain ⟨row, hrow, -⟩ := hnumber
    rw [List.mem_filter, decide_eq_true_eq] at hrow
    obtain ⟨hmem, rfl⟩ := hrow
    exact htold.labelled row hmem ((hisInstruction row.1).2 hoffset)
  have hlt : place < (decoded.map (·.1)).length := by rwa [List.length_map, h.length_decoded]
  have hat := List.getElem?_eq_getElem hlt
  have hat' : (Decode.offsets table decoded)[place]? = some (decoded.map (·.1))[place] := by
    rw [Decode.offsets, List.getElem?_append_left hlt, hat]
  have hmem := List.mem_of_getElem? hat
  rw [linesAt_placeAll h.sound h.decoded_real (h.offsets_eq ▸ h.sound.nodup) hlabelled hat',
    if_pos hmem, htold.lines, if_pos ((hisInstruction _).2 hmem), List.reverse_reverse]
  exact h.numbersAt_eq hrows (h.offsets_eq ▸ hat')

/-- No line comes back at the end of the code. -/
theorem lines_within (h : ReadBack name instructions final layout table decoded)
    {line : Label × UInt16} (hline : line ∈ lines (placeAll table tables decoded)) :
    ∃ place < (real instructions).length,
      placeOf (placeAll table tables decoded) line.1 = some place := by
  rw [lines_placeAll h.decoded_real, List.mem_flatMap] at hline
  obtain ⟨offset, hoffset, hbefore⟩ := hline
  obtain ⟨place, hat⟩ := List.getElem?_of_mem hoffset
  have hlt := (List.getElem?_eq_some_iff.1 hat).1
  refine ⟨place, by rwa [List.length_map, h.length_decoded] at hlt, ?_⟩
  have hat' : (layout.places instructions)[place]? = some offset := by
    rw [← h.offsets_eq, Decode.offsets, List.getElem?_append_left hlt, hat]
  unfold linesBefore at hbefore
  cases hlabel : table.label? offset with
  | none =>
    rw [hlabel] at hbefore
    cases hbefore
  | some label =>
    rw [hlabel, List.mem_map] at hbefore
    obtain ⟨number, -, rfl⟩ := hbefore
    exact h.placeOf_eq tables hat' hlabel

/-- As many variables share a range and a slot as there are rows with their key. -/
theorem count_span (h : ReadBack name instructions final layout table decoded)
    {declared : List LocalVariable} {rows : List LocalRow}
    (hrows : List.Forall₂ (RowFor (offsetOf name layout.labels)) declared rows) {v : LocalVariable}
    {row : LocalRow} (hrow : RowFor (offsetOf name layout.labels) v row) :
    (rows.map rowKey).count (rowKey row) =
      (declared.map (LocalVariable.span instructions)).count (v.span instructions) := by
  induction hrows with
  | nil => rfl
  | @cons w other declared rows hother _ ih =>
    have hiff := h.laid.rowKey_eq_iff hother hrow
    rw [List.map_cons, List.map_cons, List.count_cons, List.count_cons, ih]
    simp only [beq_iff_eq, hiff]

/-- A local variable comes back with its places. -/
theorem sameVariable (h : ReadBack name instructions final layout table decoded)
    (tables : CodeTables) {declared : List LocalVariable} {rows : List LocalRow}
    (hrows : List.Forall₂ (RowFor (offsetOf name layout.labels)) declared rows)
    {v back : LocalVariable} (hsame : SameLocal (offsetOf name layout.labels) table v back)
    (hsignature : ∀ row, RowFor (offsetOf name layout.labels) v row →
      (rows.map rowKey).count (rowKey row) = 1 → back.signature = v.signature) :
    MethodNode.SameVariable instructions (placeAll table tables decoded) declared v back := by
  obtain ⟨start, stop, hstart, hstop, hlabel, hlabel'⟩ := hsame.range
  obtain ⟨a, ha, hat⟩ := h.laid.offset_eq_ok.1 hstart
  obtain ⟨b, hb, hat'⟩ := h.laid.offset_eq_ok.1 hstop
  have hspan := LocalVariable.span_eq ha hb
  refine ⟨hsame.name, hsame.desc, hsame.index, ?_, by rw [hspan]; rfl, ?_⟩
  · rw [hspan, LocalVariable.span_eq (h.placeOf_eq tables hat hlabel)
      (h.placeOf_eq tables (h.laid.place_max hat hat') hlabel'), hsame.index, ← Nat.max_assoc,
      Nat.max_self]
  · intro hone
    have hrow : RowFor (offsetOf name layout.labels) v
        { start := start.toUInt16, length := (stop - start).toUInt16, name := v.name,
          desc := v.desc, index := v.index } := ⟨start, stop, hstart, hstop, rfl⟩
    apply hsignature _ hrow
    rw [h.count_span hrows hrow, hone]

/-- All of the code comes back. -/
theorem sameCode {keepAll : Bool} {method back : MethodNode} {prepared : PreparedCode}
    (h : ReadBack name prepared.instructions final layout table decoded)
    (hisInstruction : ∀ offset, isInstruction offset = true ↔ offset ∈ decoded.map (·.1))
    {rows : List (Nat × UInt16)}
    (htold : CodeTold (offsetOf name layout.labels) isInstruction rows method.localVariables
      (keptAttributes keepAll method.codeAttributes) table tables)
    (hrows : List.Forall₂ (LineAt (offsetOf name layout.labels)) (lines prepared.instructions) rows)
    {tryCatches : List TryCatch}
    (hhandlers : List.Forall₂ (SameHandler (Meets (offsetOf name layout.labels) table))
      (method.tryCatches.filter (covers (offsetOf name layout.labels))) tryCatches)
    {found : List LocalVariable}
    (hlocals : List.Forall₂ (fun v back => SameLocal (offsetOf name layout.labels) table v back ∧
      ∀ row, RowFor (offsetOf name layout.labels) v row →
        (tables.locals.reverse.map rowKey).count (rowKey row) = 1 → back.signature = v.signature)
      method.localVariables found)
    (hback : back = { method.shell keepAll with
      instructions := placeAll table tables decoded
      tryCatches
      localVariables := found
      maxStack := prepared.maxStack
      maxLocals := prepared.maxLocals
      codeAttributes := tables.attributes.reverse }) : method.SameCode keepAll prepared back := by
  subst hback
  refine ⟨by rw [htold.attributes], ?_, ?_, ?_, ?_, ?_⟩
  · show List.Forall₂ _ _ (real (placeAll table tables decoded))
    rw [real_placeAll h.decoded_real]
    exact h.instructions_match.imp fun _ _ hmatches =>
      hmatches.mono fun _ _ hmeets => h.samePlace tables hmeets
  · rw [← h.laid.filter_covers]
    exact hhandlers.imp fun _ _ hsame =>
      { start := h.samePlace tables hsame.start
        stop := h.samePlace tables hsame.stop
        handler := h.samePlace tables hsame.handler
        catchType := hsame.catchType }
  · intro place hplace
    exact h.lines_eq hisInstruction htold hrows hplace
  · intro line hline
    exact h.lines_within hline
  · exact hlocals.imp fun v back hsame => h.sameVariable tables htold.locals hsame.1 hsame.2

end ReadBack

/-- Before anything is read no place of a layout has a label. -/
theorem LaidOut.sound_empty (h : LaidOut name instructions final layout) :
    LabelTable.Sound (layout.places instructions) { codeLength := layout.size } := by
  apply LabelTable.sound_empty (h.ascending.imp fun hlt => Nat.ne_of_lt hlt)
  · intro place hplace
    exact h.le_size hplace
  · have hfew := h.fills.length_starts
    have hmax : layout.size ≤ 65535 := h.size_le
    rw [Layout.places, List.length_append, List.length_singleton]
    omega

theorem Layout.isStart_iff {offset : Nat} :
    layout.isStart instructions offset = true ↔ offset ∈ starts (layout.cells instructions) := by
  rw [Layout.isStart, Std.HashSet.contains_ofList, List.contains_iff_mem]

/-- Each place of a layout is its end, or an instruction starts there. -/
theorem Layout.isBoundary_of_mem {place : Nat} (h : place ∈ layout.places instructions) :
    (place == layout.size || layout.isStart instructions place) = true := by
  rw [Layout.places, List.mem_append, List.mem_singleton] at h
  rw [Bool.or_eq_true, beq_iff_eq, Layout.isStart_iff]
  exact h.symm

/-- What is collected from a layout is as long as the layout says, and holds its real instructions. -/
theorem LaidOut.tells_chunks (h : LaidOut name instructions final layout) {parts : CodeParts}
    (hparts : Collects (offsetOf name layout.labels) (layout.places instructions)
      (layout.cells instructions) {} final parts) :
    parts.size = layout.size ∧ ∃ chunks : List (List UInt8),
      parts.chunks.reverse.flatten = chunks.flatten ∧ chunks.flatten.length = layout.size ∧
        TellsCells (offsetOf name layout.labels) (layout.places instructions)
          (layout.cells instructions) final chunks := by
  obtain ⟨chunks, hflatten, hlength, hcode⟩ := hparts.code
  obtain ⟨hstop, htells⟩ := hcode layout.size h.fills h.allSited
  refine ⟨hstop, chunks, hflatten, ?_, htells⟩
  rw [← hstop, hlength, Nat.zero_add]

theorem mem_of_mem_cells {layout : Layout} {instructions : List Instruction}
    {cell : Instruction × Nat × Bool} (h : cell ∈ layout.cells instructions) :
    cell.1 ∈ instructions := (List.of_mem_zip h).1

theorem mem_of_mem_framesOf {frame : Nat × StackFrame}
    (h : frame ∈ framesOf (layout.cells instructions) []) : .frame frame.2 ∈ instructions := by
  rcases mem_framesOf h with hnil | ⟨wide, hcell⟩
  · cases hnil
  · exact mem_of_mem_cells hcell

theorem countP_isFrame_eq_zero (h : ∀ frame, .frame frame ∉ instructions) :
    instructions.countP isFrame = 0 := by
  rw [List.countP_eq_zero]
  intro instruction hinstruction hframe
  cases instruction with
  | frame frame => exact h frame hinstruction
  | _ => cases hframe

/-- Code that is laid out, written and spelled in the finished pool is read as the same code. -/
theorem code_of_written {keepAll : Bool} {owner : String} {method : MethodNode}
    {prepared : PreparedCode} {parts : CodeParts} {handlers : List UInt8}
    {written : List Encode.Attribute} {raws : List RawAttribute}
    (hlaid : LaidOut name prepared.instructions final layout)
    (hcross : ∀ instruction ∈ prepared.instructions, instruction.crosses = false)
    (hparts : Collects (offsetOf name layout.labels) (layout.places prepared.instructions)
      (layout.cells prepared.instructions) {} final parts)
    (hhandlers : Asks (layout.places prepared.instructions)
      (countedWithLabels (tryCatch final.toPool)) handlers fun table found =>
        List.Forall₂ (SameHandler (Meets (offsetOf name layout.labels) table))
          (method.tryCatches.filter (covers (offsetOf name layout.labels))) found)
    (hspells : List.Forall₂ (Spells final) written raws)
    (hmarks : Marks (layout.places prepared.instructions)
      (raws.foldlM (addCodeAttribute final.toPool
        (layout.isStart prepared.instructions) (method.entryLocals owner)) {})
      (CodeTold (offsetOf name layout.labels) (layout.isStart prepared.instructions)
        parts.lines.reverse method.localVariables
        (keptAttributes keepAll method.codeAttributes)))
    (hcount : raws.length < 65536) (hsize : (attributesBytes written).length < 4294967296) :
    ∃ back, Decode.code final.toPool owner (method.shell keepAll)
        (Bytes.ofUInt16 prepared.maxStack ++ Bytes.ofUInt16 prepared.maxLocals ++
          Bytes.ofNat32 parts.size ++ parts.chunks.reverse.flatten ++ handlers ++
          attributesBytes written) = .ok back ∧
      method.SameCode keepAll prepared back := by
  obtain ⟨hstop, chunks, hbytes, hcodeSize, htells⟩ := hlaid.tells_chunks hparts
  obtain ⟨rows, hrows, hlines⟩ := hparts.lines
  have hlines' : parts.lines.reverse = rows := by simp [hrows]
  have hsound := hlaid.sound_empty
  rw [← hcodeSize] at hsound
  -- Each stage starts from the labels of the one before.
  obtain ⟨decoded, first, hdecode, hfirst, hfirstLength, hdecoded⟩ :=
    instructions_of_tellsCells hlaid.fills htells
      (fun cell hcell => hcross cell.1 (mem_of_mem_cells hcell)) hsound
  obtain ⟨tryCatches, second, hreadHandlers, hsecond, hextends, hsameHandlers⟩ :=
    hhandlers first hfirst
  obtain ⟨tables, third, hreadTables, hthird, hextends', htold⟩ := hmarks second hsecond
  have hstarts := map_fst_of_decoded (hdecoded first (.refl first))
  have hboundary : ∀ place ∈ layout.places prepared.instructions,
      (place == chunks.flatten.length ||
        (Std.HashSet.ofList (decoded.map (·.1))).contains place) = true := by
    intro place hplace
    rw [hcodeSize, hstarts]
    exact Layout.isBoundary_of_mem hplace
  obtain ⟨found, last, hreadLocals, hlast, hextends'', hlocals⟩ :=
    (htold third (.refl third)).marks_locals hlaid.mapped hboundary third hthird
  have hback : ReadBack name prepared.instructions final layout last decoded :=
    { laid := hlaid
      sound := hlast
      decoded := hdecoded last (hextends.trans (hextends'.trans hextends''))
      codeLength := by
        rw [hextends''.codeLength, hextends'.codeLength, hextends.codeLength, hfirstLength,
          hcodeSize] }
  have hmax : layout.size ≤ 65535 := hlaid.size_le
  have hisInstruction : ∀ offset,
      layout.isStart prepared.instructions offset = true ↔ offset ∈ decoded.map (·.1) := by
    intro offset
    rw [hstarts]
    exact Layout.isStart_iff
  rw [hlaid.entries, ← hlines'] at hlines
  rw [Layout.isStart, ← hstarts] at hreadTables
  rw [hbytes, hstop, ← hcodeSize]
  refine ⟨_, code_run (by omega) hdecode hreadHandlers
    (reads_rawAttributes hspells hcount hsize) hreadTables hreadLocals hback.countLabels_eq, ?_⟩
  exact hback.sameCode hisInstruction (htold last hextends'') hlines
    (hsameHandlers last (hextends'.trans hextends'')) (hlocals last (.refl last)) rfl

/-- Code in which the bounds of a switch cross is written, but what is written is not read. -/
theorem code_of_crosses {owner : String} {method : MethodNode} {maxStack maxLocals : UInt16}
    {parts : CodeParts} (hlaid : LaidOut name instructions final layout)
    (hcross : ∃ instruction ∈ instructions, instruction.crosses = true)
    (hparts : Collects (offsetOf name layout.labels) (layout.places instructions)
      (layout.cells instructions) {} final parts) (rest : List UInt8) :
    ∃ detail, Decode.code final.toPool owner method (Bytes.ofUInt16 maxStack ++
      Bytes.ofUInt16 maxLocals ++ Bytes.ofNat32 parts.size ++ parts.chunks.reverse.flatten ++
        rest) = .error (.malformed "tableswitch" detail) := by
  obtain ⟨hstop, chunks, hbytes, hcodeSize, htells⟩ := hlaid.tells_chunks hparts
  have hsound := hlaid.sound_empty
  rw [← hcodeSize] at hsound
  have hcells : ∃ cell ∈ layout.cells instructions, cell.1.crosses = true := by
    obtain ⟨instruction, hmem, hcrosses⟩ := hcross
    rw [← hlaid.entries] at hmem
    obtain ⟨cell, hcell, rfl⟩ := List.mem_map.1 hmem
    exact ⟨cell, hcell, hcrosses⟩
  obtain ⟨detail, hfails⟩ := instructions_of_crosses hlaid.fills htells hcells hsound
  have hmax : layout.size ≤ 65535 := hlaid.size_le
  rw [hbytes, hstop, ← hcodeSize]
  exact ⟨detail, code_fails (by omega) hfails rest⟩

/-- The frames that are collected are among those of the code, and not more than these. -/
theorem LaidOut.frames_spec (h : LaidOut name instructions final layout) :
    (framesOf (layout.cells instructions) []).length ≤ instructions.countP isFrame ∧
      Ascends 0 (framesOf (layout.cells instructions) []).reverse ∧
      ∀ frame ∈ framesOf (layout.cells instructions) [],
        frame.1 ∈ layout.places instructions := by
  refine ⟨?_, ascends_framesOf h.fills, ?_⟩
  · have hle := length_framesOf_le (layout.cells instructions) []
    have hcount : instructions.countP isFrame =
        (layout.cells instructions).countP fun cell => cell.1.isFrame := by
      conv_lhs => rw [← h.entries, List.countP_map]
      rfl
    rw [hcount]
    simpa using hle
  · intro frame hframe
    rcases mem_framesOf hframe with hnil | ⟨wide, hcell⟩
    · cases hnil
    · exact h.fills.mem_places hcell

/-- The lines that are collected stand at places of the layout. -/
theorem LaidOut.lines_spec (h : LaidOut name instructions final layout) {rows : List (Nat × UInt16)}
    (hrows : List.Forall₂ (LineAt (offsetOf name layout.labels)) (lines instructions) rows) :
    ∀ row ∈ rows, row.1 ∈ layout.places instructions := by
  generalize lines instructions = written at hrows
  induction hrows with
  | nil => simp
  | cons hline _ ih =>
    rw [List.forall_mem_cons]
    exact ⟨h.mapped.mem hline.1, ih⟩

/-- What is known of the code attribute of a method in the finished pool. -/
structure ReadsCodeOf (keepAll : Bool) (owner : String) (method : MethodNode)
    (prepared : PreparedCode) (final : PoolBuilder) (data : List UInt8) : Prop where
  reads : (∀ instruction ∈ prepared.instructions, instruction.crosses = false) →
    data.length < 4294967296 →
      ∃ back, Decode.code final.toPool owner (method.shell keepAll) data = .ok back ∧
        method.SameCode keepAll prepared back
  refuses : (∃ instruction ∈ prepared.instructions, instruction.crosses = true) →
    ∃ detail, Decode.code final.toPool owner (method.shell keepAll) data =
      .error (.malformed "tableswitch" detail)
  small : (∀ frame, .frame frame ∉ prepared.instructions) →
    keptAttributes keepAll method.codeAttributes = [] → data.length < 4294967296

/-- Code that fits is written so that it is read as the same code, unless the bounds of a switch cross. -/
theorem yields_code {settings : Settings} {keepAll : Bool} {version : UInt16} {owner : String}
    {method : MethodNode}
    (h : ∀ prepared, prepare settings.frames version owner method settings.common = .ok prepared →
      method.CodeFits keepAll prepared.instructions) :
    Yields (Encode.code settings keepAll version owner method) fun final data =>
      ∃ prepared, prepare settings.frames version owner method settings.common = .ok prepared ∧
        ReadsCodeOf keepAll owner method prepared final data := by
  apply yields_lift_bind
  intro prepared hprepared
  have hfits := h prepared hprepared
  apply (yields_layout (methodText owner method) hfits.fits).bind
  intro layout
  have hcells : ∀ cell ∈ layout.cells prepared.instructions, cell.1.Fits :=
    fun cell hcell => hfits.fits cell.1 (mem_of_mem_cells hcell)
  apply (yields_codeParts (offsetOf (methodText owner method) layout.labels)
    (layout.places prepared.instructions) hcells {}).bind_of
  rintro parts ⟨builder, later, hrun⟩
  have hframes : parts.frames = framesOf (layout.cells prepared.instructions) [] :=
    frames_of_codeParts hrun
  have hframesFit : ∀ frame ∈ parts.frames.reverse, frame.2.Fits := by
    intro frame hframe
    rw [hframes, List.mem_reverse] at hframe
    exact hfits.frames frame.2 (mem_of_mem_framesOf hframe)
  apply (yields_handlers (offsetOf (methodText owner method) layout.labels)
    (layout.places prepared.instructions) hfits.handlers.2).bind
  intro handlers
  apply (yields_lineNumbers (layout.places prepared.instructions)
    (layout.isStart prepared.instructions) (method.entryLocals owner) parts.lines.reverse).bind
  intro lines
  apply (yields_localVariables (offsetOf (methodText owner method) layout.labels)
    (layout.places prepared.instructions) (layout.isStart prepared.instructions)
    (method.entryLocals owner) hfits.locals.1 hfits.locals.2).bind
  intro locals
  apply (yields_stackMaps (offsetOf (methodText owner method) layout.labels)
    (layout.places prepared.instructions) (layout.isStart prepared.instructions) hframesFit).bind
  intro frames
  apply (yields_keptAttributes (layout.places prepared.instructions)
    (layout.isStart prepared.instructions) (method.entryLocals owner) hfits.attributes).bind_pure
  intro final raw hvalid hraw hstackMaps hlocals hlines hhandlers hparts hlaid
  obtain ⟨rows, hrows, hlineAt⟩ := hparts.lines
  rw [hlaid.entries] at hlineAt
  have hrowsEq : parts.lines.reverse = rows := by simp [hrows]
  have hrowCount : rows.length < 65536 := hlineAt.length_eq ▸ hfits.lineCount
  have hplaces := hlaid.lines_spec hlineAt
  obtain ⟨hfewFrames, hascends, hframePlaces⟩ := hlaid.frames_spec
  rw [hframes, List.length_reverse] at hstackMaps
  obtain ⟨hstackMapsLength, hstackMaps⟩ := hstackMaps
  obtain ⟨hlinesLength, hlinesBytes, hlines⟩ := hlines
  obtain ⟨hlocalsLength, hlocalsBytes, hlocals⟩ := hlocals
  obtain ⟨hrawLength, hraw⟩ := hraw
  have hhandlersCount := hfits.handlers.1
  rw [← hlaid.filter_covers] at hhandlersCount
  obtain ⟨hhandlersBytes, hhandlers⟩ := hhandlers hlaid.mapped hhandlersCount
  rw [hrowsEq] at hlines hlinesBytes
  have hframeCount := hfits.frameCount
  obtain ⟨raws, hspells, hmarks⟩ := codeTold_of_adds
    (hlines hrowCount (fun row hrow => hlaid.mapped.lt _ (hplaces row hrow))
      fun row hrow _ => hplaces row hrow)
    hlocals
    (hstackMaps hlaid.mapped (by omega) hascends fun frame hframe =>
      hframePlaces frame (List.mem_reverse.1 hframe))
    hraw
  have hcount : raws.length < 65536 := by
    have hkept := hfits.count
    rw [← hspells.length_eq, List.length_append, List.length_append, List.length_append]
    omega
  refine ⟨prepared, hprepared, ?_, ?_, ?_⟩
  · intro hcross hsize
    apply code_of_written hlaid hcross hparts hhandlers hspells (hrowsEq ▸ hmarks) hcount
    rw [List.length_append] at hsize
    omega
  · intro hcross
    rw [List.append_assoc _ handlers]
    exact code_of_crosses hlaid hcross hparts _
  · intro hnoframes hnoraw
    have hzero := countP_isFrame_eq_zero hnoframes
    have hframesNil : frames = [] := List.length_eq_zero_iff.1 (by omega)
    have hrawNil : raw = [] := List.length_eq_zero_iff.1 (by rw [hrawLength, hnoraw]; rfl)
    obtain ⟨-, chunks, hbytes, hcode, -⟩ := hlaid.tells_chunks hparts
    have hmax : layout.size ≤ 65535 := hlaid.size_le
    have hdeclared := hfits.locals.1
    rw [hframesNil, hrawNil, List.append_nil, List.append_nil, attributesBytes, List.flatMap_append]
    simp only [List.length_append, Bytes.length_ofUInt16, Bytes.length_ofNat32, Bytes.length_ofNat16,
      hbytes, hcode]
    omega

end Encode
end JvmArchive
