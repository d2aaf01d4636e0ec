import JvmArchive.Mapping.Format
import JvmArchive.Proofs.Descriptor.Source

/-!
# Lines of ProGuard files

What the lines of a written file say when they are read: a class line gives the class its mapping, and
the indented lines below it add its members one after the other.
-/
namespace JvmArchive.Mapping

open Descriptor Text

namespace ProGuard

/-! ## Arrows -/

theorem cutArrow?_append {front : List Char} (h : ' ' ∉ front) (s : List Char) :
    cutArrow? (front ++ s) = (cutArrow? s).map fun cut => (front ++ cut.1, cut.2) :=
  cutWord?_append h ['-', '>', ' '] s

theorem cutArrow?_blank {s : List Char} (h : s.head? ≠ some '-') :
    cutArrow? (' ' :: s) = (cutArrow? s).map fun cut => (' ' :: cut.1, cut.2) := by
  refine cutWord?_cons ?_
  change dropLeading? ['-', '>', ' '] s = none
  cases s with
  | nil => rfl
  | cons c s =>
    rw [dropLeading?, if_neg]
    rintro rfl
    exact h rfl

theorem cutArrow?_arrow (after : List Char) : cutArrow? (arrow.toList ++ after) = some ([], after) :=
  cutWord?_cons_append ' ' ['-', '>', ' '] after

/-! ## Lines -/

/-- Whether a text is one line to which nothing happens when its end is cut off. -/
structure IsLine (text : String) : Prop where
  feed : '\n' ∉ text.toList
  last : text.toList.getLast? ≠ some '\r'

theorem isLine_of_word {s back : List Char} {text : String} (h : text.toList = s ++ back)
    (hfeed : '\n' ∉ s) (hback : IsWord back) : IsLine text where
  feed := by
    rw [h, List.mem_append, not_or]
    exact ⟨hfeed, hback.not_mem (by decide)⟩
  last hlast := by
    rw [h] at hlast
    have hblank := hback.blank_last s '\r' hlast
    cases hblank

/-! ## Class lines -/

theorem word_dotted {name : String} (h : IsName name) : IsWord (dotted name).toList :=
  h.word.replaceChar (by decide)

theorem internalName_dotted {name : String} (h : IsName name) :
    internalName (dotted name).toList = name := by
  rw [internalName, (word_dotted h).trim_eq, String.ofList_toList, dotted,
    replaceChar_replaceChar (h.not_mem (by decide))]

/-- The line of a class without its end. -/
def classText (name mapping : String) : String := dotted name ++ arrow ++ dotted mapping ++ ":"

theorem toList_classText (name mapping : String) :
    (classText name mapping).toList =
      (dotted name).toList ++ (arrow.toList ++ (dotted mapping).toList) ++ [':'] := by
  simp [classText]

theorem isLine_classText {name mapping : String} (hname : IsName name) (hmapping : IsName mapping) :
    IsLine (classText name mapping) := by
  have hfeed : '\n' ∉ (dotted name).toList := (word_dotted hname).not_mem (by decide)
  have harrow : '\n' ∉ arrow.toList := by decide
  have hback : IsWord ((dotted mapping).toList ++ [':']) :=
    (word_dotted hmapping).append (forall_mem_of_all (by decide))
  refine isLine_of_word (s := (dotted name).toList ++ arrow.toList) ?_ ?_ hback
  · simp [toList_classText]
  · simp [hfeed, harrow]

theorem readClass_classText {name mapping : String} (hname : IsName name) (hmapping : IsName mapping) :
    readClass (classText name mapping).toList = .ok { name, mapping } := by
  have hblank : ' ' ∉ (dotted name).toList := (word_dotted hname).not_mem (by decide)
  have hend : ∀ c ∈ (classText name mapping).toList.getLast?, isBlank c = false := by
    rw [toList_classText, List.getLast?_concat]
    rintro c ⟨⟩
    rfl
  rw [readClass, trimEnd_eq hend, toList_classText, dropTrailing?_append, Option.bind_some,
    cutArrow?_append hblank, cutArrow?_arrow, Option.map_some, List.append_nil]
  dsimp only
  rw [internalName_dotted hname, internalName_dotted hmapping]
  rfl

/-- A line that starts in neither a blank nor a hash sign is that of a class. -/
theorem readLine_class (reader : Reader) {name mapping : String} (hname : IsName name)
    (hmapping : IsName mapping) :
    reader.readLine (classText name mapping).toList =
      .ok { store := reader.store.mapClass name mapping, current := some name } := by
  have hread := readClass_classText hname hmapping
  obtain ⟨c, rest, hline⟩ := List.exists_cons_of_ne_nil (word_dotted hname).ne_nil
  have hmem : c ∈ (dotted name).toList := hline ▸ List.mem_cons_self
  have hblank : isBlank c = false := (word_dotted hname).blank c hmem
  have hhash : c ≠ '#' := by
    rintro rfl
    rcases mem_replaceChar hmem with hold | hdot
    · exact hname.unmarked _ hold (by decide)
    · cases hdot
  rw [toList_classText, hline] at hread ⊢
  rw [List.append_assoc, List.cons_append] at hread ⊢
  have hcomment :
      isComment (c :: (rest ++ (arrow.toList ++ (dotted mapping).toList ++ [':']))) = false := by
    rw [isComment, trimStart_eq (by simpa using hblank)]
    exact decide_eq_false hhash
  rw [Reader.readLine, hcomment, if_neg Bool.false_ne_true, isIndented, hblank,
    if_neg Bool.false_ne_true, hread]
  rfl

/-! ## Member lines -/

/-- A member line without its indentation and without its end. -/
def memberText (type declared mapping : String) : String :=
  type ++ " " ++ declared ++ arrow ++ mapping

theorem toList_memberText (type declared mapping : String) :
    (memberText type declared mapping).toList =
      type.toList ++ ' ' :: (declared.toList ++ (arrow.toList ++ mapping.toList)) := by
  simp [memberText]

/-- What a member line must be made of to be cut into the same parts. -/
structure IsMember (type declared mapping : String) : Prop where
  source : IsSource type
  word : IsWord declared.toList
  dash : declared.toList.head? ≠ some '-'
  colon : ':' ∉ declared.toList
  target : IsName mapping

namespace IsMember

variable {type declared mapping : String} (h : IsMember type declared mapping)
include h

theorem dropLineRange_eq :
    dropLineRange (memberText type declared mapping).toList =
      (memberText type declared mapping).toList := by
  have hcolon : ':' ∉ (memberText type declared mapping).toList := by
    have htype : ':' ∉ type.toList := fun hmem => h.source.unmarked ':' hmem (by decide)
    have hmapping : ':' ∉ mapping.toList := h.target.not_mem (by decide)
    have harrow : ':' ∉ arrow.toList := by decide
    simp [toList_memberText, htype, h.colon, hmapping, harrow]
  have hnumber : dropLineNumber (memberText type declared mapping).toList =
      (memberText type declared mapping).toList := by
    rw [dropLineNumber, cut?_eq_none hcolon]
  rw [dropLineRange, hnumber, hnumber]

theorem cutArrow?_eq :
    cutArrow? (memberText type declared mapping).toList =
      some (type.toList ++ [' '] ++ declared.toList, mapping.toList) := by
  have htype : ' ' ∉ type.toList := h.source.word.not_mem (by decide)
  have hdeclared : ' ' ∉ declared.toList := h.word.not_mem (by decide)
  have hhead : (declared.toList ++ (arrow.toList ++ mapping.toList)).head? ≠ some '-' := by
    obtain ⟨c, rest, hlist⟩ := List.exists_cons_of_ne_nil h.word.ne_nil
    have hdash := h.dash
    rw [hlist] at hdash ⊢
    exact hdash
  rw [toList_memberText, cutArrow?_append htype, cutArrow?_blank hhead, cutArrow?_append hdeclared,
    cutArrow?_arrow]
  simp

/-- Reading a member line comes down to reading the name and the arguments in it. -/
theorem readMember_eq :
    readMember ("    " ++ memberText type declared mapping).toList =
      match cut? '(' declared.toList with
      | some (method, rest) =>
        match cut? ')' rest with
        | some (arguments, _) =>
          .ok (.inr
            { name := String.ofList (trim method), mapping
              desc := methodDescriptor arguments type.toList })
        | none => .error "unterminated argument list"
      | none =>
        .ok (.inl
          { name := String.ofList (trim declared.toList), mapping
            desc := Descriptor.ofSource type }) := by
  have hindent : ∀ c ∈ "    ".toList, isBlank c = true := forall_mem_of_all (by decide)
  have htrim : trim ("    " ++ memberText type declared mapping).toList =
      (memberText type declared mapping).toList := by
    have hends := h.source.word.trim_append h.target.word (' ' :: (declared.toList ++ arrow.toList))
    rw [String.toList_append, trim_append_left hindent, toList_memberText]
    simpa using hends
  have hblank : ' ' ∉ type.toList := h.source.word.not_mem (by decide)
  have hcut : cut? ' ' (trim (type.toList ++ [' '] ++ declared.toList)) =
      some (type.toList, declared.toList) := by
    rw [h.source.word.trim_append h.word, List.append_assoc]
    exact cut?_append hblank declared.toList
  rw [readMember, htrim, h.dropLineRange_eq, h.cutArrow?_eq]
  simp only [hcut, h.target.word.trim_eq, String.ofList_toList]
  cases cut? '(' declared.toList with
  | none => rfl
  | some parts =>
    dsimp only
    cases cut? ')' parts.2 with
    | none => rfl
    | some arguments => rfl

theorem isLine : IsLine ("    " ++ memberText type declared mapping) := by
  have htype : '\n' ∉ type.toList := h.source.word.not_mem (by decide)
  have hdeclared : '\n' ∉ declared.toList := h.word.not_mem (by decide)
  have harrow : '\n' ∉ arrow.toList := by decide
  refine isLine_of_word (s := "    ".toList ++ (type.toList ++ ' ' :: (declared.toList ++ arrow.toList)))
    ?_ ?_ h.target.word
  · simp [toList_memberText]
  · simp [htype, hdeclared, harrow]

theorem isComment_eq_false : isComment ("    " ++ memberText type declared mapping).toList = false := by
  obtain ⟨c, rest, htype⟩ := List.exists_cons_of_ne_nil h.source.word.ne_nil
  have hmem : c ∈ type.toList := htype ▸ List.mem_cons_self
  have hindent : ∀ c ∈ "    ".toList, isBlank c = true := forall_mem_of_all (by decide)
  rw [isComment, String.toList_append, trimStart, List.dropWhile_append_of_pos hindent,
    toList_memberText, htype, List.cons_append, List.dropWhile_cons, h.source.word.blank c hmem,
    if_neg Bool.false_ne_true]
  refine decide_eq_false ?_
  rintro rfl
  exact h.source.unmarked _ hmem (by decide)

/-- An indented line adds a member to the current class. -/
theorem readLine_eq {reader : Reader} {owner : String} (hcurrent : reader.current = some owner) :
    reader.readLine ("    " ++ memberText type declared mapping).toList =
      (readMember ("    " ++ memberText type declared mapping).toList).map fun
        | .inl field => { reader with store := reader.store.mapField owner field }
        | .inr method => { reader with store := reader.store.mapMethod owner method } := by
  have hindented : isIndented ("    " ++ memberText type declared mapping).toList = true := by
    rw [String.toList_append]
    rfl
  rw [Reader.readLine, h.isComment_eq_false, if_neg Bool.false_ne_true, hindented, if_pos rfl, hcurrent]
  cases readMember ("    " ++ memberText type declared mapping).toList with
  | error details => rfl
  | ok member => cases member <;> rfl

end IsMember

end ProGuard

/-! ## Rows -/

/-- What a file tells of a field mapping, which is all but the mapped type. -/
def FieldMapping.told (row : FieldMapping) : FieldMapping :=
  { name := row.name, mapping := row.mapping, desc := row.desc }

/-- What a file tells of a method mapping, which is all but the mapped descriptor. -/
def MethodMapping.told (row : MethodMapping) : MethodMapping :=
  { name := row.name, mapping := row.mapping, desc := row.desc }

/-- Whether a field mapping can be written down and read back. -/
structure FieldMapping.IsWritable (row : FieldMapping) : Prop where
  name : IsName row.name
  mapping : IsName row.mapping
  desc : IsFieldType row.desc.toList

/-- Whether a method mapping can be written down and read back. -/
structure MethodMapping.IsWritable (row : MethodMapping) : Prop where
  name : IsName row.name
  mapping : IsName row.mapping
  desc : ∃ arguments result, IsMethodType row.desc arguments result

namespace ProGuard

/-- The line of a field without its end. -/
def fieldText (row : FieldMapping) : String :=
  "    " ++ memberText (Descriptor.toSource row.desc) row.name row.mapping

theorem fieldLine_eq (row : FieldMapping) : fieldLine row = fieldText row ++ "\n" := by
  simp [fieldLine, fieldText, memberText, String.append_assoc]

theorem isMember_field {row : FieldMapping} (h : row.IsWritable) :
    IsMember (Descriptor.toSource row.desc) row.name row.mapping where
  source := by
    have hsource := isSource_toSource h.desc
    rwa [String.ofList_toList] at hsource
  word := h.name.word
  dash := h.name.dash
  colon := h.name.not_mem (by decide)
  target := h.mapping

theorem readLine_fieldText {reader : Reader} {owner : String} (hcurrent : reader.current = some owner)
    {row : FieldMapping} (h : row.IsWritable) :
    reader.readLine (fieldText row).toList =
      .ok { reader with store := reader.store.mapField owner row.told } := by
  have hmember := isMember_field h
  have hopen : '(' ∉ row.name.toList := h.name.not_mem (by decide)
  have hdesc := ofSource_toSource h.desc
  rw [String.ofList_toList] at hdesc
  rw [fieldText, hmember.readLine_eq hcurrent, hmember.readMember_eq, cut?_eq_none hopen, hdesc,
    h.name.word.trim_eq, String.ofList_toList]
  rfl

/-! ## Method lines -/

/-- The written argument types. -/
def argumentText (arguments : List (List Char)) : String :=
  ",".intercalate (arguments.map fun argument => Descriptor.toSource (String.ofList argument))

/-- A method name with its written argument types. -/
def signatureText (name : String) (arguments : List (List Char)) : String :=
  name ++ "(" ++ argumentText arguments ++ ")"

/-- The line of a method without its end. -/
def methodText (row : MethodMapping) : String :=
  "    " ++ memberText (Descriptor.toSource row.returnType)
    (signatureText row.name ((Descriptor.argumentDescriptors row.desc).map String.toList)) row.mapping

theorem methodLine_eq (row : MethodMapping) : methodLine row = methodText row ++ "\n" := by
  simp [methodLine, methodText, memberText, signatureText, argumentText, String.append_assoc,
    Function.comp_def]

theorem methodText_eq {row : MethodMapping} {arguments : List (List Char)} {result : List Char}
    (h : IsMethodType row.desc arguments result) :
    methodText row =
      "    " ++ memberText (Descriptor.toSource (String.ofList result))
        (signatureText row.name arguments) row.mapping := by
  have harguments : (Descriptor.argumentDescriptors row.desc).map String.toList = arguments := by
    rw [h.argumentDescriptors, List.map_map]
    exact (List.map_congr_left fun argument _ => String.toList_ofList).trans (List.map_id' arguments)
  rw [methodText, harguments, MethodMapping.returnType, h.returnType]

theorem toList_argumentText (arguments : List (List Char)) :
    (argumentText arguments).toList =
      [','].intercalate (arguments.map fun argument =>
        (Descriptor.toSource (String.ofList argument)).toList) := by
  simp [argumentText, Function.comp_def]

theorem argumentText_parts {arguments : List (List Char)}
    (h : ∀ argument ∈ arguments, IsFieldType argument) :
    (((argumentText arguments).toList.splitOnP (· = ',')).map trim).filter (!·.isEmpty) =
      arguments.map fun argument => (Descriptor.toSource (String.ofList argument)).toList := by
  cases arguments with
  | nil => rfl
  | cons first rest =>
    generalize hparts : ((first :: rest).map fun argument =>
      (Descriptor.toSource (String.ofList argument)).toList) = parts
    have hwords : ∀ part ∈ parts, IsWord part ∧ ',' ∉ part := by
      intro part hpart
      obtain ⟨argument, hargument, rfl⟩ := List.mem_map.1 (hparts ▸ hpart)
      have hsource := isSource_toSource (h argument hargument)
      exact ⟨hsource.word, fun hmem => hsource.unmarked ',' hmem (by decide)⟩
    have hne : parts ≠ [] := by
      rw [← hparts]
      exact List.cons_ne_nil _ _
    have htrim : parts.map trim = parts :=
      (List.map_congr_left fun part hpart => (hwords part hpart).1.trim_eq).trans (List.map_id' parts)
    rw [toList_argumentText, hparts, splitOnP_intercalate (fun part hpart => (hwords part hpart).2) hne,
      htrim, List.filter_eq_self]
    intro part hpart
    simpa using (hwords part hpart).1.ne_nil

/-- Reading written argument types and a written result type gives the descriptor again. -/
theorem methodDescriptor_eq {desc : String} {arguments : List (List Char)} {result : List Char}
    (h : IsMethodType desc arguments result) :
    methodDescriptor (argumentText arguments).toList
      (Descriptor.toSource (String.ofList result)).toList = desc := by
  have htypes : arguments.map (fun argument =>
      Descriptor.ofSource (String.ofList (Descriptor.toSource (String.ofList argument)).toList)) =
        arguments.map String.ofList :=
    List.map_congr_left fun argument hargument => by
      rw [String.ofList_toList, ofSource_toSource (h.arguments argument hargument)]
  refine String.toList_inj.1 ?_
  rw [methodDescriptor, argumentText_parts h.arguments, List.map_map, Function.comp_def, htypes,
    String.ofList_toList, ofSource_toSource h.result, h.eq]
  simp [List.flatMap_map]

theorem toList_signatureText (name : String) (arguments : List (List Char)) :
    (signatureText name arguments).toList =
      name.toList ++ '(' :: ((argumentText arguments).toList ++ [')']) := by
  simp [signatureText]

theorem argumentText_unmarked {arguments : List (List Char)}
    (h : ∀ argument ∈ arguments, IsFieldType argument) :
    ∀ c ∈ (argumentText arguments).toList, isBlank c = false ∧ c ≠ ':' ∧ c ≠ ')' := by
  intro c hc
  rw [toList_argumentText] at hc
  rcases mem_intercalate hc with rfl | ⟨part, hpart, hmem⟩
  · decide
  · obtain ⟨argument, hargument, rfl⟩ := List.mem_map.1 hpart
    have hsource := isSource_toSource (h argument hargument)
    have hmark := hsource.unmarked c hmem
    simp only [List.mem_cons, not_or] at hmark
    exact ⟨hsource.word.blank c hmem, hmark.2.1, hmark.2.2.2.1⟩

theorem isMember_method {row : MethodMapping} {arguments : List (List Char)} {result : List Char}
    (hname : IsName row.name) (hmapping : IsName row.mapping)
    (h : IsMethodType row.desc arguments result) :
    IsMember (Descriptor.toSource (String.ofList result)) (signatureText row.name arguments)
      row.mapping where
  source := isSource_toSource h.result
  word := by
    rw [toList_signatureText]
    refine hname.word.append fun c hc => ?_
    rcases List.mem_cons.1 hc with rfl | hc
    · decide
    · rcases List.mem_append.1 hc with hc | hc
      · exact (argumentText_unmarked h.arguments c hc).1
      · exact List.mem_singleton.1 hc ▸ by decide
  dash := by
    obtain ⟨c, rest, hlist⟩ := List.exists_cons_of_ne_nil hname.word.ne_nil
    have hdash := hname.dash
    rw [hlist] at hdash
    rw [toList_signatureText, hlist]
    exact hdash
  colon := by
    have hcolon : ':' ∉ row.name.toList := hname.not_mem (by decide)
    have harguments : ':' ∉ (argumentText arguments).toList :=
      fun hmem => (argumentText_unmarked h.arguments _ hmem).2.1 rfl
    simp [toList_signatureText, hcolon, harguments]
  target := hmapping

theorem readLine_methodText {reader : Reader} {owner : String} (hcurrent : reader.current = some owner)
    {row : MethodMapping} (h : row.IsWritable) :
    reader.readLine (methodText row).toList =
      .ok { reader with store := reader.store.mapMethod owner row.told } := by
  obtain ⟨arguments, result, hdesc⟩ := h.desc
  have hmember := isMember_method h.name h.mapping hdesc
  have hclosed : ')' ∉ (argumentText arguments).toList :=
    fun hmem => (argumentText_unmarked hdesc.arguments _ hmem).2.2 rfl
  have hopen : '(' ∉ row.name.toList := h.name.not_mem (by decide)
  rw [methodText_eq hdesc, hmember.readLine_eq hcurrent, hmember.readMember_eq, toList_signatureText,
    cut?_append hopen]
  dsimp only
  rw [cut?_append hclosed]
  dsimp only
  rw [methodDescriptor_eq hdesc, h.name.word.trim_eq, String.ofList_toList]
  rfl

end ProGuard
end JvmArchive.Mapping
