import JvmArchive.Mapping.Srg
import JvmArchive.Proofs.Mapping.Lines

/-!
# Lines of SRG files

Every line is a tag and words, each behind a blank, and is cut into the same words again when it is read.
A member is a path whose last segment is its name.
-/
namespace JvmArchive.Mapping

/-- A field mapping without the types. -/
def FieldMapping.untyped (row : FieldMapping) : FieldMapping :=
  { name := row.name, mapping := row.mapping, desc := "" }

namespace Srg

open Text

/-! ## Names -/

/-- Whether a text can stand as one word and is no key of a member. -/
structure IsPath (text : String) : Prop where
  word : IsWord text.toList
  dot : '.' ∉ text.toList

/-- Whether a text can stand as the last segment of a path. -/
structure IsSegment (text : String) : Prop extends IsPath text where
  slash : '/' ∉ text.toList

theorem isPath_iff {text : String} :
    IsPath text ↔ (!text.toList.isEmpty && text.toList.all fun c => !isBlank c && c != '.') = true := by
  simp only [Bool.and_eq_true, Bool.not_eq_true', List.isEmpty_eq_false_iff, List.all_eq_true, bne_iff_ne]
  constructor
  · exact fun h => ⟨h.word.ne_nil, fun c hc => ⟨h.word.blank c hc, fun hdot => h.dot (hdot ▸ hc)⟩⟩
  · exact fun h => ⟨⟨h.1, fun c hc => (h.2 c hc).1⟩, fun hdot => (h.2 '.' hdot).2 rfl⟩

instance (text : String) : Decidable (IsPath text) := decidable_of_iff _ isPath_iff.symm

theorem isSegment_iff {text : String} :
    IsSegment text ↔ IsPath text ∧ (text.toList.all fun c => c != '/') = true := by
  simp only [List.all_eq_true, bne_iff_ne]
  constructor
  · exact fun h => ⟨h.toIsPath, fun c hc hslash => h.slash (hslash ▸ hc)⟩
  · exact fun h => ⟨h.1, fun hslash => h.2 '/' hslash rfl⟩

instance (text : String) : Decidable (IsSegment text) := decidable_of_iff _ isSegment_iff.symm

/-- A member below its class. -/
def path (owner name : String) : String := owner ++ "/" ++ name

theorem toList_path (owner name : String) :
    (path owner name).toList = owner.toList ++ '/' :: name.toList := by
  simp [path]

theorem word_path {owner name : String} (howner : IsPath owner) (hname : IsSegment name) :
    IsWord (path owner name).toList := by
  rw [toList_path]
  refine howner.word.append fun c hc => ?_
  rcases List.mem_cons.1 hc with rfl | hmem
  · rfl
  · exact hname.word.blank c hmem

theorem readPath_path (owner : String) {name : String} (hname : IsSegment name) (failure : String) :
    readPath (path owner name).toList failure = .ok (owner, name) := by
  rw [readPath, toList_path, cutLast?_append hname.slash]
  simp [pure, Except.pure]

/-! ## Lines -/

/-- A line without its end: a tag and words. -/
def lineText (tag : String) (parts : List String) : String :=
  tag ++ ":" ++ String.join (parts.map (" " ++ ·))

theorem toList_lineText (tag : String) (parts : List String) :
    (lineText tag parts).toList =
      tag.toList ++ ':' :: (parts.map String.toList).flatMap (' ' :: ·) := by
  simp [lineText, List.flatMap_map]

/-- Whether a tag and words make a line that is cut into them again. -/
structure IsEntry (tag : String) (parts : List String) : Prop where
  word : IsWord tag.toList
  colon : ':' ∉ tag.toList
  comment : tag.toList.head? ≠ some '#'
  ne_nil : parts ≠ []
  words : ∀ part ∈ parts, IsWord part.toList

namespace IsEntry

variable {tag : String} {parts : List String} (h : IsEntry tag parts)
include h

/-- A line ends in its last word. -/
theorem exists_toList_lineText : ∃ front last, IsWord last ∧ '\n' ∉ front ∧
    (lineText tag parts).toList = tag.toList ++ front ++ last := by
  obtain ⟨before, last, rfl⟩ : ∃ before last, parts = before ++ [last] :=
    ⟨_, _, (List.dropLast_concat_getLast h.ne_nil).symm⟩
  refine ⟨':' :: ((before.map String.toList).flatMap (' ' :: ·) ++ [' ']), last.toList,
    h.words last (by simp), ?_, by simp [toList_lineText]⟩
  have hbefore : ∀ part ∈ before, '\n' ∉ part.toList := fun part hpart =>
    (h.words part (by simp [hpart])).not_mem rfl
  simpa using hbefore

theorem isLine : ProGuard.IsLine (lineText tag parts) := by
  obtain ⟨front, last, hlast, hfeed, htext⟩ := h.exists_toList_lineText
  refine ProGuard.isLine_of_word htext ?_ hlast
  rw [List.mem_append, not_or]
  exact ⟨h.word.not_mem rfl, hfeed⟩

/-- A line is read as what its words say under its tag. -/
theorem readLine_lineText (store : Store) :
    readLine store (lineText tag parts).toList = readEntry store tag (parts.map String.toList) := by
  obtain ⟨front, last, hlast, -, htext⟩ := h.exists_toList_lineText
  have htrim : trim (lineText tag parts).toList = (lineText tag parts).toList := by
    rw [htext]
    exact h.word.trim_append hlast front
  have hstart : ((lineText tag parts).toList.isEmpty ||
      (lineText tag parts).toList.head? == some '#') = false := by
    obtain ⟨c, rest, htag⟩ := List.exists_cons_of_ne_nil h.word.ne_nil
    have hcomment := h.comment
    rw [htag] at hcomment
    rw [toList_lineText, htag]
    simpa using hcomment
  have hwords : ∀ part ∈ parts.map String.toList, IsWord part := by
    rw [List.forall_mem_map]
    exact h.words
  rw [readLine, htrim, hstart, if_neg Bool.false_ne_true, toList_lineText, cut?_append h.colon]
  dsimp only
  rw [words_flatMap hwords, String.ofList_toList]

end IsEntry

/-! ## Classes -/

theorem classLine_eq (name mapping : String) :
    classLine name mapping = lineText "CL" [name, mapping] ++ "\n" := by
  refine String.toList_inj.1 ?_
  simp [classLine, lineText]

theorem isEntry_class {name mapping : String} (hname : IsPath name) (hmapping : IsPath mapping) :
    IsEntry "CL" [name, mapping] where
  word := ⟨by decide, forall_mem_of_all (by decide)⟩
  colon := by decide
  comment := by decide
  ne_nil := by simp
  words := by simpa using ⟨hname.word, hmapping.word⟩

theorem readLine_class (store : Store) {name mapping : String} (hname : IsPath name)
    (hmapping : IsPath mapping) :
    readLine store (lineText "CL" [name, mapping]).toList = .ok (store.mapClass name mapping) := by
  rw [(isEntry_class hname hmapping).readLine_lineText]
  simp [readEntry, pure, Except.pure]

/-! ## Members -/

/-- The line of a field without its end. -/
def fieldText (owner mappedOwner : String) (row : FieldMapping) : String :=
  lineText "FD" [path owner row.name, path mappedOwner row.mapping]

/-- The line of a method without its end. -/
def methodText (owner mappedOwner : String) (row : MethodMapping) : String :=
  lineText "MD" [path owner row.name, row.desc, path mappedOwner row.mapping, row.mappedDesc]

theorem fieldLine_eq (owner mappedOwner : String) (row : FieldMapping) :
    fieldLine owner mappedOwner row = fieldText owner mappedOwner row ++ "\n" := by
  refine String.toList_inj.1 ?_
  simp [fieldLine, fieldText, lineText, path]

theorem methodLine_eq (owner mappedOwner : String) (row : MethodMapping) :
    methodLine owner mappedOwner row = methodText owner mappedOwner row ++ "\n" := by
  refine String.toList_inj.1 ?_
  unfold methodLine methodText lineText path
  simp

/-- Whether the line of a field can be written down and read back. -/
structure IsFieldRow (row : FieldMapping) : Prop where
  name : IsSegment row.name
  mapping : IsSegment row.mapping

/-- Whether the line of a method can be written down and read back. -/
structure IsMethodRow (row : MethodMapping) : Prop where
  name : IsSegment row.name
  mapping : IsSegment row.mapping
  desc : IsPath row.desc
  mappedDesc : IsPath row.mappedDesc

section
variable {owner mappedOwner : String} (howner : IsPath owner) (hmapped : IsPath mappedOwner)
include howner hmapped

theorem isEntry_field {row : FieldMapping} (h : IsFieldRow row) :
    IsEntry "FD" [path owner row.name, path mappedOwner row.mapping] where
  word := ⟨by decide, forall_mem_of_all (by decide)⟩
  colon := by decide
  comment := by decide
  ne_nil := by simp
  words := by simpa using ⟨word_path howner h.name, word_path hmapped h.mapping⟩

theorem isEntry_method {row : MethodMapping} (h : IsMethodRow row) :
    IsEntry "MD"
      [path owner row.name, row.desc, path mappedOwner row.mapping, row.mappedDesc] where
  word := ⟨by decide, forall_mem_of_all (by decide)⟩
  colon := by decide
  comment := by decide
  ne_nil := by simp
  words := by
    simpa using ⟨word_path howner h.name, h.desc.word, word_path hmapped h.mapping, h.mappedDesc.word⟩

/-- A field line gives the class of the field a place and adds the field without its type. -/
theorem readLine_fieldText (store : Store) {row : FieldMapping} (h : IsFieldRow row) :
    readLine store (fieldText owner mappedOwner row).toList =
      .ok ((store.ensureClass owner).mapField owner row.untyped) := by
  rw [fieldText, (isEntry_field howner hmapped h).readLine_lineText]
  simp [readEntry, readPath_path _ h.name, readPath_path _ h.mapping, FieldMapping.untyped, bind,
    Except.bind, pure, Except.pure]

/-- A method line gives the class of the method a place and adds the method. -/
theorem readLine_methodText (store : Store) {row : MethodMapping} (h : IsMethodRow row) :
    readLine store (methodText owner mappedOwner row).toList =
      .ok ((store.ensureClass owner).mapMethod owner row) := by
  rw [methodText, (isEntry_method howner hmapped h).readLine_lineText]
  simp [readEntry, readPath_path _ h.name, readPath_path _ h.mapping, bind, Except.bind, pure,
    Except.pure]

end

/-! ## Entries -/

/-- What one line says. -/
inductive Entry
  | ofClass (name mapping : String)
  | ofField (owner : String) (row : FieldMapping)
  | ofMethod (owner : String) (row : MethodMapping)
  deriving Repr, DecidableEq, Inhabited

namespace Entry

/-- The line of an entry without its end, given the new names of classes. -/
def text (mappedName : String → String) : Entry → String
  | ofClass name mapping => lineText "CL" [name, mapping]
  | ofField owner row => fieldText owner (mappedName owner) row
  | ofMethod owner row => methodText owner (mappedName owner) row

/-- Adds an entry as its line tells it. A field line tells no types. -/
def add (store : Store) : Entry → Store
  | ofClass name mapping => store.mapClass name mapping
  | ofField owner row => (store.ensureClass owner).mapField owner row.untyped
  | ofMethod owner row => (store.ensureClass owner).mapMethod owner row

/-- The field that an entry adds, if it adds one. -/
def field? : Entry → Option (String × FieldMapping)
  | ofField owner row => some (owner, row.untyped)
  | _ => none

/-- The method that an entry adds, if it adds one. -/
def method? : Entry → Option (String × MethodMapping)
  | ofMethod owner row => some (owner, row)
  | _ => none

/-- Whether the line of an entry can be written down and read back. -/
def IsWritable (mappedName : String → String) : Entry → Prop
  | ofClass name mapping => IsPath name ∧ IsPath mapping
  | ofField owner row => IsPath owner ∧ IsPath (mappedName owner) ∧ IsFieldRow row
  | ofMethod owner row => IsPath owner ∧ IsPath (mappedName owner) ∧ IsMethodRow row

variable {mappedName : String → String} {entry : Entry} (h : entry.IsWritable mappedName)
include h

theorem isLine_text : ProGuard.IsLine (entry.text mappedName) := by
  cases entry with
  | ofClass name mapping => exact (isEntry_class h.1 h.2).isLine
  | ofField owner row => exact (isEntry_field h.1 h.2.1 h.2.2).isLine
  | ofMethod owner row => exact (isEntry_method h.1 h.2.1 h.2.2).isLine

theorem readLine_text (store : Store) :
    readLine store (entry.text mappedName).toList = .ok (entry.add store) := by
  cases entry with
  | ofClass name mapping => exact readLine_class store h.1 h.2
  | ofField owner row => exact readLine_fieldText h.1 h.2.1 store h.2.2
  | ofMethod owner row => exact readLine_methodText h.1 h.2.1 store h.2.2

end Entry
end Srg
end JvmArchive.Mapping
