import JvmArchive.Descriptor.Source
import JvmArchive.Proofs.Descriptor.Names
import JvmArchive.Proofs.Descriptor.Parts

/-!
# Types there and back

Cutting a descriptor gives the types that it was put together from, and reading the source form of a
type gives its descriptor again, as long as class names are names that a programmer could have written.
-/
namespace JvmArchive.Descriptor

/-! ## Names and types -/

/-- The characters that types and lists of types are put together with. -/
def marks : List Char := ['.', ',', ';', ':', '#', '(', ')', '[', ']']

/-- Whether a name can be written down and read back: a word without a mark that does not start like an
arrow. Slashes may separate its parts. -/
structure IsName (name : String) : Prop where
  word : Text.IsWord name.toList
  unmarked : ∀ c ∈ name.toList, c ∉ marks
  dash : name.toList.head? ≠ some '-'

instance (name : String) : Decidable (IsName name) :=
  decidable_of_iff
    (name.toList ≠ [] ∧ name.toList.all (fun c => decide (Text.isBlank c = false ∧ c ∉ marks)) = true ∧
      name.toList.head? ≠ some '-')
    ⟨fun h => ⟨⟨h.1, fun c hc => (Text.forall_mem_of_all h.2.1 c hc).1⟩,
        fun c hc => (Text.forall_mem_of_all h.2.1 c hc).2, h.2.2⟩,
      fun h => ⟨h.word.ne_nil,
        List.all_eq_true.2 fun c hc => decide_eq_true ⟨h.word.blank c hc, h.unmarked c hc⟩, h.dash⟩⟩

theorem IsName.not_mem {name : String} (h : IsName name) {c : Char} (hc : c ∈ marks) :
    c ∉ name.toList :=
  fun hmem => h.unmarked c hmem hc

/-- The keywords of primitive types, which are no names of classes. -/
def keywords : List String := primitives.map (·.1)

/-- A descriptor of a field, or of the result of a method. -/
inductive IsFieldType : List Char → Prop
  | primitive {letter : Char} (letter_mem : letter ∈ "BCDFIJSZV".toList) : IsFieldType [letter]
  | object {name : String} (isName : IsName name) (keyword : name ∉ keywords) :
    IsFieldType ('L' :: name.toList ++ [';'])
  | array {element : List Char} (element_type : IsFieldType element) : IsFieldType ('[' :: element)

/-- A descriptor of a method with the given arguments and the given result. -/
structure IsMethodType (desc : String) (arguments : List (List Char)) (result : List Char) : Prop where
  eq : desc.toList = '(' :: (arguments.flatten ++ ')' :: result)
  arguments : ∀ argument ∈ arguments, IsFieldType argument
  result : IsFieldType result

/-! ## Cutting descriptors -/

/-- The types of a letter. -/
theorem exists_print_letter : ∀ letter ∈ "BCDFIJSZV".toList,
    ∃ type : FieldType, type.IsElement ∧ type.print = [letter] := by
  intro letter hletter
  change letter ∈ ['B', 'C', 'D', 'F', 'I', 'J', 'S', 'Z', 'V'] at hletter
  simp only [List.mem_cons, List.not_mem_nil, or_false] at hletter
  rcases hletter with rfl | rfl | rfl | rfl | rfl | rfl | rfl | rfl | rfl
  · exact ⟨.byte, trivial, rfl⟩
  · exact ⟨.char, trivial, rfl⟩
  · exact ⟨.double, trivial, rfl⟩
  · exact ⟨.float, trivial, rfl⟩
  · exact ⟨.int, trivial, rfl⟩
  · exact ⟨.long, trivial, rfl⟩
  · exact ⟨.short, trivial, rfl⟩
  · exact ⟨.boolean, trivial, rfl⟩
  · exact ⟨.void, trivial, rfl⟩

/-- A descriptor is the written form of a type. -/
theorem IsFieldType.exists_print {text : List Char} (h : IsFieldType text) :
    ∃ type : FieldType, type.IsWritten ∧ type.print = text := by
  induction h with
  | @primitive letter hletter =>
    obtain ⟨type, hwritten, hprint⟩ := exists_print_letter letter hletter
    exact ⟨type, .element hwritten, hprint⟩
  | @object name hname =>
    exact ⟨.object name, .element (hname.not_mem (by decide)), rfl⟩
  | array _ ih =>
    obtain ⟨type, hwritten, rfl⟩ := ih
    cases hwritten with
    | element h => exact ⟨_, .array 0 h, FieldType.print_array 0 type⟩
    | @array element dimensions h =>
      refine ⟨_, .array (dimensions + 1) h, ?_⟩
      rw [FieldType.print_array, FieldType.print_array, List.replicate_succ, List.cons_append]

theorem IsFieldType.not_mem {type : List Char} (h : IsFieldType type) : ')' ∉ type := by
  induction h with
  | primitive hletter =>
    intro hmem
    rw [List.mem_singleton] at hmem
    subst hmem
    revert hletter
    decide
  | object hname =>
    have hparenthesis := hname.not_mem (c := ')') (by decide)
    simp [hparenthesis]
  | array _ ih => simp [ih]

theorem exists_map_print {texts : List (List Char)} (h : ∀ text ∈ texts, IsFieldType text) :
    ∃ types : List FieldType, (∀ type ∈ types, type.IsWritten) ∧ types.map FieldType.print = texts := by
  induction texts with
  | nil => exact ⟨[], by simp, rfl⟩
  | cons text texts ih =>
    rw [List.forall_mem_cons] at h
    obtain ⟨type, hwritten, hprint⟩ := h.1.exists_print
    obtain ⟨types, hallWritten, hall⟩ := ih h.2
    refine ⟨type :: types, List.forall_mem_cons.2 ⟨hwritten, hallWritten⟩, ?_⟩
    rw [List.map_cons, hprint, hall]

namespace IsMethodType

variable {desc : String} {arguments : List (List Char)} {result : List Char}
  (h : IsMethodType desc arguments result)
include h

/-- A method descriptor is read as types with the given arguments and the given result. -/
theorem exists_type :
    ∃ type : MethodType, MethodType.ofDescriptor? desc = some type ∧
      type.arguments.map FieldType.print = arguments ∧ type.result.print = result := by
  obtain ⟨types, htypes, rfl⟩ := exists_map_print h.arguments
  obtain ⟨type, htype, rfl⟩ := h.result.exists_print
  refine ⟨⟨types, type⟩, MethodType.parse?_eq_some_iff.2 ⟨⟨htypes, htype⟩, ?_⟩, rfl, rfl⟩
  rw [h.eq, MethodType.print, List.flatMap_def]

theorem argumentDescriptors : argumentDescriptors desc = arguments.map String.ofList := by
  obtain ⟨type, htype, rfl, -⟩ := h.exists_type
  rw [argumentDescriptors_of_ofDescriptor? htype, List.map_map]
  rfl

theorem returnType : returnType desc = String.ofList result := by
  rw [Descriptor.returnType, h.eq, ← List.cons_append, Text.afterLast_append h.result.not_mem]

end IsMethodType

/-! ## Source types -/

/-- Whether a text can be the source form of a type. -/
structure IsSource (text : String) : Prop where
  word : Text.IsWord text.toList
  unmarked : ∀ c ∈ text.toList, c ∉ [',', ':', '#', ')']

theorem toSource_array (element : List Char) :
    toSource (String.ofList ('[' :: element)) = toSource (String.ofList element) ++ "[]" := by
  simp only [toSource, String.toList_ofList, List.takeWhile_cons, decide_true, if_true,
    List.length_cons, List.drop_succ_cons, List.replicate_succ', String.join_append]
  simp [String.append_assoc]

theorem toSource_object (name : String) :
    toSource (String.ofList ('L' :: name.toList ++ [';'])) = Text.replaceChar '/' '.' name := by
  have hletters : ∀ pair ∈ primitives, pair.2.toList.head? ≠ some 'L' := by decide
  have hnone : primitives.find? (·.2 = String.ofList ('L' :: name.toList ++ [';'])) = none := by
    rw [List.find?_eq_none]
    intro pair hpair hsame
    refine hletters pair hpair ?_
    rw [of_decide_eq_true hsame, String.toList_ofList]
    rfl
  have hbrackets : ('L' :: name.toList ++ [';']).takeWhile (· = '[') = [] := by simp
  simp only [toSource, String.toList_ofList, hbrackets, List.length_nil, List.drop_zero, hnone,
    objectName?_wrapped, String.ofList_toList, Option.getD_some, List.replicate_zero,
    String.join_nil, String.append_empty]

/-- The source form of a type is a word without the separators of lists and lines. -/
theorem isSource_toSource {type : List Char} (h : IsFieldType type) :
    IsSource (toSource (String.ofList type)) := by
  induction h with
  | @primitive letter hletter =>
    have hkeywords : ∀ letter ∈ "BCDFIJSZV".toList,
        (toSource (String.ofList [letter])).toList ≠ [] ∧
          (toSource (String.ofList [letter])).toList.all (fun c =>
            decide (Text.isBlank c = false ∧ c ∉ [',', ':', '#', ')'])) = true :=
      Text.forall_mem_of_all (by decide +kernel)
    obtain ⟨hne, hall⟩ := hkeywords letter hletter
    have hchars := Text.forall_mem_of_all hall
    exact ⟨⟨hne, fun c hc => (hchars c hc).1⟩, fun c hc => (hchars c hc).2⟩
  | @object name hname _ =>
    rw [toSource_object]
    refine ⟨hname.word.replaceChar (by decide), fun c hc => ?_⟩
    rcases Text.mem_replaceChar hc with hold | rfl
    · have hmarks : [',', ':', '#', ')'] ⊆ marks := by decide
      exact fun hmark => hname.unmarked c hold (hmarks hmark)
    · decide
  | array _ ih =>
    have hbrackets : ∀ c ∈ "[]".toList, Text.isBlank c = false ∧ c ∉ [',', ':', '#', ')'] :=
      Text.forall_mem_of_all (by decide)
    rw [toSource_array]
    refine ⟨?_, ?_⟩
    · rw [String.toList_append]
      exact ih.word.append fun c hc => (hbrackets c hc).1
    · rw [String.toList_append]
      intro c hc
      rcases List.mem_append.1 hc with hold | hnew
      · exact ih.unmarked c hold
      · exact (hbrackets c hnew).2

theorem countBrackets_of_head? {s : List Char} (h : s.head? ≠ some ']') : countBrackets s = (0, s) := by
  unfold countBrackets
  split
  · simp at h
  · rfl

theorem ofSource_brackets {text : String} (h : Text.IsWord text.toList) :
    ofSource (text ++ "[]") = "[" ++ ofSource text := by
  have hword : Text.IsWord (text ++ "[]").toList := by
    rw [String.toList_append]
    exact h.append (Text.forall_mem_of_all (by decide))
  have hreverse : (text ++ "[]").toList.reverse = ']' :: '[' :: text.toList.reverse := by simp
  rw [ofSource, hword.trim_eq, ofSource, h.trim_eq, hreverse, countBrackets]
  simp only [List.replicate_succ]
  rw [← String.append_assoc]
  congr 1
  rw [← List.singleton_append, String.ofList_append]

/-- The source form of the name of a class is no keyword. -/
theorem lookup_primitives_eq_none {name : String} (hkeyword : name ∉ keywords) :
    primitives.lookup (Text.replaceChar '/' '.' name) = none := by
  have hdots : ∀ keyword ∈ keywords, '.' ∉ keyword.toList := by decide
  rw [List.lookup_eq_none_iff]
  intro pair hpair
  rw [bne_iff_ne]
  intro hsame
  have hmem : Text.replaceChar '/' '.' name ∈ keywords := hsame ▸ List.mem_map_of_mem hpair
  -- a keyword has no dot, so the name has no slash and is the keyword itself
  have hslash : '/' ∉ name.toList := by
    intro hslash
    refine hdots _ hmem ?_
    rw [Text.toList_replaceChar]
    exact List.mem_map.2 ⟨'/', hslash, rfl⟩
  rw [Text.replaceChar_of_not_mem hslash] at hmem
  exact hkeyword hmem

/-- Reading the source form of a type gives its descriptor. -/
theorem ofSource_toSource {type : List Char} (h : IsFieldType type) :
    ofSource (toSource (String.ofList type)) = String.ofList type := by
  induction h with
  | @primitive letter hletter =>
    have hletters : ∀ letter ∈ "BCDFIJSZV".toList,
        ofSource (toSource (String.ofList [letter])) = String.ofList [letter] :=
      Text.forall_mem_of_all (by decide +kernel)
    exact hletters letter hletter
  | @object name hname hkeyword =>
    have hsource := isSource_toSource (.object hname hkeyword)
    rw [toSource_object] at hsource ⊢
    have hdot : '.' ∉ name.toList := hname.not_mem (by decide)
    have hlast : (Text.replaceChar '/' '.' name).toList.reverse.head? ≠ some ']' := by
      intro hhead
      rcases Text.mem_replaceChar (List.mem_reverse.1 (List.mem_of_head? hhead)) with hold | hdot
      · exact hname.unmarked _ hold (by decide)
      · cases hdot
    rw [ofSource, hsource.word.trim_eq, countBrackets_of_head? hlast]
    simp only [List.reverse_reverse, String.ofList_toList, lookup_primitives_eq_none hkeyword,
      Text.replaceChar_replaceChar hdot, List.replicate_zero]
    exact String.toList_inj.1 (by simp)
  | array helement ih =>
    rw [toSource_array, ofSource_brackets (isSource_toSource helement).word, ih]
    simp

end JvmArchive.Descriptor
