import JvmArchive.Descriptor.Parts
import JvmArchive.Proofs.Text.Cut
import Mathlib.Data.List.TakeWhile

/-!
# Reading types

A type is read from a text exactly if the text starts with its written form. So reading accepts the
written types and nothing else, and a method descriptor is read exactly from its written form.
-/
namespace JvmArchive

namespace FieldType

/-! ## Written types -/

/-- Whether a type is no array, and a class name, if it has one, is free of semicolons. -/
def IsElement : FieldType → Prop
  | object name => ';' ∉ name.toList
  | array _ => False
  | _ => True

/-- The types that have a written form of their own: an element, or an array that keeps the whole text
of its brackets before an element. -/
inductive IsWritten : FieldType → Prop
  | element {type : FieldType} (isElement : type.IsElement) : IsWritten type
  | array {element : FieldType} (dimensions : Nat) (isElement : element.IsElement) :
    IsWritten (array (String.ofList (List.replicate (dimensions + 1) '[' ++ element.print)))

theorem print_array (dimensions : Nat) (element : FieldType) :
    (array (String.ofList (List.replicate (dimensions + 1) '[' ++ element.print))).print =
      '[' :: (List.replicate dimensions '[' ++ element.print) := by
  rw [print, String.toList_ofList, List.replicate_succ, List.cons_append]

theorem IsElement.head_print {type : FieldType} (h : type.IsElement) :
    ∃ c text, type.print = c :: text ∧ c ≠ '[' ∧ c ≠ ')' := by
  cases type with
  | array => exact h.elim
  | _ => exact ⟨_, _, rfl, by decide, by decide⟩

/-- No written type starts like the end of a list of them. -/
theorem IsWritten.head_print {type : FieldType} (h : type.IsWritten) :
    ∃ c text, type.print = c :: text ∧ c ≠ ')' := by
  cases h with
  | element h =>
    obtain ⟨c, text, hprint, -, hend⟩ := h.head_print
    exact ⟨c, text, hprint, hend⟩
  | array dimensions => exact ⟨_, _, print_array dimensions _, by decide⟩

/-- Brackets before an element end where it starts. -/
theorem IsElement.dropWhile_brackets {element : FieldType} (h : element.IsElement) (dimensions : Nat)
    (rest : List Char) :
    (List.replicate dimensions '[' ++ (element.print ++ rest)).dropWhile (· = '[') =
      element.print ++ rest := by
  obtain ⟨c, text, hprint, hbracket, -⟩ := h.head_print
  rw [List.dropWhile_append_of_pos (by simp), hprint, List.cons_append,
    List.dropWhile_cons_of_neg (by simpa using hbracket)]

/-! ## Reading one type -/

theorem IsElement.parse?_append {type : FieldType} (h : type.IsElement) (rest : List Char) :
    parse? (type.print ++ rest) = some (type, rest) := by
  cases type with
  | object name => simp [print, parse?, Text.cut?_append h]
  | array => exact h.elim
  | _ => simp [print, parse?]

/-- A type is read from its written form, whatever follows. -/
theorem IsWritten.parse?_append {type : FieldType} (h : type.IsWritten) (rest : List Char) :
    parse? (type.print ++ rest) = some (type, rest) := by
  cases h with
  | element h => exact h.parse?_append rest
  | @array element dimensions h =>
    have htext : '[' :: (List.replicate dimensions '[' ++ (element.print ++ rest)) =
        List.replicate (dimensions + 1) '[' ++ element.print ++ rest := by
      rw [List.replicate_succ, List.cons_append, List.cons_append, List.append_assoc]
    rw [print_array, List.cons_append, List.append_assoc, parse?, h.dropWhile_brackets,
      h.parse?_append]
    simp only [Option.map_some, htext, Text.take_length_sub]

/-- What is read is a written type. -/
theorem isWritten_of_parse? {s rest : List Char} {type : FieldType}
    (h : parse? s = some (type, rest)) : type.IsWritten := by
  fun_induction parse? s generalizing type rest with
  | case1 => simp at h
  | case2 c | case3 c | case4 c | case5 c | case6 c | case7 c | case8 c | case9 c | case10 c =>
    obtain ⟨rfl, -⟩ := Prod.mk.inj (Option.some.inj h)
    exact .element trivial
  | case11 s =>
    obtain ⟨⟨name, after⟩, hcut, hparse⟩ := Option.map_eq_some_iff.1 h
    obtain ⟨rfl, -⟩ := Prod.mk.inj hparse
    refine .element ?_
    rw [IsElement, String.toList_ofList]
    exact Text.not_mem_of_cut? hcut
  | case12 s ih =>
    obtain ⟨⟨element, after⟩, helement, hparse⟩ := Option.map_eq_some_iff.1 h
    obtain ⟨rfl, -⟩ := Prod.mk.inj hparse
    have hrest : s.dropWhile (· = '[') = element.print ++ after := eq_append_of_parse? helement
    have hbrackets : s.takeWhile (· = '[') = List.replicate (s.takeWhile (· = '[')).length '[' :=
      List.eq_replicate_of_mem fun c hc => by simpa using List.mem_takeWhile_imp hc
    cases ih helement with
    | element h =>
      have htext : '[' :: s =
          List.replicate ((s.takeWhile (· = '[')).length + 1) '[' ++ element.print ++ after := by
        rw [List.replicate_succ, ← hbrackets, List.append_assoc, ← hrest, List.cons_append,
          List.takeWhile_append_dropWhile]
      rw [htext, Text.take_length_sub]
      exact .array _ h
    | array dimensions h =>
      -- no bracket is left when the element is read
      have hhead := List.head?_dropWhile_not (· = '[') s
      rw [hrest, print_array] at hhead
      simp at hhead
  | case13 => simp at h

/-- A type is read exactly where its written form stands. -/
theorem parse?_eq_some_iff {s rest : List Char} {type : FieldType} :
    parse? s = some (type, rest) ↔ type.IsWritten ∧ s = type.print ++ rest :=
  ⟨fun h => ⟨isWritten_of_parse? h, eq_append_of_parse? h⟩,
    fun h => h.2 ▸ h.1.parse?_append rest⟩

end FieldType

namespace MethodType

/-! ## Reading methods -/

/-- Whether the arguments and the result of a method are written types. -/
structure IsWritten (type : MethodType) : Prop where
  arguments : ∀ argument ∈ type.arguments, argument.IsWritten
  result : type.result.IsWritten

theorem parseArguments?_append {types : List FieldType} (h : ∀ type ∈ types, type.IsWritten)
    (rest : List Char) :
    parseArguments? (types.flatMap FieldType.print ++ ')' :: rest) = some (types, rest) := by
  induction types with
  | nil => rw [parseArguments?]; rfl
  | cons type types ih =>
    rw [List.forall_mem_cons] at h
    obtain ⟨c, text, hprint, hend⟩ := h.1.head_print
    have hparse := h.1.parse?_append (types.flatMap FieldType.print ++ ')' :: rest)
    rw [List.flatMap_cons, List.append_assoc, parseArguments?, if_neg]
    · split
      · rename_i hnone
        rw [hparse] at hnone
        cases hnone
      · rename_i found after hfound
        rw [hparse] at hfound
        obtain ⟨rfl, rfl⟩ := Prod.mk.inj (Option.some.inj hfound)
        rw [ih h.2, Option.map_some]
    · rw [hprint]
      simpa using hend

/-- What is read up to the parenthesis is a list of written types. -/
theorem eq_append_of_parseArguments? {s rest : List Char} {types : List FieldType}
    (h : parseArguments? s = some (types, rest)) :
    (∀ type ∈ types, type.IsWritten) ∧ s = types.flatMap FieldType.print ++ ')' :: rest := by
  fun_induction parseArguments? s generalizing types rest with
  | case1 s hend =>
    obtain ⟨rfl, rfl⟩ := Prod.mk.inj (Option.some.inj h)
    obtain ⟨after, rfl⟩ := List.head?_eq_some_iff.1 hend
    exact ⟨by simp, rfl⟩
  | case2 => cases h
  | case3 s _ type after hparse ih =>
    obtain ⟨⟨others, last⟩, hothers, hsame⟩ := Option.map_eq_some_iff.1 h
    obtain ⟨rfl, rfl⟩ := Prod.mk.inj hsame
    obtain ⟨hwritten, htext⟩ := FieldType.parse?_eq_some_iff.1 hparse
    obtain ⟨hothersWritten, hafter⟩ := ih hothers
    refine ⟨List.forall_mem_cons.2 ⟨hwritten, hothersWritten⟩, ?_⟩
    rw [htext, hafter, List.flatMap_cons, List.append_assoc]

/-- A method type is read exactly from its written form. -/
theorem parse?_eq_some_iff {text : List Char} {type : MethodType} :
    parse? text = some type ↔ type.IsWritten ∧ text = type.print := by
  constructor
  · intro h
    unfold parse? at h
    split at h
    · rename_i rest
      split at h
      · cases h
      · rename_i arguments after harguments
        split at h
        · rename_i result hresult
          obtain rfl := Option.some.inj h
          obtain ⟨hwritten, hrest⟩ := eq_append_of_parseArguments? harguments
          obtain ⟨hresultWritten, hafter⟩ := FieldType.parse?_eq_some_iff.1 hresult
          rw [List.append_nil] at hafter
          exact ⟨⟨hwritten, hresultWritten⟩, by rw [hrest, hafter, print]⟩
        · cases h
    · cases h
  · rintro ⟨h, rfl⟩
    have hresult := h.result.parse?_append []
    rw [List.append_nil] at hresult
    rw [print, parse?, parseArguments?_append h.arguments]
    simp only [hresult]

/-- Exactly the written forms of methods are read, each as the types that it was written from: the
arguments between parentheses and the result behind them. -/
theorem ofDescriptor?_eq_some_iff (text : String) (arguments : List FieldType) (result : FieldType) :
    ofDescriptor? text = some ⟨arguments, result⟩ ↔
      ((∀ argument ∈ arguments, argument.IsWritten) ∧ result.IsWritten) ∧
        text.toList = '(' :: (arguments.flatMap FieldType.print ++ ')' :: result.print) := by
  rw [ofDescriptor?, parse?_eq_some_iff, print]
  constructor
  · rintro ⟨hwritten, htext⟩
    exact ⟨⟨hwritten.arguments, hwritten.result⟩, htext⟩
  · rintro ⟨⟨harguments, hresult⟩, htext⟩
    exact ⟨⟨harguments, hresult⟩, htext⟩

end MethodType

end JvmArchive
