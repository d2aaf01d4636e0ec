import JvmArchive.Proofs.Descriptor.Types
import Mathlib.Algebra.Ring.Nat

/-!
# Parts of what is read

What is cut out of a method descriptor agrees with what is read from it: the written arguments, their
slots and the written result. The result is looked for behind the last parenthesis, though, so it is
found exactly if there is no parenthesis in it.
-/
namespace JvmArchive.Descriptor

/-- The written types in front of a parenthesis are those of the types that are read there. -/
theorem leadingTypes_of_parseArguments? {s rest : List Char} {types : List FieldType}
    (h : MethodType.parseArguments? s = some (types, rest)) :
    leadingTypes s = types.map FieldType.print := by
  fun_induction MethodType.parseArguments? s generalizing types rest with
  | case1 s hend =>
    obtain ⟨rfl, -⟩ := Prod.mk.inj (Option.some.inj h)
    rw [leadingTypes, if_pos hend, List.map_nil]
  | case2 => cases h
  | case3 s hend type after hparse ih =>
    obtain ⟨⟨others, last⟩, hothers, hsame⟩ := Option.map_eq_some_iff.1 h
    obtain ⟨rfl, -⟩ := Prod.mk.inj hsame
    have htake : s.take (s.length - after.length) = type.print := by
      rw [FieldType.eq_append_of_parse? hparse, Text.take_length_sub]
    rw [leadingTypes, if_neg hend]
    split
    · rename_i hnone
      rw [hparse] at hnone
      cases hnone
    · rename_i found rest' hfound
      rw [hparse] at hfound
      obtain ⟨rfl, rfl⟩ := Prod.mk.inj (Option.some.inj hfound)
      rw [htake, ih hothers, List.map_cons]

section Read

variable {text : String} {type : MethodType} (h : MethodType.ofDescriptor? text = some type)
include h

theorem toList_of_ofDescriptor? : text.toList = type.print := (MethodType.parse?_eq_some_iff.1 h).2

theorem argumentDescriptors_of_ofDescriptor? :
    argumentDescriptors text = type.arguments.map FieldType.descriptor := by
  have hwritten := (MethodType.parse?_eq_some_iff.1 h).1
  rw [argumentDescriptors, toList_of_ofDescriptor? h, MethodType.print]
  simp only [leadingTypes_of_parseArguments? (MethodType.parseArguments?_append hwritten.arguments _)]
  rw [List.map_map]
  rfl

theorem argumentSlots_of_ofDescriptor? :
    argumentSlots text = (type.arguments.map FieldType.slots).sum := by
  rw [argumentSlots, h, List.sum_eq_foldr, List.foldr_map]
  rfl

/-- What is found as the result is what follows the last parenthesis of the result. -/
theorem returnType_of_ofDescriptor? :
    returnType text = String.ofList (Text.afterLast ')' type.result.print) := by
  rw [returnType, toList_of_ofDescriptor? h, MethodType.print, ← List.cons_append,
    Text.afterLast_append_cons]

theorem returnType_eq_iff : returnType text = type.result.descriptor ↔ ')' ∉ type.result.print := by
  rw [returnType_of_ofDescriptor? h, FieldType.descriptor, String.ofList_inj,
    Text.afterLast_eq_self_iff]

/-- The arguments and whatever is found as the result make up the descriptor exactly if that is the
result. -/
theorem eq_join_iff :
    text = "(" ++ String.join (argumentDescriptors text) ++ ")" ++ returnType text ↔
      returnType text = type.result.descriptor := by
  have harguments : (String.join (type.arguments.map FieldType.descriptor)).toList =
      type.arguments.flatMap FieldType.print := by
    simp [String.toList_join, List.flatMap_map, FieldType.descriptor]
  have htext : text =
      "(" ++ String.join (type.arguments.map FieldType.descriptor) ++ ")" ++ type.result.descriptor := by
    rw [← String.toList_inj, toList_of_ofDescriptor? h]
    simp [MethodType.print, FieldType.descriptor, harguments]
  rw [argumentDescriptors_of_ofDescriptor? h]
  constructor
  · intro hsame
    exact (String.append_right_inj _).1 (hsame.symm.trans htext)
  · intro hresult
    rw [hresult]
    exact htext

end Read

/-- What is cut out of a descriptor is what is read from it: the written arguments and their slots
always, and the written result, with which they make up the descriptor, exactly if it has no closing
parenthesis. -/
theorem parts_of_ofDescriptor? {text : String} {type : MethodType}
    (h : MethodType.ofDescriptor? text = some type) :
    argumentDescriptors text = type.arguments.map FieldType.descriptor ∧
      argumentSlots text = (type.arguments.map FieldType.slots).sum ∧
      (returnType text = type.result.descriptor ↔ ')' ∉ type.result.print) ∧
      (text = "(" ++ String.join (argumentDescriptors text) ++ ")" ++ returnType text ↔
        ')' ∉ type.result.print) :=
  ⟨argumentDescriptors_of_ofDescriptor? h, argumentSlots_of_ofDescriptor? h, returnType_eq_iff h,
    (eq_join_iff h).trans (returnType_eq_iff h)⟩

/-- An argument may have a parenthesis in its name. -/
theorem parts_of_ofDescriptor?_argument :
    MethodType.ofDescriptor? "(ILp/A);[[JD)Lp/B;" =
        some ⟨[.int, .object "p/A)", .array "[[J", .double], .object "p/B"⟩ ∧
      argumentDescriptors "(ILp/A);[[JD)Lp/B;" = ["I", "Lp/A);", "[[J", "D"] ∧
      argumentSlots "(ILp/A);[[JD)Lp/B;" = 5 ∧ returnType "(ILp/A);[[JD)Lp/B;" = "Lp/B;" := by
  have hread : MethodType.ofDescriptor? "(ILp/A);[[JD)Lp/B;" =
      some ⟨[.int, .object "p/A)", .array "[[J", .double], .object "p/B"⟩ := by decide +kernel
  obtain ⟨harguments, hslots, hresult, -⟩ := parts_of_ofDescriptor? hread
  exact ⟨hread, harguments, hslots, hresult.2 (by decide)⟩

/-- A result that has a parenthesis in its name is cut off there. -/
theorem returnType_ne_of_parenthesis :
    MethodType.ofDescriptor? "()La)b;" = some ⟨[], .object "a)b"⟩ ∧
      (FieldType.object "a)b").descriptor = "La)b;" ∧ returnType "()La)b;" = "b;" ∧
      "()La)b;" ≠ "(" ++ String.join (argumentDescriptors "()La)b;") ++ ")" ++ returnType "()La)b;" := by
  decide +kernel

end JvmArchive.Descriptor
