import JvmArchive.Proofs.Descriptor.Names
import JvmArchive.Proofs.Descriptor.Types

/-!
# Renaming types

A descriptor is renamed without being read. On the written form of a type that is the written form of
the renamed type, in which nothing but the class names has changed, and on any text renaming by one map
and then by another is renaming by the two of them.
-/
namespace JvmArchive

open Descriptor (image mapNames)

namespace FieldType

/-- A type with its class renamed. An array is renamed in its element, which follows its brackets. -/
def rename (f : String → Option String) : FieldType → FieldType
  | object name => object (image f name)
  | array text =>
    match Descriptor.objectName? (String.ofList (text.toList.dropWhile (· = '['))) with
    | some name =>
      array (String.ofList (text.toList.takeWhile (· = '[') ++ (object (image f name)).print))
    | none => array text
  | type => type

theorem rename_array (f : String → Option String) {element : FieldType} (h : element.IsElement)
    (dimensions : Nat) :
    (array (String.ofList (List.replicate (dimensions + 1) '[' ++ element.print))).rename f =
      array (String.ofList (List.replicate (dimensions + 1) '[' ++ (element.rename f).print)) := by
  have hdrop : (List.replicate (dimensions + 1) '[' ++ element.print).dropWhile (· = '[') =
      element.print := by
    simpa using h.dropWhile_brackets (dimensions + 1) []
  have htake : (List.replicate (dimensions + 1) '[' ++ element.print).takeWhile (· = '[') =
      List.replicate (dimensions + 1) '[' := by
    have hsplit := List.takeWhile_append_dropWhile (p := fun c => decide (c = '['))
      (l := List.replicate (dimensions + 1) '[' ++ element.print)
    rw [hdrop] at hsplit
    exact List.append_cancel_right hsplit
  rw [rename, String.toList_ofList, hdrop, htake]
  cases element with
  | object name =>
    rw [print, ← List.cons_append, Descriptor.objectName?_wrapped, String.ofList_toList]
    rfl
  | array => exact h.elim
  | _ => rfl

/-- The written form of a type is renamed in its class and nowhere else. -/
theorem IsElement.mapNames_append (f : String → Option String) {type : FieldType} (h : type.IsElement)
    (rest : List Char) :
    mapNames f (type.print ++ rest) = (type.rename f).print ++ mapNames f rest := by
  cases type with
  | object name =>
    have hcut : Text.cut? ';' (name.toList ++ ';' :: rest) = some (name.toList, rest) :=
      Text.cut?_append h rest
    have htext : (object name).print ++ rest = 'L' :: (name.toList ++ ';' :: rest) := by simp [print]
    rw [htext, Descriptor.mapNames_of_cut? f hcut, String.ofList_toList]
    simp [rename, print]
  | array => exact h.elim
  | _ => exact Descriptor.mapNames_append f (by decide) rest

theorem IsWritten.mapNames_append (f : String → Option String) {type : FieldType} (h : type.IsWritten)
    (rest : List Char) :
    mapNames f (type.print ++ rest) = (type.rename f).print ++ mapNames f rest := by
  cases h with
  | element h => exact h.mapNames_append f rest
  | array dimensions h =>
    have hbrackets : 'L' ∉ List.replicate (dimensions + 1) '[' := by simp
    rw [rename_array f h, print, print, String.toList_ofList, String.toList_ofList, List.append_assoc,
      List.append_assoc, Descriptor.mapNames_append f hbrackets, h.mapNames_append f]

theorem IsWritten.mapNames_print (f : String → Option String) {type : FieldType} (h : type.IsWritten) :
    mapNames f type.print = (type.rename f).print := by
  have happend := h.mapNames_append f []
  rwa [List.append_nil, mapNames, List.append_nil] at happend

end FieldType

namespace MethodType

/-- A method type with the classes of its arguments and of its result renamed. -/
def rename (f : String → Option String) (type : MethodType) : MethodType where
  arguments := type.arguments.map (·.rename f)
  result := type.result.rename f

theorem mapNames_flatMap_print (f : String → Option String) {types : List FieldType}
    (h : ∀ type ∈ types, type.IsWritten) (rest : List Char) :
    mapNames f (types.flatMap FieldType.print ++ rest) =
      (types.map (·.rename f)).flatMap FieldType.print ++ mapNames f rest := by
  induction types with
  | nil => rfl
  | cons type types ih =>
    rw [List.forall_mem_cons] at h
    rw [List.flatMap_cons, List.append_assoc, h.1.mapNames_append f, ih h.2, List.map_cons,
      List.flatMap_cons, List.append_assoc]

theorem IsWritten.mapNames_print (f : String → Option String) {type : MethodType} (h : type.IsWritten) :
    mapNames f type.print = (type.rename f).print := by
  rw [print, print, mapNames, if_neg (by decide), mapNames_flatMap_print f h.arguments, mapNames,
    if_neg (by decide), h.result.mapNames_print f]
  rfl

end MethodType

namespace Descriptor

/-- A text that is renamed twice is renamed by both maps one after the other, wherever a name stands in
it, if the first one brings no semicolon in; and what is read from a text is the same before and after,
but for the class names of its types. -/
theorem map_composes_and_renames :
    (∀ f g : String → Option String, (∀ name new, f name = some new → ';' ∉ new.toList) →
      ∀ text, map g (map f text) = map (fun name => some (image g (image f name))) text) ∧
    (∀ f text type, FieldType.parse? text.toList = some (type, []) →
      text.toList = type.print ∧ (map f text).toList = (type.rename f).print) ∧
    ∀ f text type, MethodType.ofDescriptor? text = some type →
      text.toList = type.print ∧ (map f text).toList = (type.rename f).print := by
  refine ⟨?composes, ?field, ?method⟩
  case composes =>
    intro f g hnew text
    rw [map, map, String.toList_ofList, mapNames_mapNames, map]
    intro name hname
    unfold image
    cases hf : f name with
    | none => exact not_mem_of_mem_namesIn hname
    | some new => exact hnew name new hf
  case field =>
    intro f text type h
    obtain ⟨hwritten, htext⟩ := FieldType.parse?_eq_some_iff.1 h
    rw [List.append_nil] at htext
    exact ⟨htext, by rw [map, String.toList_ofList, htext, hwritten.mapNames_print f]⟩
  case method =>
    intro f text type h
    obtain ⟨hwritten, htext⟩ := MethodType.parse?_eq_some_iff.1 h
    exact ⟨htext, by rw [map, String.toList_ofList, htext, hwritten.mapNames_print f]⟩

/-- Two names exchanged and one of them replaced after that, in texts that are no descriptors as in
texts that are. -/
theorem map_composes_and_renames_exchanged :
    let exchange : String → Option String := fun name =>
      if name = "p/A" then some "p/B" else if name = "p/B" then some "p/A" else none
    let replace : String → Option String := fun name => if name = "p/A" then some "a" else none
    (∀ name new, exchange name = some new → ';' ∉ new.toList) ∧
      map replace (map exchange "(Lp/A;[Lp/B;L;)Lp/A") = "(Lp/B;[La;L;)Lp/A" ∧
      FieldType.parse? "[[Lp/A;".toList = some (.array "[[Lp/A;", []) ∧
      (map exchange "[[Lp/A;").toList = "[[Lp/B;".toList ∧
      MethodType.ofDescriptor? "(ILp/A;)[Lp/B;" = some ⟨[.int, .object "p/A"], .array "[Lp/B;"⟩ ∧
      (map exchange "(ILp/A;)[Lp/B;").toList = "(ILp/B;)[Lp/A;".toList := by
  intro exchange replace
  have hnew : ∀ name new, exchange name = some new → ';' ∉ new.toList := by
    intro name new h
    simp only [exchange] at h
    split at h
    · cases h
      decide
    · split at h
      · cases h
        decide
      · cases h
  have hfield : FieldType.parse? "[[Lp/A;".toList = some (.array "[[Lp/A;", []) := by decide +kernel
  have hmethod : MethodType.ofDescriptor? "(ILp/A;)[Lp/B;" =
      some ⟨[.int, .object "p/A"], .array "[Lp/B;"⟩ := by decide +kernel
  obtain ⟨hcomposes, hrenamesField, hrenamesMethod⟩ := map_composes_and_renames
  exact ⟨hnew, (hcomposes exchange replace hnew _).trans (by decide +kernel), hfield,
    (hrenamesField exchange _ _ hfield).2.trans (by decide +kernel), hmethod,
    (hrenamesMethod exchange _ _ hmethod).2.trans (by decide +kernel)⟩

end Descriptor
end JvmArchive
