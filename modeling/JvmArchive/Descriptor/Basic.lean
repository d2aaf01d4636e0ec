import JvmArchive.Text.Cut

/-!
# Descriptors

Field types and method types of the virtual machine, their written form and its reader. A written type
is one letter for a primitive, `L<name>;` for a class and a leading `[` per array dimension; a method
type is `(<arguments>)<result>`.
-/
namespace JvmArchive

/-- A type as a descriptor names it. -/
inductive FieldType
  | byte
  | char
  | double
  | float
  | int
  | long
  | short
  | boolean
  | void
  /-- A class by its internal name. -/
  | object (name : String)
  /-- An array by its whole written form, the brackets included. -/
  | array (text : String)
  deriving Repr, DecidableEq, Inhabited

namespace FieldType

/-- The number of local variable or stack slots that a value takes. -/
def slots : FieldType → Nat
  | long | double => 2
  | void => 0
  | _ => 1

/-- The written form. -/
def print : FieldType → List Char
  | byte => ['B']
  | char => ['C']
  | double => ['D']
  | float => ['F']
  | int => ['I']
  | long => ['J']
  | short => ['S']
  | boolean => ['Z']
  | void => ['V']
  | object name => 'L' :: (name.toList ++ [';'])
  | array text => text.toList

/-- The written form as a string. -/
def descriptor (type : FieldType) : String := String.ofList type.print

/-- Reads one type at the front of a text and gives the rest of the text. An array takes all its brackets
at once, and what it keeps is the text up to the rest behind its element. -/
def parse? : List Char → Option (FieldType × List Char)
  | [] => none
  | c :: rest =>
    match c with
    | 'B' => some (byte, rest)
    | 'C' => some (char, rest)
    | 'D' => some (double, rest)
    | 'F' => some (float, rest)
    | 'I' => some (int, rest)
    | 'J' => some (long, rest)
    | 'S' => some (short, rest)
    | 'Z' => some (boolean, rest)
    | 'V' => some (void, rest)
    | 'L' => (Text.cut? ';' rest).map fun (name, after) => (object (String.ofList name), after)
    | '[' =>
      (parse? (rest.dropWhile (· = '['))).map fun (_, after) =>
        (array (String.ofList ((c :: rest).take ((c :: rest).length - after.length))), after)
    | _ => none
termination_by s => s.length
decreasing_by exact Nat.lt_succ_of_le (List.dropWhile_suffix _).length_le

/-- Reading a type takes its written form off the text. -/
theorem eq_append_of_parse? {s rest : List Char} {type : FieldType}
    (h : parse? s = some (type, rest)) : s = type.print ++ rest := by
  fun_induction parse? s generalizing type rest with
  | case1 => simp at h
  | case2 c | case3 c | case4 c | case5 c | case6 c | case7 c | case8 c | case9 c | case10 c =>
    obtain ⟨rfl, rfl⟩ := Prod.mk.inj (Option.some.inj h)
    rfl
  | case11 s =>
    obtain ⟨⟨name, after⟩, hcut, hparse⟩ := Option.map_eq_some_iff.1 h
    obtain ⟨rfl, rfl⟩ := Prod.mk.inj hparse
    simp [print, Text.eq_append_of_cut? hcut]
  | case12 s ih =>
    obtain ⟨⟨element, after⟩, helement, hparse⟩ := Option.map_eq_some_iff.1 h
    obtain ⟨rfl, rfl⟩ := Prod.mk.inj hparse
    have hsuffix : after <:+ '[' :: s :=
      (ih helement ▸ List.suffix_append ..).trans
        ((List.dropWhile_suffix _).trans (List.suffix_cons ..))
    obtain ⟨front, hfront⟩ := hsuffix
    rw [print, String.toList_ofList, ← hfront]
    simp
  | case13 => simp at h

/-- Reading a type uses up at least one character. -/
theorem length_parse?_lt {s rest : List Char} {type : FieldType}
    (h : parse? s = some (type, rest)) : rest.length < s.length := by
  fun_induction parse? s generalizing type rest with
  | case1 => simp at h
  | case2 c | case3 c | case4 c | case5 c | case6 c | case7 c | case8 c | case9 c | case10 c =>
    simp only [Option.some.injEq, Prod.mk.injEq] at h
    simp [h.2]
  | case11 s =>
    obtain ⟨⟨name, after⟩, hcut, hparse⟩ := Option.map_eq_some_iff.1 h
    obtain ⟨-, rfl⟩ := Prod.mk.inj hparse
    have := Text.length_after_cut? hcut
    simp only [List.length_cons]
    omega
  | case12 s ih =>
    obtain ⟨⟨element, after⟩, helement, hparse⟩ := Option.map_eq_some_iff.1 h
    obtain ⟨-, rfl⟩ := Prod.mk.inj hparse
    have hrest := ih helement
    have hbrackets : (s.dropWhile (· = '[')).length ≤ s.length := (List.dropWhile_suffix _).length_le
    simp only [List.length_cons]
    omega
  | case13 => simp at h

/-- The type that a text starts with, if it starts with one. -/
def ofDescriptor? (text : String) : Option FieldType := (parse? text.toList).map (·.1)

end FieldType

/-- The arguments and the result of a method. -/
structure MethodType where
  arguments : List FieldType
  result : FieldType
  deriving Repr, DecidableEq, Inhabited

namespace MethodType

/-- The written form. -/
def print (type : MethodType) : List Char :=
  '(' :: (type.arguments.flatMap FieldType.print ++ ')' :: type.result.print)

/-- Reads types up to the closing parenthesis and gives what follows it. -/
def parseArguments? (s : List Char) : Option (List FieldType × List Char) :=
  if s.head? = some ')' then some ([], s.tail)
  else
    match _h : FieldType.parse? s with
    | none => none
    | some (type, rest) =>
      (parseArguments? rest).map fun (types, after) => (type :: types, after)
termination_by s.length
decreasing_by exact FieldType.length_parse?_lt _h

/-- Reads a method descriptor with nothing before or after it. -/
def parse? (text : List Char) : Option MethodType :=
  match text with
  | '(' :: rest =>
    match parseArguments? rest with
    | none => none
    | some (arguments, rest) =>
      match FieldType.parse? rest with
      | some (result, []) => some ⟨arguments, result⟩
      | _ => none
  | _ => none

/-- Reads a method descriptor. -/
def ofDescriptor? (text : String) : Option MethodType := parse? text.toList

/-- The slots that the arguments take together. -/
def argumentSlots (type : MethodType) : Nat :=
  type.arguments.foldr (fun argument slots => argument.slots + slots) 0

end MethodType
end JvmArchive
