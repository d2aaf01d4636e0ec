import JvmArchive.Descriptor.Basic

/-!
# Parts of descriptors

What can be cut out of a descriptor without reading all of it, and the rewriting of the class names in
it. All of these are total: text that is no descriptor is cut as far as it goes and otherwise kept.
-/
namespace JvmArchive.Descriptor

/-- The slots of a method descriptor's arguments without the receiver; none if it is malformed. -/
def argumentSlots (text : String) : Nat :=
  match MethodType.ofDescriptor? text with
  | some type => type.argumentSlots
  | none => 0

/-- What follows the last closing parenthesis: the result of a method, or a field's whole type. -/
def returnType (text : String) : String :=
  String.ofList (Text.afterLast ')' text.toList)

/-- The name between a leading `L` and a trailing semicolon. -/
def objectName? (text : String) : Option String :=
  match text.toList with
  | 'L' :: rest => (Text.dropTrailing? [';'] rest).map String.ofList
  | _ => none

/-- The last part of an internal name, behind the packages. -/
def simpleName (name : String) : String :=
  String.ofList (Text.afterLast '/' name.toList)

/-- The written types at the front of a text, up to a closing parenthesis or the first thing that is
no type: each is what reading a type takes off the text. -/
def leadingTypes (s : List Char) : List (List Char) :=
  if s.head? = some ')' then []
  else
    match _h : FieldType.parse? s with
    | none => []
    | some (_, rest) => s.take (s.length - rest.length) :: leadingTypes rest
termination_by s.length
decreasing_by exact FieldType.length_parse?_lt _h

/-- The written argument types of a method descriptor. -/
def argumentDescriptors (text : String) : List String :=
  match text.toList with
  | '(' :: rest => (leadingTypes rest).map String.ofList
  | _ => []

/-- Renames what stands after each `L` up to the next semicolon; an `L` without one ends the renaming. -/
def mapNames (f : String → Option String) : List Char → List Char
  | [] => []
  | c :: rest =>
    if c = 'L' then
      match _h : Text.cut? ';' rest with
      | some (name, after) =>
        'L' :: (((f (String.ofList name)).map String.toList).getD name ++ ';' :: mapNames f after)
      | none => c :: rest
    else c :: mapNames f rest
termination_by s => s.length
decreasing_by
  · have := Text.length_after_cut? _h
    simp only [List.length_cons]
    omega
  · simp

/-- Renames every class of a descriptor; a name without an image is kept. -/
def map (f : String → Option String) (text : String) : String :=
  String.ofList (mapNames f text.toList)

end JvmArchive.Descriptor
