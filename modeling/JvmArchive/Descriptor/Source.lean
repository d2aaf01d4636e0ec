import JvmArchive.Descriptor.Parts
import JvmArchive.Text.Cut

/-!
# Source types

Types as a programmer writes them, `int` or `a.b.C[][]`, and their descriptors.
-/
namespace JvmArchive.Descriptor

/-- The primitive types by their keyword and their letter. -/
def primitives : List (String × String) :=
  [("void", "V"), ("boolean", "Z"), ("byte", "B"), ("char", "C"), ("short", "S"), ("int", "I"),
    ("long", "J"), ("float", "F"), ("double", "D")]

/-- Counts the pairs of brackets at the front of a reversed text and gives what is left of it. -/
def countBrackets : List Char → Nat × List Char
  | ']' :: '[' :: rest =>
    let (n, element) := countBrackets rest
    (n + 1, element)
  | s => (0, s)

/-- The descriptor of a source type. Both dots and slashes separate packages. -/
def ofSource (text : String) : String :=
  let (dimensions, reversed) := countBrackets (Text.trim text.toList).reverse
  let element := String.ofList reversed.reverse
  let written :=
    match primitives.lookup element with
    | some letter => letter
    | none => "L" ++ Text.replaceChar '.' '/' element ++ ";"
  String.ofList (List.replicate dimensions '[') ++ written

/-- The source form of a field descriptor, with dots between packages. -/
def toSource (text : String) : String :=
  let dimensions := (text.toList.takeWhile (· = '[')).length
  let element := String.ofList (text.toList.drop dimensions)
  let written :=
    match primitives.find? (·.2 = element) with
    | some (keyword, _) => keyword
    | none => Text.replaceChar '/' '.' ((objectName? element).getD element)
  written ++ String.join (List.replicate dimensions "[]")

end JvmArchive.Descriptor
