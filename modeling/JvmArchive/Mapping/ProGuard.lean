import JvmArchive.Descriptor.Source
import JvmArchive.Mapping.Store

/-!
# ProGuard mapping files

Classes as lines `name -> mapping:` and their members as indented lines below them, with types as a
programmer writes them. A member may have a range of source lines before it.
-/
namespace JvmArchive.Mapping.ProGuard

def arrow : String := " -> "

/-- What a file has said so far, and the class whose members come next. -/
structure Reader where
  store : Store
  current : Option String := none
  deriving Repr, Inhabited

/-- Cuts at the first arrow. -/
def cutArrow? (text : List Char) : Option (List Char × List Char) :=
  Text.cutWord? arrow.toList text

/-- A class name with slashes between packages. -/
def internalName (name : List Char) : String :=
  Text.replaceChar '.' '/' (String.ofList (Text.trim name))

/-- A class name with dots between packages. -/
def dotted (name : String) : String := Text.replaceChar '/' '.' name

/-- Drops a number and a colon at the front. -/
def dropLineNumber (text : List Char) : List Char :=
  match Text.cut? ':' text with
  | some (head, tail) => if !head.isEmpty && head.all Char.isDigit then tail else text
  | none => text

/-- Drops a range of source lines, two numbers, at the front. A single number counts as well. -/
def dropLineRange (text : List Char) : List Char := dropLineNumber (dropLineNumber text)

/-- The class line `name -> mapping:`. -/
def readClass (line : List Char) : Except String ClassMapping :=
  match (Text.dropTrailing? [':'] (Text.trimEnd line)).bind cutArrow? with
  | some (name, mapping) => pure { name := internalName name, mapping := internalName mapping }
  | none => throw "expected \x60<class> -> <mapping>:\x60"

/-- The method descriptor of written argument types and a written result type. -/
def methodDescriptor (arguments result : List Char) : String :=
  let types := ((arguments.splitOnP (· = ',')).map Text.trim).filter (!·.isEmpty)
  "(" ++ String.join (types.map fun type => Descriptor.ofSource (String.ofList type)) ++ ")" ++
    Descriptor.ofSource (String.ofList result)

/-- The member line `type name -> mapping` or `type name(types) -> mapping`. -/
def readMember (line : List Char) : Except String (FieldMapping ⊕ MethodMapping) := do
  let some (declaration, mapping) := cutArrow? (dropLineRange (Text.trim line))
    | throw "expected \x60<member> -> <mapping>\x60"
  let some (type, name) := Text.cut? ' ' (Text.trim declaration)
    | throw "expected \x60<type> <name>\x60"
  let mapping := String.ofList (Text.trim mapping)
  match Text.cut? '(' name with
  | some (method, rest) =>
    let some (arguments, _) := Text.cut? ')' rest | throw "unterminated argument list"
    pure (.inr
      { name := String.ofList (Text.trim method), mapping
        desc := methodDescriptor arguments type })
  | none =>
    pure (.inl
      { name := String.ofList (Text.trim name), mapping
        desc := Descriptor.ofSource (String.ofList type) })

/-- Whether a line says nothing. -/
def isComment (line : List Char) : Bool :=
  match Text.trimStart line with
  | [] => true
  | c :: _ => c = '#'

def isIndented : List Char → Bool
  | c :: _ => Text.isBlank c
  | [] => false

/-- Adds what a line says. -/
def Reader.readLine (reader : Reader) (line : List Char) : Except String Reader :=
  if isComment line then pure reader
  else if isIndented line then
    match reader.current with
    | none => throw "member before any class"
    | some owner => do
      match ← readMember line with
      | .inl field => pure { reader with store := reader.store.mapField owner field }
      | .inr method => pure { reader with store := reader.store.mapMethod owner method }
  else do
    let mapping ← readClass line
    pure
      { store := reader.store.mapClass mapping.name mapping.mapping
        current := some mapping.name }

def fieldLine (field : FieldMapping) : String :=
  "    " ++ Descriptor.toSource field.desc ++ " " ++ field.name ++ arrow ++ field.mapping ++ "\n"

def methodLine (method : MethodMapping) : String :=
  let arguments := (Descriptor.argumentDescriptors method.desc).map Descriptor.toSource
  "    " ++ Descriptor.toSource method.returnType ++ " " ++ method.name ++ "(" ++
    ",".intercalate arguments ++ ")" ++ arrow ++ method.mapping ++ "\n"

/-- The lines of a class. A field whose type has not been told cannot be written. -/
def classLines (store : Store) (name mapping : String) : List String :=
  (dotted name ++ arrow ++ dotted mapping ++ ":\n") ::
    (((store.fieldsOf name).filter (!·.desc.isEmpty)).map fieldLine ++
      (store.methodsOf name).map methodLine)

/-- Writes the classes of a store and their members. -/
def write (store : Store) : String :=
  String.join (store.classes.entries.flatMap fun (name, mapping) => classLines store name mapping)

end JvmArchive.Mapping.ProGuard
