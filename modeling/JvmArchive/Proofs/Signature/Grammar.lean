import JvmArchive.Signature.Mapping

/-!
# The grammar of generic signatures

Signatures as trees, the text of a tree, and the renaming of the classes in a tree. A class type is
nested to the left, as its text is: `Lp/Outer<TT;>.Inner;` is the class `Inner` behind the class type
`Lp/Outer<TT;>`, and its full name `p/Outer$Inner` leaves all arguments out.
-/
namespace JvmArchive.Signature

/-- The primitive types. -/
inductive Primitive
  | byte | char | double | float | int | long | short | boolean
  deriving Repr, DecidableEq

def Primitive.letter : Primitive → Char
  | .byte => 'B'
  | .char => 'C'
  | .double => 'D'
  | .float => 'F'
  | .int => 'I'
  | .long => 'J'
  | .short => 'S'
  | .boolean => 'Z'

/-- How the type of an argument bounds it: not at all, from above or from below. -/
inductive Variance
  | exact | upper | lower
  deriving Repr, DecidableEq

def Variance.sign : Variance → List Char
  | .exact => []
  | .upper => ['+']
  | .lower => ['-']

mutual

/-- The types of objects. -/
inductive Reference
  | object (type : ClassType)
  | typeVariable (name : List Char)
  | array (element : JavaType)

inductive JavaType
  | primitive (type : Primitive)
  | reference (type : Reference)

/-- A class with its arguments, and the classes it is nested in with theirs. -/
inductive ClassType
  | outermost (name : List Char) (arguments : List Argument)
  | inner (enclosing : ClassType) (name : List Char) (arguments : List Argument)

inductive Argument
  /-- Any type at all. -/
  | any
  | of (variance : Variance) (type : Reference)

end

/-- A type parameter. Only the class bound may be left out, not the colon before it. -/
structure TypeParameter where
  name : List Char
  classBound : Option Reference
  interfaceBounds : List Reference

/-- What a method declares to throw. -/
inductive Thrown
  | object (type : ClassType)
  | typeVariable (name : List Char)

/-- The signature of a class, a method or a field. A method without a result is one of type `void`. -/
inductive Tree
  | ofClass (parameters : List TypeParameter) (superclass : ClassType) (interfaces : List ClassType)
  | ofMethod (parameters : List TypeParameter) (arguments : List JavaType) (result : Option JavaType)
      (throws : List Thrown)
  | ofField (type : Reference)

/-! ## Texts -/

/-- Texts between angles, which are left out around none. -/
def angled (texts : List (List Char)) : List Char :=
  if texts.isEmpty then [] else '<' :: texts.flatten ++ ['>']

mutual

def Reference.print : Reference → List Char
  | .object type => 'L' :: type.body ++ [';']
  | .typeVariable name => 'T' :: name ++ [';']
  | .array element => '[' :: element.print

def JavaType.print : JavaType → List Char
  | .primitive type => [type.letter]
  | .reference type => type.print

/-- The text of a class type between its `L` and its semicolon. -/
def ClassType.body : ClassType → List Char
  | .outermost name arguments => name ++ angled (printArguments arguments)
  | .inner enclosing name arguments =>
    enclosing.body ++ '.' :: name ++ angled (printArguments arguments)

def Argument.print : Argument → List Char
  | .any => ['*']
  | .of variance type => variance.sign ++ type.print

def printArguments : List Argument → List (List Char)
  | [] => []
  | argument :: arguments => argument.print :: printArguments arguments

end

def ClassType.print (type : ClassType) : List Char := (Reference.object type).print

def TypeParameter.print (parameter : TypeParameter) : List Char :=
  parameter.name ++ ':' :: parameter.classBound.elim [] Reference.print ++
    parameter.interfaceBounds.flatMap fun bound => ':' :: bound.print

def Thrown.print : Thrown → List Char
  | .object type => '^' :: type.print
  | .typeVariable name => '^' :: (Reference.typeVariable name).print

def printParameters (parameters : List TypeParameter) : List Char :=
  angled (parameters.map TypeParameter.print)

def Tree.print : Tree → List Char
  | .ofClass parameters superclass interfaces =>
    printParameters parameters ++ superclass.print ++ interfaces.flatMap ClassType.print
  | .ofMethod parameters arguments result throws =>
    printParameters parameters ++ '(' :: arguments.flatMap JavaType.print ++
      ')' :: result.elim ['V'] JavaType.print ++ throws.flatMap Thrown.print
  | .ofField type => type.print

/-! ## Well-formed signatures -/

/-- Whether a text is an identifier, which is not empty and has none of the characters that structure
a signature. -/
def isIdentifier (name : List Char) : Bool :=
  !name.isEmpty && name.all fun c => c ∉ ['.', ';', '[', '/', '<', '>', ':']

/-- Whether a text is the name of a class, its package in front of it. -/
def isClassName (name : List Char) : Bool := (name.splitOn '/').all isIdentifier

mutual

def Reference.isWellFormed : Reference → Bool
  | .object type => type.isWellFormed
  | .typeVariable name => isIdentifier name
  | .array element => element.isWellFormed

def JavaType.isWellFormed : JavaType → Bool
  | .primitive _ => true
  | .reference type => type.isWellFormed

def ClassType.isWellFormed : ClassType → Bool
  | .outermost name arguments => isClassName name && areWellFormed arguments
  | .inner enclosing name arguments =>
    enclosing.isWellFormed && isIdentifier name && areWellFormed arguments

def Argument.isWellFormed : Argument → Bool
  | .any => true
  | .of _ type => type.isWellFormed

def areWellFormed : List Argument → Bool
  | [] => true
  | argument :: arguments => argument.isWellFormed && areWellFormed arguments

end

/-- Besides having well-formed parts, a parameter has a bound that is written out. -/
def TypeParameter.isWellFormed (parameter : TypeParameter) : Bool :=
  isIdentifier parameter.name && parameter.classBound.all Reference.isWellFormed &&
    parameter.interfaceBounds.all Reference.isWellFormed &&
    (parameter.classBound.isSome || !parameter.interfaceBounds.isEmpty)

def Thrown.isWellFormed : Thrown → Bool
  | .object type => type.isWellFormed
  | .typeVariable name => isIdentifier name

def Tree.isWellFormed : Tree → Bool
  | .ofClass parameters superclass interfaces =>
    parameters.all TypeParameter.isWellFormed && superclass.isWellFormed &&
      interfaces.all ClassType.isWellFormed
  | .ofMethod parameters arguments result throws =>
    parameters.all TypeParameter.isWellFormed && arguments.all JavaType.isWellFormed &&
      result.all JavaType.isWellFormed && throws.all Thrown.isWellFormed
  | .ofField type => type.isWellFormed

/-! ## Renaming -/

/-- The name of a class type in class files, without any arguments. -/
def ClassType.fullName : ClassType → List Char
  | .outermost name _ => name
  | .inner enclosing name _ => enclosing.fullName ++ '$' :: name

section Rename

variable (f : String → Option String)

mutual

def Reference.rename : Reference → Reference
  | .object type => .object type.rename
  | .typeVariable name => .typeVariable name
  | .array element => .array element.rename

def JavaType.rename : JavaType → JavaType
  | .primitive type => .primitive type
  | .reference type => .reference type.rename

/-- An inner class is written as what tells its new full name from that of the class around it. -/
def ClassType.rename : ClassType → ClassType
  | .outermost name arguments => .outermost (Signature.rename f name) (renameArguments arguments)
  | .inner enclosing name arguments =>
    .inner enclosing.rename
      (innerSuffix (Signature.rename f enclosing.fullName)
        (Signature.rename f (enclosing.fullName ++ '$' :: name)))
      (renameArguments arguments)

def Argument.rename : Argument → Argument
  | .any => .any
  | .of variance type => .of variance type.rename

def renameArguments : List Argument → List Argument
  | [] => []
  | argument :: arguments => argument.rename :: renameArguments arguments

end

def TypeParameter.rename (parameter : TypeParameter) : TypeParameter where
  name := parameter.name
  classBound := parameter.classBound.map (Reference.rename f)
  interfaceBounds := parameter.interfaceBounds.map (Reference.rename f)

def Thrown.rename : Thrown → Thrown
  | .object type => .object (type.rename f)
  | .typeVariable name => .typeVariable name

def Tree.rename : Tree → Tree
  | .ofClass parameters superclass interfaces =>
    .ofClass (parameters.map (TypeParameter.rename f)) (superclass.rename f)
      (interfaces.map (ClassType.rename f))
  | .ofMethod parameters arguments result throws =>
    .ofMethod (parameters.map (TypeParameter.rename f)) (arguments.map (JavaType.rename f))
      (result.map (JavaType.rename f)) (throws.map (Thrown.rename f))
  | .ofField type => .ofField (type.rename f)

end Rename

end JvmArchive.Signature
