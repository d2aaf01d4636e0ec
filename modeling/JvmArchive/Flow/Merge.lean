import JvmArchive.Code.Instruction
import JvmArchive.Descriptor.Parts

/-!
# States and their merging

What is known about the local variables and the stack before an instruction, slot by slot: a long or a
double is followed by a slot of which nothing is known. Where control flows together, each slot keeps
what is known on both ways. Two classes meet in a common superclass, which the class hierarchy names.
-/
namespace JvmArchive

/-! ## States -/

/-- Whether a value takes two slots. -/
def VerificationType.isWide : VerificationType → Bool
  | long | double => true
  | _ => false

namespace Flow

/-- The types in the slots of the local variables and of the stack. -/
structure State where
  locals : List VerificationType := []
  /-- The stack, its top first. -/
  stack : List VerificationType := []
  deriving Repr, DecidableEq, Inhabited

/-- Slots from values: a wide value gets a second slot. -/
def expand : List VerificationType → List VerificationType
  | [] => []
  | type :: rest => if type.isWide then type :: .top :: expand rest else type :: expand rest

/-- Values from slots: the slot after a wide value is passed over. -/
def compact : List VerificationType → List VerificationType
  | [] => []
  | [type] => [type]
  | type :: second :: rest =>
    if type.isWide then type :: compact rest else type :: compact (second :: rest)

/-- The state with the given slots, the stack from its bottom to its top. -/
def State.ofSlots (locals stack : List VerificationType) : State :=
  { locals, stack := stack.reverse }

/-- The slots of the stack from its bottom to its top. -/
def State.stackSlots (state : State) : List VerificationType := state.stack.reverse

/-- The frame of a state, without the unknown local variables at the end. -/
def State.toFrame (state : State) : StackFrame where
  locals := ((compact state.locals).reverse.dropWhile (· = .top)).reverse
  stack := compact state.stackSlots

/-! ## Merging -/

/-- The class at the root of every hierarchy. -/
def rootClass : String := "java/lang/Object"

/-- The answer of a class hierarchy: a superclass that two classes share. -/
abbrev CommonSuper := String → String → String

/-- The hierarchy of which nothing is known: two different classes share the root. -/
def rootOnly : CommonSuper := fun a b => if a = b then a else rootClass

/-- The hierarchy that answers from a list: the row for the two classes in this order, otherwise the
first of them. -/
def fromRows (rows : List (String × String × String)) : CommonSuper := fun a b =>
  match rows.find? fun row => row.1 = a && row.2.1 = b with
  | some row => row.2.2
  | none => a

/-- The array dimensions of a class name, and what follows them. -/
def splitDimensions (name : List Char) : Nat × List Char :=
  ((name.takeWhile (· = '[')).length, name.dropWhile (· = '['))

/-- The common superclass of two names of which one at least is an array: arrays of classes with
equally many dimensions meet in an array. -/
def mergeArrays (common : CommonSuper) (x y : String) : String :=
  let (dx, ex) := splitDimensions x.toList
  let (dy, ey) := splitDimensions y.toList
  if dx = dy ∧ 0 < dx then
    match Descriptor.objectName? (String.ofList ex), Descriptor.objectName? (String.ofList ey) with
    | some a, some b => String.ofList (List.replicate dx '[') ++ "L" ++ common a b ++ ";"
    | _, _ => rootClass
  else rootClass

def isArray (name : String) : Bool := name.startsWith "["

/-- What is known of a slot that holds one of two types. -/
def mergeType (common : CommonSuper) (a b : VerificationType) : VerificationType :=
  if a = b then a
  else
    match a, b with
    | .null, .object _ => b
    | .object _, .null => a
    | .object x, .object y =>
      .object (if isArray x || isArray y then mergeArrays common x y else common x y)
    | _, _ => .top

/-- Merges local variables; of those beyond the shorter list nothing is known. -/
def mergeLocals (common : CommonSuper) :
    List VerificationType → List VerificationType → List VerificationType
  | [], incoming => List.replicate incoming.length .top
  | existing, [] => existing.map (mergeType common · .top)
  | a :: existing, b :: incoming => mergeType common a b :: mergeLocals common existing incoming

/-- Merges a state into an existing one, if their stacks are equally high. -/
def merge? (common : CommonSuper) (existing incoming : State) : Option State :=
  if existing.stack.length = incoming.stack.length then
    some
      { locals := mergeLocals common existing.locals incoming.locals
        stack := List.zipWith (mergeType common) existing.stack incoming.stack }
  else none

end Flow
end JvmArchive
