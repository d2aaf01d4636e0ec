import JvmArchive.ClassFile.Node
import JvmArchive.Descriptor.Basic

/-!
# The frame at method entry

The types of the local variables before the first instruction: the receiver of an instance method and
the arguments. A long or a double is one entry.
-/
namespace JvmArchive

/-- How a value of a type is stated in frames; nothing is known of a void. -/
def VerificationType.ofFieldType : FieldType → VerificationType
  | .boolean | .byte | .char | .short | .int => .integer
  | .float => .float
  | .long => .long
  | .double => .double
  | .object name => .object name
  | .array text => .object text
  | .void => .top

/-- The receiver of a method: none if it is static, and not yet initialised in a constructor of any
class but the root. -/
def MethodNode.receiver? (method : MethodNode) (owner : String) : Option VerificationType :=
  if method.access.isStatic then none
  else if method.name == "<init>" && owner != "java/lang/Object" then some .uninitializedThis
  else some (.object owner)

/-- The types of the arguments; none if the descriptor is malformed. -/
def MethodNode.argumentTypes (method : MethodNode) : List VerificationType :=
  match MethodType.ofDescriptor? method.desc with
  | some type => type.arguments.map .ofFieldType
  | none => []

/-- The local variables at the entry of a method. -/
def MethodNode.entryLocals (method : MethodNode) (owner : String) : List VerificationType :=
  (method.receiver? owner).toList ++ method.argumentTypes

end JvmArchive
