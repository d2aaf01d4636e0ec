import JvmArchive.Access
import JvmArchive.ClassFile.Pool.Basic
import JvmArchive.Code.CodeList
import JvmArchive.Table

/-!
# Classes as trees

What a class file says, without pool indices and code offsets. A tree that was read from a file keeps
the pool of that file, so that attributes outside the model can be written back as they are.
-/
namespace JvmArchive

/-- An attribute outside the model: its name and its bytes. -/
structure RawAttribute where
  name : String
  data : List UInt8
  deriving Repr, DecidableEq, Inhabited

/-- Whether the bytes hold no pool index, so that they mean the same in every class. -/
def RawAttribute.isPoolIndependent (raw : RawAttribute) : Bool :=
  ["Deprecated", "Synthetic", "SourceDebugExtension"].contains raw.name

/-- The value of an annotation element. Floating-point values keep their bits. -/
inductive ElementValue
  | byte (value : Int8)
  | char (value : UInt16)
  | double (bits : UInt64)
  | float (bits : UInt32)
  | int (value : Int32)
  | long (value : Int64)
  | short (value : Int16)
  | boolean (value : Bool)
  | string (text : String)
  | enum (desc name : String)
  /-- A class literal by its return descriptor. -/
  | class (desc : String)
  /-- An annotation inside another one. -/
  | nested (desc : String) (values : List (String × ElementValue))
  | array (values : List ElementValue)
  deriving Repr, Inhabited

namespace ElementValue

mutual
/-- Equality of element values, computed. -/
def same : ElementValue → ElementValue → Bool
  | byte a, byte b => a == b
  | char a, char b => a == b
  | double a, double b => a == b
  | float a, float b => a == b
  | int a, int b => a == b
  | long a, long b => a == b
  | short a, short b => a == b
  | boolean a, boolean b => a == b
  | string a, string b => a == b
  | enum a b, enum c d => a == c && b == d
  | .class a, .class b => a == b
  | nested a vs, nested b ws => a == b && samePairs vs ws
  | array vs, array ws => sameAll vs ws
  | _, _ => false

def sameAll : List ElementValue → List ElementValue → Bool
  | [], [] => true
  | v :: vs, w :: ws => same v w && sameAll vs ws
  | _, _ => false

def samePairs : List (String × ElementValue) → List (String × ElementValue) → Bool
  | [], [] => true
  | (k, v) :: vs, (l, w) :: ws => k == l && same v w && samePairs vs ws
  | _, _ => false
end

mutual
theorem eq_of_same : ∀ {a b : ElementValue}, same a b = true → a = b
  | byte _, b, h | char _, b, h | double _, b, h | float _, b, h | int _, b, h | long _, b, h
  | short _, b, h | boolean _, b, h | string _, b, h | enum _ _, b, h | .class _, b, h => by
    cases b <;> simp_all [same]
  | nested _ vs, b, h => by
    cases b <;> simp only [same, Bool.and_eq_true, beq_iff_eq, Bool.false_eq_true] at h
    rw [h.1, eq_of_samePairs h.2]
  | array vs, b, h => by
    cases b <;> simp only [same, Bool.false_eq_true] at h
    rw [eq_of_sameAll h]

theorem eq_of_sameAll : ∀ {vs ws : List ElementValue}, sameAll vs ws = true → vs = ws
  | [], ws, h => by cases ws <;> simp_all [sameAll]
  | v :: vs, ws, h => by
    cases ws <;> simp only [sameAll, Bool.and_eq_true, Bool.false_eq_true] at h
    rw [eq_of_same h.1, eq_of_sameAll h.2]

theorem eq_of_samePairs :
    ∀ {vs ws : List (String × ElementValue)}, samePairs vs ws = true → vs = ws
  | [], ws, h => by cases ws <;> simp_all [samePairs]
  | (k, v) :: vs, ws, h => by
    cases ws <;> simp only [samePairs, Bool.and_eq_true, beq_iff_eq, Bool.false_eq_true] at h
    rw [eq_of_samePairs h.2, h.1.1, eq_of_same h.1.2]
end

mutual
theorem same_self : ∀ a : ElementValue, same a a = true
  | byte _ | char _ | double _ | float _ | int _ | long _ | short _ | boolean _ | string _
  | enum _ _ | .class _ => by simp [same]
  | nested _ vs => by simp [same, samePairs_self vs]
  | array vs => by simp [same, sameAll_self vs]

theorem sameAll_self : ∀ vs : List ElementValue, sameAll vs vs = true
  | [] => rfl
  | v :: vs => by simp [sameAll, same_self v, sameAll_self vs]

theorem samePairs_self : ∀ vs : List (String × ElementValue), samePairs vs vs = true
  | [] => rfl
  | (_, v) :: vs => by simp [samePairs, same_self v, samePairs_self vs]
end

instance : DecidableEq ElementValue := fun a b =>
  if h : same a b = true then isTrue (eq_of_same h)
  else isFalse fun e => h (e ▸ same_self a)

end ElementValue

/-- An annotation: its type and its elements, each key once. -/
structure AnnotationNode where
  desc : String
  values : List (String × ElementValue) := []
  deriving Repr, DecidableEq, Inhabited

namespace AnnotationNode

/-- The elements that pairs give one after the other. -/
def collect (pairs : List (String × ElementValue)) : List (String × ElementValue) :=
  pairs.foldl (fun values pair => Table.insertEntry pair.1 pair.2 values) []

end AnnotationNode

/-- A row of the inner-class table. -/
structure InnerClass where
  name : String
  outerName : Option String := none
  /-- The simple name; an anonymous class has none. -/
  innerName : Option String := none
  access : Access
  deriving Repr, DecidableEq, Inhabited

structure FieldNode where
  access : Access := 0
  name : String
  desc : String
  signature : Option String := none
  value : Option Constant := none
  visibleAnnotations : List AnnotationNode := []
  invisibleAnnotations : List AnnotationNode := []
  attributes : List RawAttribute := []
  deriving Repr, DecidableEq, Inhabited

structure ParameterNode where
  name : Option String
  access : Access
  deriving Repr, DecidableEq, Inhabited

/-- A protected range of code and its handler. Without a type the handler takes everything. -/
structure TryCatch where
  start : Label
  stop : Label
  handler : Label
  catchType : Option String
  deriving Repr, DecidableEq, Inhabited

/-- A named local variable and the range in which it lives. -/
structure LocalVariable where
  name : String
  desc : String
  signature : Option String
  start : Label
  stop : Label
  index : UInt16
  deriving Repr, DecidableEq, Inhabited

structure MethodNode where
  access : Access := 0
  name : String
  desc : String
  signature : Option String := none
  /-- The classes that the method declares to throw. -/
  exceptions : List String := []
  parameters : List ParameterNode := []
  visibleAnnotations : List AnnotationNode := []
  invisibleAnnotations : List AnnotationNode := []
  visibleParameterAnnotations : Option (List (List AnnotationNode)) := none
  invisibleParameterAnnotations : Option (List (List AnnotationNode)) := none
  annotationDefault : Option ElementValue := none
  instructions : List Instruction := []
  tryCatches : List TryCatch := []
  localVariables : List LocalVariable := []
  maxStack : UInt16 := 0
  maxLocals : UInt16 := 0
  attributes : List RawAttribute := []
  /-- Attributes of the code outside the model. -/
  codeAttributes : List RawAttribute := []
  /-- The label that the code hands out next, where that is not the first one beyond those in it. -/
  upcomingLabel : Option UInt32 := none
  deriving Repr, DecidableEq, Inhabited

namespace MethodNode

/-- Whether two methods say the same, whatever label their code hands out next. -/
def same (a b : MethodNode) : Bool :=
  decide ({ a with upcomingLabel := none } = { b with upcomingLabel := none })

/-- The label that the code hands out next. It may be in use, since an instruction can be exchanged for
a label that has not been handed out. -/
def nextLabel (method : MethodNode) : UInt32 :=
  method.upcomingLabel.getD (CodeList.ofList method.instructions).nextLabel

end MethodNode

/-- Whether two lists agree element by element. -/
def sameLists {α : Type} (same : α → α → Bool) : List α → List α → Bool
  | [], [] => true
  | a :: as, b :: bs => same a b && sameLists same as bs
  | _, _ => false

structure ClassNode where
  minorVersion : UInt16 := 0
  majorVersion : UInt16 := 0
  access : Access := 0
  name : String
  /-- Only the root class and module descriptions have no superclass. -/
  superName : Option String := none
  interfaces : List String := []
  signature : Option String := none
  sourceFile : Option String := none
  /-- The class that encloses this one, for a class inside a method. -/
  outerClass : Option String := none
  outerMethod : Option String := none
  outerMethodDesc : Option String := none
  innerClasses : List InnerClass := []
  nestHost : Option String := none
  nestMembers : List String := []
  permittedSubclasses : List String := []
  visibleAnnotations : List AnnotationNode := []
  invisibleAnnotations : List AnnotationNode := []
  fields : List FieldNode := []
  methods : List MethodNode := []
  attributes : List RawAttribute := []
  /-- The pool of the file that the class was read from. -/
  sourcePool : Option ConstantPool := none
  deriving Repr, Inhabited

namespace ClassNode

/-- Whether two trees say the same and both or neither have the pool that they were read with; what
is in the pools does not count. -/
def same (a b : ClassNode) : Bool :=
  a.minorVersion == b.minorVersion && a.majorVersion == b.majorVersion && a.access == b.access &&
    a.name == b.name && a.superName == b.superName && a.interfaces == b.interfaces &&
    a.signature == b.signature && a.sourceFile == b.sourceFile && a.outerClass == b.outerClass &&
    a.outerMethod == b.outerMethod && a.outerMethodDesc == b.outerMethodDesc &&
    a.innerClasses == b.innerClasses && a.nestHost == b.nestHost &&
    a.nestMembers == b.nestMembers && a.permittedSubclasses == b.permittedSubclasses &&
    a.visibleAnnotations == b.visibleAnnotations &&
    a.invisibleAnnotations == b.invisibleAnnotations && a.fields == b.fields &&
    sameLists MethodNode.same a.methods b.methods && a.attributes == b.attributes &&
    a.sourcePool.isSome == b.sourcePool.isSome

end ClassNode
end JvmArchive
