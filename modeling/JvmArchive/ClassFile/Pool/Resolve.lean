import JvmArchive.ClassFile.Pool.Basic
import JvmArchive.Code.Constant

/-!
# Resolving pool indices

What an index of a constant pool stands for, once the indices inside its entry are followed. Dynamic
constants nest through the arguments of their bootstrap methods; the depth is bounded.
-/
namespace JvmArchive.ConstantPool

/-- The text at an index. -/
def utf8 (pool : ConstantPool) (index : UInt16) : Except FormatError String :=
  match pool.entry? index with
  | some (.utf8 text) => .ok text
  | _ => .error (.invalidConstant index "Utf8")

/-- The text at an index, or none for the index zero. -/
def utf8? (pool : ConstantPool) (index : UInt16) : Except FormatError (Option String) :=
  if index = 0 then .ok none else (pool.utf8 index).map some

/-- The name of the class at an index. -/
def className (pool : ConstantPool) (index : UInt16) : Except FormatError String :=
  match pool.entry? index with
  | some (.class name) => pool.utf8 name
  | _ => .error (.invalidConstant index "Class")

/-- The name of the class at an index, or none for the index zero. -/
def className? (pool : ConstantPool) (index : UInt16) : Except FormatError (Option String) :=
  if index = 0 then .ok none else (pool.className index).map some

/-- The name and the descriptor at an index. -/
def nameAndType (pool : ConstantPool) (index : UInt16) : Except FormatError (String × String) :=
  match pool.entry? index with
  | some (.nameAndType name desc) => do
    let name ← pool.utf8 name
    let desc ← pool.utf8 desc
    return (name, desc)
  | _ => .error (.invalidConstant index "NameAndType")

/-- A field or method that an entry refers to. -/
structure Member where
  owner : String
  name : String
  desc : String
  interface : Bool
  deriving Repr, DecidableEq, Inhabited

/-- The words of a member reference, with whether the owner is an interface. -/
def memberWords? (pool : ConstantPool) (index : UInt16) : Option (UInt16 × UInt16 × Bool) :=
  match pool.entry? index with
  | some (.fieldRef owner member) | some (.methodRef owner member) => some (owner, member, false)
  | some (.interfaceMethodRef owner member) => some (owner, member, true)
  | _ => none

/-- The member that the entry at an index refers to. -/
def member (pool : ConstantPool) (index : UInt16) : Except FormatError Member :=
  match pool.memberWords? index with
  | some (owner, nameAndType, interface) => do
    let owner ← pool.className owner
    let (name, desc) ← pool.nameAndType nameAndType
    return { owner, name, desc, interface }
  | none => .error (.invalidConstant index "member reference")

/-- The method handle at an index. -/
def handle (pool : ConstantPool) (index : UInt16) : Except FormatError Handle :=
  match pool.entry? index with
  | some (.methodHandle kind reference) => do
    let member ← pool.member reference
    return { kind, owner := member.owner, name := member.name, desc := member.desc,
             interface := member.interface }
  | _ => .error (.invalidConstant index "MethodHandle")

/-- The row of the bootstrap table at an index, its arguments resolved by the given function. -/
def bootstrapMethod (pool : ConstantPool) (resolve : UInt16 → Except FormatError Constant)
    (index : UInt16) : Except FormatError (Handle × List Constant) :=
  match pool.bootstrap[index.toNat]? with
  | some entry => do
    let handle ← pool.handle entry.handle
    let arguments ← entry.arguments.mapM resolve
    return (handle, arguments)
  | none =>
    .error (.malformed "BootstrapMethods" ("no bootstrap method " ++ toString index.toNat))

/-- The loadable constant at an index, whose dynamic constants nest less deep than the bound. -/
def constantWithin (pool : ConstantPool) : Nat → UInt16 → Except FormatError Constant
  | 0, index => .error (.invalidConstant index "loadable constant")
  | depth + 1, index =>
    match pool.entry? index with
    | some (.integer value) => .ok (.integer value)
    | some (.float bits) => .ok (.float bits)
    | some (.long value) => .ok (.long value)
    | some (.double bits) => .ok (.double bits)
    | some (.string text) => (pool.utf8 text).map .string
    | some (.class name) => (pool.utf8 name).map .class
    | some (.methodType desc) => (pool.utf8 desc).map .methodType
    | some (.methodHandle ..) => (pool.handle index).map .methodHandle
    | some (.dynamic bootstrap nameAndType) => do
      let (name, desc) ← pool.nameAndType nameAndType
      let (handle, arguments) ← pool.bootstrapMethod (pool.constantWithin depth) bootstrap
      return .dynamic name desc handle arguments
    | _ => .error (.invalidConstant index "loadable constant")

/-- How many constants deep a loadable constant may nest, itself included. -/
def maxDepth : Nat := 33

/-- The loadable constant at an index. -/
def constant (pool : ConstantPool) (index : UInt16) : Except FormatError Constant :=
  pool.constantWithin maxDepth index

/-- The name, descriptor, bootstrap method and arguments of a dynamic call. -/
def callSite (pool : ConstantPool) (index : UInt16) :
    Except FormatError (String × String × Handle × List Constant) :=
  match pool.entry? index with
  | some (.invokeDynamic bootstrap nameAndType) => do
    let (name, desc) ← pool.nameAndType nameAndType
    let (handle, arguments) ← pool.bootstrapMethod (pool.constantWithin (maxDepth - 1)) bootstrap
    return (name, desc, handle, arguments)
  | _ => .error (.invalidConstant index "InvokeDynamic")

end JvmArchive.ConstantPool
