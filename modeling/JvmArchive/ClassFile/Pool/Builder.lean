import JvmArchive.ClassFile.Pool.Basic
import JvmArchive.Code.Constant
import JvmArchive.Opcode
import Std.Data.HashMap

/-!
# Building constant pools

A pool that grows by what is asked of it: an entry that is there already is used again, and a new one
goes to the end. The slots of a pool that one starts from keep their indices, and so do the rows of
its bootstrap table.
-/
namespace JvmArchive

/-- A growing pool with the index of every entry in it. -/
structure PoolBuilder where
  entries : Array PoolEntry := #[.unusable]
  indices : Std.HashMap PoolEntry UInt16 := ∅
  bootstrap : Array BootstrapEntry := #[]
  bootstrapIndices : Std.HashMap BootstrapEntry UInt16 := ∅
  deriving Inhabited

/-- A computation that asks for pool entries and may find that they do not fit. -/
abbrev PoolWriter := StateT PoolBuilder (Except WriteError)

namespace PoolBuilder

/-- The indices of the entries of an array; of equal entries the first counts. -/
def firstIndices {α : Type} [BEq α] [Hashable α] (items : Array α) : Std.HashMap α UInt16 :=
  (items.toList.zipIdx).foldl (fun indices item => indices.insertIfNew item.1 item.2.toUInt16) ∅

/-- Starts from a pool, all of whose indices stay valid. -/
def ofPool (pool : ConstantPool) : PoolBuilder where
  entries := if pool.entries.isEmpty then #[.unusable] else pool.entries
  indices := (firstIndices pool.entries).erase .unusable
  bootstrap := pool.bootstrap
  bootstrapIndices := firstIndices pool.bootstrap

/-- The pool built so far. -/
def toPool (builder : PoolBuilder) : ConstantPool :=
  { entries := builder.entries, bootstrap := builder.bootstrap }

/-- The largest number of slots. -/
def maxSlots : Nat := 65535

/-- The index of an entry, which is put to the end if it is new. -/
def add (entry : PoolEntry) : PoolWriter UInt16 := fun builder =>
  match builder.indices[entry]? with
  | some index => .ok (index, builder)
  | none =>
    if builder.entries.size + (if entry.isWide then 2 else 1) > maxSlots then
      .error .constantPoolOverflow
    else
      let index := builder.entries.size.toUInt16
      .ok (index,
        { builder with
          entries := ConstantPool.pushEntry builder.entries entry
          indices := builder.indices.insert entry index })

def utf8 (text : String) : PoolWriter UInt16 := add (.utf8 text)

def class_ (name : String) : PoolWriter UInt16 := do add (.class (← utf8 name))

def string (text : String) : PoolWriter UInt16 := do add (.string (← utf8 text))

def nameAndType (name desc : String) : PoolWriter UInt16 := do
  let name ← utf8 name
  let desc ← utf8 desc
  add (.nameAndType name desc)

def fieldRef (owner name desc : String) : PoolWriter UInt16 := do
  let owner ← class_ owner
  let member ← nameAndType name desc
  add (.fieldRef owner member)

def methodRef (owner name desc : String) (interface : Bool) : PoolWriter UInt16 := do
  let owner ← class_ owner
  let member ← nameAndType name desc
  add (if interface then .interfaceMethodRef owner member else .methodRef owner member)

/-- A handle of a field kind refers to a field, any other to a method. -/
def handle (handle : Handle) : PoolWriter UInt16 := do
  let reference ←
    if handle.kind ≤ HandleKind.putStatic then fieldRef handle.owner handle.name handle.desc
    else methodRef handle.owner handle.name handle.desc handle.interface
  add (.methodHandle handle.kind reference)

def methodType (desc : String) : PoolWriter UInt16 := do add (.methodType (← utf8 desc))

/-- The row of the bootstrap table, which is put to the end if it is new. -/
def addBootstrap (entry : BootstrapEntry) : PoolWriter UInt16 := fun builder =>
  match builder.bootstrapIndices[entry]? with
  | some index => .ok (index, builder)
  | none =>
    let index := builder.bootstrap.size.toUInt16
    .ok (index,
      { builder with
        bootstrap := builder.bootstrap.push entry
        bootstrapIndices := builder.bootstrapIndices.insert entry index })

mutual
/-- The index of a loadable constant. -/
def constant : Constant → PoolWriter UInt16
  | .integer value => add (.integer value)
  | .float bits => add (.float bits)
  | .long value => add (.long value)
  | .double bits => add (.double bits)
  | .string text => string text
  | .class name => class_ name
  | .methodType desc => methodType desc
  | .methodHandle target => handle target
  | .dynamic name desc bootstrap arguments => do
    let bootstrap ← handle bootstrap
    let arguments ← constants arguments
    let row ← addBootstrap ⟨bootstrap, arguments⟩
    let member ← nameAndType name desc
    add (.dynamic row member)

/-- The indices of loadable constants, in order. -/
def constants : List Constant → PoolWriter (List UInt16)
  | [] => return []
  | c :: cs => do
    let index ← constant c
    let indices ← constants cs
    return index :: indices
end

/-- The index of a bootstrap method with its arguments in the bootstrap table. -/
def bootstrapMethod (bootstrap : Handle) (arguments : List Constant) : PoolWriter UInt16 := do
  let bootstrap ← handle bootstrap
  let arguments ← constants arguments
  addBootstrap ⟨bootstrap, arguments⟩

/-- The index of a dynamic call site. -/
def invokeDynamic (name desc : String) (bootstrap : Handle) (arguments : List Constant) :
    PoolWriter UInt16 := do
  let row ← bootstrapMethod bootstrap arguments
  let member ← nameAndType name desc
  add (.invokeDynamic row member)

end PoolBuilder
end JvmArchive
