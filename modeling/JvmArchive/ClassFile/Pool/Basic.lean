import JvmArchive.ClassFile.Cursor
import JvmArchive.Text.ModifiedUtf8

/-!
# Constant pools

The pool of a class file: its slots, how they are read and how they are written. A long or a double
takes two slots, of which the second is unusable, as is the slot zero.
-/
namespace JvmArchive

/-- One slot of a constant pool. The words are indices of other slots. -/
inductive PoolEntry
  | unusable
  | utf8 (text : String)
  | integer (value : Int32)
  | float (bits : UInt32)
  | long (value : Int64)
  | double (bits : UInt64)
  | class (name : UInt16)
  | string (text : UInt16)
  | fieldRef (class_ nameAndType : UInt16)
  | methodRef (class_ nameAndType : UInt16)
  | interfaceMethodRef (class_ nameAndType : UInt16)
  | nameAndType (name desc : UInt16)
  | methodHandle (kind : UInt8) (reference : UInt16)
  | methodType (desc : UInt16)
  | dynamic (bootstrap nameAndType : UInt16)
  | invokeDynamic (bootstrap nameAndType : UInt16)
  | module (name : UInt16)
  | package (name : UInt16)
  deriving Repr, DecidableEq, Inhabited, Hashable

/-- A row of the bootstrap table: the slot of a method handle and the slots of its arguments. -/
structure BootstrapEntry where
  handle : UInt16
  arguments : List UInt16
  deriving Repr, DecidableEq, Inhabited, Hashable

/-- The slots of a constant pool, with the bootstrap table of the class that they belong to. -/
structure ConstantPool where
  entries : Array PoolEntry := #[]
  bootstrap : Array BootstrapEntry := #[]
  deriving Repr, Inhabited

namespace PoolEntry

/-- Whether the entry takes two slots. -/
def isWide : PoolEntry → Bool
  | long _ | double _ => true
  | _ => false

/-- The bytes of an entry: a tag, then its words. An unusable slot has none. Of a text's length only
the low two bytes are written. -/
def bytes : PoolEntry → List UInt8
  | unusable => []
  | utf8 text =>
    let encoded := Text.ModifiedUtf8.encode text
    1 :: (Bytes.ofNat16 encoded.length ++ encoded)
  | integer value => 3 :: Bytes.ofUInt32 value.toUInt32
  | float bits => 4 :: Bytes.ofUInt32 bits
  | long value => 5 :: Bytes.ofUInt64 value.toUInt64
  | double bits => 6 :: Bytes.ofUInt64 bits
  | .class name => 7 :: Bytes.ofUInt16 name
  | string text => 8 :: Bytes.ofUInt16 text
  | fieldRef owner member => 9 :: (Bytes.ofUInt16 owner ++ Bytes.ofUInt16 member)
  | methodRef owner member => 10 :: (Bytes.ofUInt16 owner ++ Bytes.ofUInt16 member)
  | interfaceMethodRef owner member => 11 :: (Bytes.ofUInt16 owner ++ Bytes.ofUInt16 member)
  | nameAndType name desc => 12 :: (Bytes.ofUInt16 name ++ Bytes.ofUInt16 desc)
  | methodHandle kind reference => 15 :: kind :: Bytes.ofUInt16 reference
  | methodType desc => 16 :: Bytes.ofUInt16 desc
  | dynamic bootstrap member => 17 :: (Bytes.ofUInt16 bootstrap ++ Bytes.ofUInt16 member)
  | invokeDynamic bootstrap member => 18 :: (Bytes.ofUInt16 bootstrap ++ Bytes.ofUInt16 member)
  | module name => 19 :: Bytes.ofUInt16 name
  | package name => 20 :: Bytes.ofUInt16 name

/-- Reads the entry that comes to stand in a slot. -/
def read (index : UInt16) : Reader PoolEntry := do
  let tag ← Reader.uint8
  match tag with
  | 1 =>
    let length ← Reader.uint16
    return utf8 (Text.ModifiedUtf8.decode (← Reader.take length.toNat))
  | 3 => return integer (← Reader.int32)
  | 4 => return float (← Reader.uint32)
  | 5 => return long (← Reader.uint64).toInt64
  | 6 => return double (← Reader.uint64)
  | 7 => return .class (← Reader.uint16)
  | 8 => return string (← Reader.uint16)
  | 9 => return fieldRef (← Reader.uint16) (← Reader.uint16)
  | 10 => return methodRef (← Reader.uint16) (← Reader.uint16)
  | 11 => return interfaceMethodRef (← Reader.uint16) (← Reader.uint16)
  | 12 => return nameAndType (← Reader.uint16) (← Reader.uint16)
  | 15 => return methodHandle (← Reader.uint8) (← Reader.uint16)
  | 16 => return methodType (← Reader.uint16)
  | 17 => return dynamic (← Reader.uint16) (← Reader.uint16)
  | 18 => return invokeDynamic (← Reader.uint16) (← Reader.uint16)
  | 19 => return module (← Reader.uint16)
  | 20 => return package (← Reader.uint16)
  | _ => throw (.unknownConstantTag tag index)

end PoolEntry

namespace ConstantPool

/-- Puts an entry behind the others, with its second slot if it has one. -/
def pushEntry (entries : Array PoolEntry) (entry : PoolEntry) : Array PoolEntry :=
  if entry.isWide then (entries.push entry).push .unusable else entries.push entry

/-- Reads entries until so many slots are filled. A wide entry may fill one slot more. -/
def readEntries (slots : Nat) (entries : Array PoolEntry) : Reader (Array PoolEntry) :=
  match slots with
  | 0 => return entries
  | slots + 1 => do
    let entry ← PoolEntry.read entries.size.toUInt16
    readEntries (if entry.isWide then slots - 1 else slots) (pushEntry entries entry)
termination_by slots
decreasing_by split <;> omega

/-- Reads a pool: the number of slots including slot zero, then the entries. -/
def read : Reader ConstantPool := do
  let count ← Reader.uint16
  let entries ← readEntries (count.toNat - 1) #[.unusable]
  return { entries }

/-- The bytes of a pool's slots behind their number. -/
def bytesOfEntries (entries : Array PoolEntry) : List UInt8 :=
  Bytes.ofNat16 entries.size ++ entries.toList.flatMap PoolEntry.bytes

def size (pool : ConstantPool) : Nat := pool.entries.size

def entry? (pool : ConstantPool) (index : UInt16) : Option PoolEntry :=
  pool.entries[index.toNat]?

end ConstantPool
end JvmArchive
