import JvmArchive.ClassFile.Error

/-!
# Reading bytes

A cursor over bytes that knows how far it has come, and readers that move it. A reader that finds too
few bytes reports the offset at which it stood and takes none. Words have their highest byte first.
-/

/-! ## Words as bytes -/

namespace JvmArchive.Bytes

/-- The two bytes of a word. -/
def ofUInt16 (w : UInt16) : List UInt8 := [(w >>> 8).toUInt8, w.toUInt8]

/-- The four bytes of a word. -/
def ofUInt32 (w : UInt32) : List UInt8 :=
  [(w >>> 24).toUInt8, (w >>> 16).toUInt8, (w >>> 8).toUInt8, w.toUInt8]

/-- The eight bytes of a word. -/
def ofUInt64 (w : UInt64) : List UInt8 :=
  ofUInt32 (w >>> 32).toUInt32 ++ ofUInt32 w.toUInt32

/-- The word of two bytes. -/
def toUInt16 (a b : UInt8) : UInt16 := (a.toUInt16 <<< 8) ||| b.toUInt16

/-- The word of four bytes. -/
def toUInt32 (a b c d : UInt8) : UInt32 :=
  (a.toUInt32 <<< 24) ||| (b.toUInt32 <<< 16) ||| (c.toUInt32 <<< 8) ||| d.toUInt32

/-- The word of two half words. -/
def toUInt64 (high low : UInt32) : UInt64 := (high.toUInt64 <<< 32) ||| low.toUInt64

/-- The low two bytes of a number. -/
def ofNat16 (n : Nat) : List UInt8 := ofUInt16 n.toUInt16

/-- The low four bytes of a number. -/
def ofNat32 (n : Nat) : List UInt8 := ofUInt32 n.toUInt32

end JvmArchive.Bytes

/-! ## Cursors -/

namespace JvmArchive

/-- The bytes that are left, and how many came before them. -/
structure Cursor where
  offset : Nat
  rest : List UInt8
  deriving Repr, Inhabited

/-- A computation that reads from a cursor and may find the bytes malformed. -/
abbrev Reader := StateT Cursor (Except FormatError)

namespace Reader

/-- Reads from the start of a byte sequence and drops what is left. -/
def onBytes {α : Type} (reader : Reader α) (bytes : List UInt8) : Except FormatError α :=
  (reader.run ⟨0, bytes⟩).map (·.1)

/-- Takes exactly so many bytes. -/
def take (n : Nat) : Reader (List UInt8) := fun cursor =>
  let bytes := cursor.rest.take n
  if bytes.length < n then .error (.unexpectedEnd cursor.offset)
  else .ok (bytes, ⟨cursor.offset + n, cursor.rest.drop n⟩)

/-- Passes over so many bytes. -/
def skip (n : Nat) : Reader Unit := do
  let _ ← take n

def offset : Reader Nat := fun cursor => .ok (cursor.offset, cursor)

/-- How many bytes are left. -/
def remaining : Reader Nat := fun cursor => .ok (cursor.rest.length, cursor)

/-- Whether at least so many bytes are left. -/
def hasAtLeast (n : Nat) : Reader Bool := fun cursor =>
  .ok ((cursor.rest.take n).length = n, cursor)

def uint8 : Reader UInt8 := fun cursor =>
  match cursor.rest with
  | a :: rest => .ok (a, ⟨cursor.offset + 1, rest⟩)
  | _ => .error (.unexpectedEnd cursor.offset)

def uint16 : Reader UInt16 := fun cursor =>
  match cursor.rest with
  | a :: b :: rest => .ok (Bytes.toUInt16 a b, ⟨cursor.offset + 2, rest⟩)
  | _ => .error (.unexpectedEnd cursor.offset)

def uint32 : Reader UInt32 := fun cursor =>
  match cursor.rest with
  | a :: b :: c :: d :: rest => .ok (Bytes.toUInt32 a b c d, ⟨cursor.offset + 4, rest⟩)
  | _ => .error (.unexpectedEnd cursor.offset)

def uint64 : Reader UInt64 := do
  let high ← uint32
  let low ← uint32
  return Bytes.toUInt64 high low

def int8 : Reader Int8 := return (← uint8).toInt8
def int16 : Reader Int16 := return (← uint16).toInt16
def int32 : Reader Int32 := return (← uint32).toInt32

/-- Runs a reader so many times. -/
@[specialize] def times {α : Type} (n : Nat) (reader : Reader α) : Reader (List α) :=
  (List.replicate n ()).mapM fun _ => reader

/-- Reads a two-byte count and then so many items. -/
@[specialize] def counted {α : Type} (reader : Reader α) : Reader (List α) := do
  let count ← uint16
  times count.toNat reader

end Reader
end JvmArchive
