import JvmArchive.ClassFile.Pool.Basic
import JvmArchive.Proofs.ClassFile.Reads
import JvmArchive.Proofs.Text.ModifiedUtf8

/-!
# Constant pools read back

Every entry is read from its bytes if its text is not too long for the two bytes of its length, and so
is a pool whose slots are laid out as reading lays them out.
-/
namespace JvmArchive

/-- A text whose encoded form has a length that two bytes can say. -/
def TextFits (text : String) : Prop := (Text.ModifiedUtf8.encode text).length < 65536

instance (text : String) : Decidable (TextFits text) := inferInstanceAs (Decidable (_ < _))

namespace PoolEntry
open Reader

/-- The entry can be written: its slot is usable and its text, if it is one, is not too long. -/
def Writable : PoolEntry → Prop
  | unusable => False
  | utf8 text => TextFits text
  | _ => True

theorem reads_read (index : UInt16) {entry : PoolEntry} (h : entry.Writable) :
    Reads (PoolEntry.read index) entry.bytes entry := by
  cases entry with
  | unusable => exact h.elim
  | utf8 text =>
    have htake := reads_take (Text.ModifiedUtf8.encode text)
    rw [← Bytes.toNat_toUInt16 h] at htake
    refine (reads_uint8 1).bind ((reads_uint16 _).bind (htake.bind_pure ?_))
    simpa [Text.ModifiedUtf8.decode_encode] using reads_pure (utf8 text)
  | integer value => exact (reads_uint8 3).bind ((reads_int32 value).bind_pure (reads_pure _))
  | float bits => exact (reads_uint8 4).bind ((reads_uint32 bits).bind_pure (reads_pure _))
  | long value =>
    refine (reads_uint8 5).bind ((reads_uint64 value.toUInt64).bind_pure ?_)
    simpa using reads_pure (long value)
  | double bits => exact (reads_uint8 6).bind ((reads_uint64 bits).bind_pure (reads_pure _))
  | «class» name => exact (reads_uint8 7).bind ((reads_uint16 name).bind_pure (reads_pure _))
  | string text => exact (reads_uint8 8).bind ((reads_uint16 text).bind_pure (reads_pure _))
  | fieldRef owner member =>
    exact (reads_uint8 9).bind
      ((reads_uint16 owner).bind ((reads_uint16 member).bind_pure (reads_pure _)))
  | methodRef owner member =>
    exact (reads_uint8 10).bind
      ((reads_uint16 owner).bind ((reads_uint16 member).bind_pure (reads_pure _)))
  | interfaceMethodRef owner member =>
    exact (reads_uint8 11).bind
      ((reads_uint16 owner).bind ((reads_uint16 member).bind_pure (reads_pure _)))
  | nameAndType name desc =>
    exact (reads_uint8 12).bind
      ((reads_uint16 name).bind ((reads_uint16 desc).bind_pure (reads_pure _)))
  | methodHandle kind reference =>
    exact (reads_uint8 15).bind
      ((reads_uint8 kind).bind ((reads_uint16 reference).bind_pure (reads_pure _)))
  | methodType desc => exact (reads_uint8 16).bind ((reads_uint16 desc).bind_pure (reads_pure _))
  | dynamic bootstrap member =>
    exact (reads_uint8 17).bind
      ((reads_uint16 bootstrap).bind ((reads_uint16 member).bind_pure (reads_pure _)))
  | invokeDynamic bootstrap member =>
    exact (reads_uint8 18).bind
      ((reads_uint16 bootstrap).bind ((reads_uint16 member).bind_pure (reads_pure _)))
  | module name => exact (reads_uint8 19).bind ((reads_uint16 name).bind_pure (reads_pure _))
  | package name => exact (reads_uint8 20).bind ((reads_uint16 name).bind_pure (reads_pure _))

/-- No entry that is read is an unusable slot. -/
theorem gives_read (index : UInt16) : Gives (PoolEntry.read index) (· ≠ unusable) := by
  refine gives_bind fun tag => ?_
  split <;> first
    | exact gives_throw _
    | exact gives_bind fun _ => gives_pure (by simp)
    | exact gives_bind fun _ => gives_bind fun _ => gives_pure (by simp)

end PoolEntry

namespace ConstantPool
open Reader

/-- Slots as reading lays them out: usable entries, each wide one before an unusable slot. -/
inductive Laid : List PoolEntry → Prop
  | nil : Laid []
  | narrow {entry : PoolEntry} {rest : List PoolEntry} (hentry : entry.Writable)
      (hwide : entry.isWide = false) (hrest : Laid rest) : Laid (entry :: rest)
  | wide {entry : PoolEntry} {rest : List PoolEntry} (hentry : entry.Writable)
      (hwide : entry.isWide = true) (hrest : Laid rest) : Laid (entry :: .unusable :: rest)

theorem Laid.append {xs ys : List PoolEntry} (hx : Laid xs) (hy : Laid ys) : Laid (xs ++ ys) := by
  induction hx with
  | nil => exact hy
  | narrow hentry hwide _ ih => exact .narrow hentry hwide ih
  | wide hentry hwide _ ih => exact .wide hentry hwide ih

/-- The slots that an entry takes, filled. -/
theorem laid_pushEntry (entries : Array PoolEntry) {entry : PoolEntry} (hentry : entry.Writable) :
    ∃ slots, (pushEntry entries entry).toList = entries.toList ++ slots ∧ Laid slots ∧
      slots.head? = some entry := by
  cases hwide : entry.isWide with
  | false => exact ⟨[entry], by simp [pushEntry, hwide], .narrow hentry hwide .nil, rfl⟩
  | true => exact ⟨[entry, .unusable], by simp [pushEntry, hwide], .wide hentry hwide .nil, rfl⟩

/-- Slots that are laid out are read behind others. -/
theorem reads_readEntries {slots : List PoolEntry} (h : Laid slots) (before : Array PoolEntry) :
    Reads (readEntries slots.length before) (slots.flatMap PoolEntry.bytes)
      (before ++ slots.toArray) := by
  induction h generalizing before with
  | nil =>
    rw [List.length_nil, readEntries]
    simpa using reads_pure before
  | @narrow entry rest hentry hwide hrest ih =>
    rw [List.length_cons, readEntries, List.flatMap_cons]
    refine (PoolEntry.reads_read _ hentry).bind ?_
    simpa [hwide, pushEntry] using ih (before.push entry)
  | @wide entry rest hentry hwide hrest ih =>
    rw [List.length_cons, List.length_cons, readEntries, List.flatMap_cons]
    refine (PoolEntry.reads_read _ hentry).bind ?_
    simpa [hwide, pushEntry, PoolEntry.bytes] using ih ((before.push entry).push .unusable)

/-- The slots behind slot zero are laid out. -/
def WellLaid (entries : Array PoolEntry) : Prop :=
  ∃ slots, entries.toList = .unusable :: slots ∧ Laid slots

/-- A pool is read from its bytes if two bytes can say its size. -/
theorem reads_read {entries : Array PoolEntry} (h : WellLaid entries) (hsize : entries.size < 65536) :
    Reads ConstantPool.read (bytesOfEntries entries) { entries } := by
  obtain ⟨slots, hslots, hlaid⟩ := h
  have hlength : entries.size = slots.length + 1 := by
    rw [← Array.length_toList, hslots, List.length_cons]
  have hbytes : bytesOfEntries entries =
      Bytes.ofNat16 entries.size ++ slots.flatMap PoolEntry.bytes := by
    rw [bytesOfEntries, hslots, List.flatMap_cons]
    rfl
  have hcount : entries.size.toUInt16.toNat - 1 = slots.length := by
    rw [Bytes.toNat_toUInt16 hsize, hlength, Nat.add_sub_cancel]
  rw [hbytes]
  refine (reads_uint16 _).bind ?_
  rw [hcount]
  refine (reads_readEntries hlaid #[.unusable]).bind_pure ?_
  have hentries : #[PoolEntry.unusable] ++ slots.toArray = entries := by
    apply Array.toList_inj.1
    rw [hslots]
    simp
  rw [hentries]
  exact reads_pure _

end ConstantPool
end JvmArchive
