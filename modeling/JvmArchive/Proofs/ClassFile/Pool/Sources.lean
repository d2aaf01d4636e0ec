import JvmArchive.Proofs.ClassFile.Pool.Writers

/-!
# Pools that writing starts from

A class that was read is written with the pool it was read with, all of whose indices stay valid. Main
statements: `ConstantPool.gives_read` on the slots of a pool that was read, `valid_ofPool`.
-/
namespace JvmArchive

namespace ConstantPool
open Reader

/-- The texts in the slots are not too long for the two bytes of their lengths. -/
def TextsFit (entries : Array PoolEntry) : Prop :=
  ∀ text, PoolEntry.utf8 text ∈ entries → TextFits text

theorem WellLaid.ne_empty {entries : Array PoolEntry} (h : WellLaid entries) : entries ≠ #[] := by
  obtain ⟨slots, hslots, -⟩ := h
  rintro rfl
  cases hslots

theorem mem_pushEntry {entries : Array PoolEntry} {entry other : PoolEntry}
    (h : other ∈ entries ∨ other = entry) : other ∈ pushEntry entries entry := by
  unfold pushEntry
  split <;> simp only [Array.mem_push] <;> tauto

/-- Slots that are read behind others are laid out with them. -/
theorem gives_readEntries (slots : Nat) (before : Array PoolEntry)
    (hbefore : TextsFit before → WellLaid before) :
    Gives (readEntries slots before) fun entries => TextsFit entries → WellLaid entries := by
  induction slots, before using readEntries.induct with
  | case1 before =>
    rw [readEntries]
    exact gives_pure hbefore
  | case2 before slots ih =>
    rw [readEntries]
    refine (PoolEntry.gives_read _).bind fun entry hentry => ih entry fun htexts => ?_
    have hwritable : entry.Writable := by
      cases entry with
      | unusable => exact hentry rfl
      | utf8 text => exact htexts text (mem_pushEntry (.inr rfl))
      | _ => trivial
    refine PoolBuilder.wellLaid_pushEntry (hbefore fun text htext => ?_) hwritable
    exact htexts text (mem_pushEntry (.inl htext))

/-- The slots of a pool that was read are laid out. -/
theorem gives_read :
    Gives ConstantPool.read fun pool => TextsFit pool.entries → WellLaid pool.entries := by
  refine gives_bind fun count => (gives_readEntries _ _ fun _ => ⟨[], rfl, .nil⟩).bind ?_
  exact fun entries hentries => gives_pure hentries

end ConstantPool

/-- A pool that a class can be written with again: its slots are laid out as in a file, their number and
those of the arguments of its rows fit, and every row is named by an entry. -/
structure ConstantPool.Rewritable (pool : ConstantPool) : Prop where
  laid : ConstantPool.WellLaid pool.entries
  size_le : pool.entries.size ≤ PoolBuilder.maxSlots
  arguments : ∀ row ∈ pool.bootstrap, row.arguments.length < 65536
  named : ∀ row < pool.bootstrap.size, ∃ (i : Nat) (entry : PoolEntry),
    pool.entries[i]? = some entry ∧ PoolBuilder.rowOf entry = some row.toUInt16

namespace PoolBuilder

/-- The first indices of items are indices of them. -/
theorem getElem?_firstIndices {α : Type} [BEq α] [Hashable α] [LawfulBEq α] {items : Array α} {item : α}
    {index : UInt16} (h : (firstIndices items)[item]? = some index) :
    ∃ i : Nat, i.toUInt16 = index ∧ items[i]? = some item := by
  have hfold : ∀ (pairs : List (α × Nat)) (indices : Std.HashMap α UInt16),
      (∀ item index, indices[item]? = some index →
        ∃ i : Nat, i.toUInt16 = index ∧ items[i]? = some item) →
      (∀ pair ∈ pairs, items[pair.2]? = some pair.1) →
      ∀ item index, (pairs.foldl (fun indices pair =>
          indices.insertIfNew pair.1 pair.2.toUInt16) indices)[item]? = some index →
        ∃ i : Nat, i.toUInt16 = index ∧ items[i]? = some item := by
    intro pairs
    induction pairs with
    | nil => exact fun _ hindices _ item index h => hindices item index h
    | cons pair pairs ih =>
      intro indices hindices hpairs
      apply ih
      · intro item index h
        rw [Std.HashMap.getElem?_insertIfNew] at h
        split at h
        next hnew =>
          cases h
          obtain rfl := eq_of_beq hnew.1
          exact ⟨pair.2, rfl, hpairs pair List.mem_cons_self⟩
        next => exact hindices item index h
      · exact fun other hother => hpairs other (List.mem_cons_of_mem _ hother)
  apply hfold _ _ _ _ item index h
  · intro item index h
    simp at h
  · intro pair hpair
    obtain ⟨item, i⟩ := pair
    have hget := List.mem_zipIdx_iff_getElem?.1 hpair
    simpa using hget

variable {pool : ConstantPool}

/-- Starting from no slots is starting from slot zero. -/
theorem ofPool_empty : ofPool {} = {} := by
  simp [ofPool, firstIndices]

theorem entries_ofPool (h : pool.entries ≠ #[]) : (ofPool pool).entries = pool.entries := by
  simp [ofPool, h]

theorem getElem?_entries_ofPool {i : Nat} {entry : PoolEntry} (h : pool.entries[i]? = some entry) :
    (ofPool pool).entries[i]? = some entry := by
  rwa [entries_ofPool]
  rintro hempty
  simp [hempty] at h

/-- The indices that building starts with are those of the entries and the rows. -/
theorem sound_ofPool (h : ConstantPool.WellLaid (ofPool pool).entries) : (ofPool pool).Sound where
  laid := h
  indices := by
    intro entry index hindex
    have herase : ((firstIndices pool.entries).erase .unusable)[entry]? = some index := hindex
    rw [Std.HashMap.getElem?_erase] at herase
    split at herase
    · cases herase
    · obtain ⟨i, hi, hentry⟩ := getElem?_firstIndices herase
      exact ⟨i, hi, getElem?_entries_ofPool hentry⟩
  bootstrapIndices hindex := getElem?_firstIndices hindex

/-- Writing can start from a pool that can be written again. -/
theorem valid_ofPool (h : pool.Rewritable) : (ofPool pool).Valid := by
  refine (sound_ofPool ?_).valid fun {row} hrow => h.arguments row hrow
  rw [entries_ofPool h.laid.ne_empty]
  exact h.laid

theorem bounded_ofPool (h : pool.Rewritable) : (ofPool pool).Bounded where
  size_le := by
    rw [entries_ofPool h.laid.ne_empty]
    exact h.size_le
  named row hrow := by
    obtain ⟨i, entry, hentry, hnames⟩ := h.named row hrow
    exact ⟨i, entry, getElem?_entries_ofPool hentry, hnames⟩

end PoolBuilder
end JvmArchive
