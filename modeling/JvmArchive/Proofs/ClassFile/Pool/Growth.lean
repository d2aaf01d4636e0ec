import JvmArchive.ClassFile.Pool.Builder
import JvmArchive.Proofs.ClassFile.Pool.Entries

/-!
# Pools under construction

Writing a class asks a pool for one index after the other, and what an index stands for is settled when
it is handed out: later requests leave the slots and the rows that are there. A computation over the
pool is therefore described by what its result means in every pool that the present one grows into.
-/
namespace JvmArchive.PoolBuilder

/-- Every slot, row and index of the first builder is also one of the second. -/
structure Extends (builder later : PoolBuilder) : Prop where
  entries : ∀ {i : Nat} {entry : PoolEntry},
    builder.entries[i]? = some entry → later.entries[i]? = some entry
  bootstrap : ∀ {i : Nat} {row : BootstrapEntry},
    builder.bootstrap[i]? = some row → later.bootstrap[i]? = some row
  indices : ∀ {entry : PoolEntry} {index : UInt16},
    builder.indices[entry]? = some index → later.indices[entry]? = some index
  bootstrapIndices : ∀ {row : BootstrapEntry} {index : UInt16},
    builder.bootstrapIndices[row]? = some index → later.bootstrapIndices[row]? = some index

namespace Extends

theorem refl (builder : PoolBuilder) : Extends builder builder := by
  constructor <;> intro _ _ h <;> exact h

theorem trans {a b c : PoolBuilder} (hab : Extends a b) (hbc : Extends b c) : Extends a c := by
  constructor
  · intro i entry h
    exact hbc.entries (hab.entries h)
  · intro i row h
    exact hbc.bootstrap (hab.bootstrap h)
  · intro entry index h
    exact hbc.indices (hab.indices h)
  · intro row index h
    exact hbc.bootstrapIndices (hab.bootstrapIndices h)

end Extends

/-- The slots are laid out as in a file, and every index is that of its entry or row. -/
structure Sound (builder : PoolBuilder) : Prop where
  laid : ConstantPool.WellLaid builder.entries
  indices : ∀ {entry : PoolEntry} {index : UInt16}, builder.indices[entry]? = some index →
    ∃ i : Nat, i.toUInt16 = index ∧ builder.entries[i]? = some entry
  bootstrapIndices : ∀ {row : BootstrapEntry} {index : UInt16},
    builder.bootstrapIndices[row]? = some index →
      ∃ i : Nat, i.toUInt16 = index ∧ builder.bootstrap[i]? = some row

/-- The slots are laid out as in a file, every index is that of its entry or row, and the arguments of
every row can be counted in two bytes. -/
structure Valid (builder : PoolBuilder) : Prop where
  laid : ConstantPool.WellLaid builder.entries
  indices : ∀ {entry : PoolEntry} {index : UInt16}, builder.indices[entry]? = some index →
    ∃ i : Nat, i.toUInt16 = index ∧ builder.entries[i]? = some entry
  bootstrapIndices : ∀ {row : BootstrapEntry} {index : UInt16},
    builder.bootstrapIndices[row]? = some index →
      ∃ i : Nat, i.toUInt16 = index ∧ builder.bootstrap[i]? = some row
  arguments : ∀ {row : BootstrapEntry}, row ∈ builder.bootstrap → row.arguments.length < 65536

theorem valid_empty : Valid {} where
  laid := ⟨[], rfl, .nil⟩
  indices h := by simp at h
  bootstrapIndices h := by simp at h
  arguments h := by simp at h

theorem Valid.sound {builder : PoolBuilder} (h : builder.Valid) : builder.Sound :=
  ⟨h.laid, h.indices, h.bootstrapIndices⟩

theorem Sound.valid {builder : PoolBuilder} (h : builder.Sound)
    (harguments : ∀ {row : BootstrapEntry}, row ∈ builder.bootstrap → row.arguments.length < 65536) :
    builder.Valid :=
  ⟨h.laid, h.indices, h.bootstrapIndices, harguments⟩

/-- A sound builder all of whose slots and rows have indices. -/
structure Closed (builder : PoolBuilder) : Prop where
  sound : builder.Sound
  size_lt : builder.entries.size < 65536
  rows_lt : builder.bootstrap.size < 65536

/-- A builder whose slots and rows can be written behind their numbers. -/
structure Complete (builder : PoolBuilder) : Prop where
  valid : builder.Valid
  size_lt : builder.entries.size < 65536
  rows_lt : builder.bootstrap.size < 65536

theorem Complete.closed {builder : PoolBuilder} (h : builder.Complete) : builder.Closed :=
  ⟨h.valid.sound, h.size_lt, h.rows_lt⟩

/-- The row of the bootstrap table that an entry names. -/
def rowOf : PoolEntry → Option UInt16
  | .dynamic row _ | .invokeDynamic row _ => some row
  | _ => none

/-- An entry of the pool names the row. -/
def Named (builder : PoolBuilder) (row : Nat) : Prop :=
  ∃ (i : Nat) (entry : PoolEntry),
    builder.entries[i]? = some entry ∧ rowOf entry = some row.toUInt16

theorem Named.extend {builder later : PoolBuilder} (h : Extends builder later) {row : Nat}
    (hrow : builder.Named row) : later.Named row := by
  obtain ⟨i, entry, hentry, hnames⟩ := hrow
  exact ⟨i, entry, h.entries hentry, hnames⟩

/-- Slots that are laid out stay so when an entry is put behind them. -/
theorem wellLaid_pushEntry {entries : Array PoolEntry} {entry : PoolEntry}
    (h : ConstantPool.WellLaid entries) (hentry : entry.Writable) :
    ConstantPool.WellLaid (ConstantPool.pushEntry entries entry) := by
  obtain ⟨slots, hslots, hlaid⟩ := h
  obtain ⟨more, hmore, hmoreLaid, -⟩ := ConstantPool.laid_pushEntry entries hentry
  refine ⟨slots ++ more, ?_, hlaid.append hmoreLaid⟩
  rw [hmore, hslots, List.cons_append]

theorem getElem?_push_of_some {α : Type} {items : Array α} {item other : α} {i : Nat}
    (h : items[i]? = some other) : (items.push item)[i]? = some other := by
  have hlt : i < items.size := (Array.getElem?_eq_some_iff.1 h).1
  rw [Array.getElem?_push_lt hlt, ← h, Array.getElem?_eq_getElem hlt]

theorem getElem?_pushEntry_of_some {entries : Array PoolEntry} {entry other : PoolEntry} {i : Nat}
    (h : entries[i]? = some other) : (ConstantPool.pushEntry entries entry)[i]? = some other := by
  unfold ConstantPool.pushEntry
  split
  · exact getElem?_push_of_some (getElem?_push_of_some h)
  · exact getElem?_push_of_some h

theorem getElem?_pushEntry_size (entries : Array PoolEntry) (entry : PoolEntry) :
    (ConstantPool.pushEntry entries entry)[entries.size]? = some entry := by
  unfold ConstantPool.pushEntry
  split <;> simp only [Array.getElem?_push, Array.size_push] <;> grind

section
variable {α : Type} [BEq α] [Hashable α] [LawfulBEq α] {indices : Std.HashMap α UInt16} {item : α}

/-- The indices of a growing array stay those of its items when the index of a new item comes in. -/
theorem getElem?_insert_index {items later : Array α} {n : Nat}
    (h : ∀ {other : α} {index : UInt16}, indices[other]? = some index →
      ∃ i : Nat, i.toUInt16 = index ∧ items[i]? = some other)
    (hkept : ∀ {i : Nat} {other : α}, items[i]? = some other → later[i]? = some other)
    (hitem : later[n]? = some item) {other : α} {index : UInt16}
    (hindex : (indices.insert item n.toUInt16)[other]? = some index) :
    ∃ i : Nat, i.toUInt16 = index ∧ later[i]? = some other := by
  rw [Std.HashMap.getElem?_insert] at hindex
  split at hindex
  next heq =>
    cases hindex
    rw [← eq_of_beq heq]
    exact ⟨n, rfl, hitem⟩
  next =>
    obtain ⟨i, hi, hother⟩ := h hindex
    exact ⟨i, hi, hkept hother⟩

/-- The index of a new item takes the place of no other one. -/
theorem getElem?_insert_of_new (hnew : indices[item]? = none) {other : α} {added index : UInt16}
    (h : indices[other]? = some index) : (indices.insert item added)[other]? = some index := by
  have hne : (item == other) = false := by
    apply beq_false_of_ne
    intro heq
    rw [heq, h] at hnew
    cases hnew
  rw [Std.HashMap.getElem?_insert, hne]
  exact h

end

/-- Asking for an entry adds to the pool what is missing and takes nothing away, whatever the pool. -/
theorem extends_of_add {builder later : PoolBuilder} {entry : PoolEntry} {index : UInt16}
    (h : add entry builder = .ok (index, later)) :
    Extends builder later ∧ later.bootstrap = builder.bootstrap ∧
      later.indices[entry]? = some index := by
  unfold PoolBuilder.add at h
  split at h
  next found hfound =>
    cases h
    exact ⟨.refl _, rfl, hfound⟩
  next hnew =>
    by_cases hfull : builder.entries.size + (if entry.isWide then 2 else 1) > maxSlots
    · rw [if_pos hfull] at h
      cases h
    · rw [if_neg hfull] at h
      cases h
      exact ⟨⟨getElem?_pushEntry_of_some, id, getElem?_insert_of_new hnew, id⟩, rfl, by simp⟩

/-- What asking for an entry does: the pool only grows, and the index is that of the entry. -/
theorem Sound.of_add {builder later : PoolBuilder} {entry : PoolEntry} {index : UInt16}
    (hsound : builder.Sound) (hentry : entry.Writable) (h : add entry builder = .ok (index, later)) :
    later.Sound ∧ Extends builder later ∧ later.bootstrap = builder.bootstrap ∧
      later.indices[entry]? = some index := by
  refine ⟨?_, extends_of_add h⟩
  unfold PoolBuilder.add at h
  split at h
  next found hfound =>
    cases h
    exact hsound
  next hnew =>
    by_cases hfull : builder.entries.size + (if entry.isWide then 2 else 1) > maxSlots
    · rw [if_pos hfull] at h
      cases h
    · rw [if_neg hfull] at h
      cases h
      refine ⟨wellLaid_pushEntry hsound.laid hentry, ?_, hsound.bootstrapIndices⟩
      exact getElem?_insert_index hsound.indices getElem?_pushEntry_of_some
        (getElem?_pushEntry_size _ _)

theorem add_spec {builder later : PoolBuilder} {entry : PoolEntry} {index : UInt16}
    (hvalid : builder.Valid) (hentry : entry.Writable) (h : add entry builder = .ok (index, later)) :
    later.Valid ∧ Extends builder later ∧ later.bootstrap = builder.bootstrap ∧
      later.indices[entry]? = some index := by
  obtain ⟨hsound, hextends, hrows, hindex⟩ := hvalid.sound.of_add hentry h
  exact ⟨hsound.valid (hrows ▸ hvalid.arguments), hextends, hrows, hindex⟩

/-- Asking for a row adds the row if it is missing and takes nothing away, whatever the pool. -/
theorem extends_of_addBootstrap {builder later : PoolBuilder} {row : BootstrapEntry} {index : UInt16}
    (h : addBootstrap row builder = .ok (index, later)) :
    Extends builder later ∧ later.entries = builder.entries ∧
      later.bootstrapIndices[row]? = some index := by
  unfold PoolBuilder.addBootstrap at h
  split at h
  next found hfound =>
    cases h
    exact ⟨.refl _, rfl, hfound⟩
  next hnew =>
    cases h
    exact ⟨⟨id, getElem?_push_of_some, id, getElem?_insert_of_new hnew⟩, rfl, by simp⟩

/-- What asking for a row does. The row is the only one that may be new. -/
theorem Sound.of_addBootstrap {builder later : PoolBuilder} {row : BootstrapEntry} {index : UInt16}
    (hsound : builder.Sound) (h : addBootstrap row builder = .ok (index, later)) :
    later.Sound ∧ Extends builder later ∧ later.entries = builder.entries ∧
      later.bootstrapIndices[row]? = some index ∧
      (later.bootstrap = builder.bootstrap ∨
        later.bootstrap = builder.bootstrap.push row ∧ index = builder.bootstrap.size.toUInt16) := by
  obtain ⟨hextends, hentries, hindex⟩ := extends_of_addBootstrap h
  unfold PoolBuilder.addBootstrap at h
  split at h
  next found hfound =>
    cases h
    exact ⟨hsound, hextends, hentries, hindex, .inl rfl⟩
  next hnew =>
    cases h
    refine ⟨⟨hsound.laid, hsound.indices, ?_⟩, hextends, hentries, hindex, .inr ⟨rfl, rfl⟩⟩
    exact getElem?_insert_index hsound.bootstrapIndices getElem?_push_of_some (by simp)

theorem addBootstrap_spec {builder later : PoolBuilder} {row : BootstrapEntry} {index : UInt16}
    (hvalid : builder.Valid) (hrow : row.arguments.length < 65536)
    (h : addBootstrap row builder = .ok (index, later)) :
    later.Valid ∧ Extends builder later ∧ later.entries = builder.entries ∧
      later.bootstrapIndices[row]? = some index ∧
      (later.bootstrap.size = builder.bootstrap.size ∨
        later.bootstrap.size = builder.bootstrap.size + 1 ∧
          index = builder.bootstrap.size.toUInt16) := by
  obtain ⟨hsound, hextends, hentries, hindex, hrows⟩ := hvalid.sound.of_addBootstrap h
  refine ⟨hsound.valid ?_, hextends, hentries, hindex, ?_⟩
  · intro other hother
    rcases hrows with hsame | ⟨hpush, -⟩
    · exact hvalid.arguments (hsame ▸ hother)
    · rw [hpush] at hother
      rcases Array.mem_push.1 hother with hold | rfl
      · exact hvalid.arguments hold
      · exact hrow
  · rcases hrows with hsame | ⟨hpush, hlast⟩
    · exact .inl (by rw [hsame])
    · exact .inr ⟨by rw [hpush, Array.size_push], hlast⟩

/-- In a closed builder the index of an entry leads to the entry. -/
theorem Closed.entry_eq {builder : PoolBuilder} (hclosed : builder.Closed) {entry : PoolEntry}
    {index : UInt16} (h : builder.indices[entry]? = some index) :
    builder.toPool.entry? index = some entry := by
  obtain ⟨i, rfl, hentry⟩ := hclosed.sound.indices h
  have hlt : i < builder.entries.size := (Array.getElem?_eq_some_iff.1 hentry).1
  have hnat := Bytes.toNat_toUInt16 (Nat.lt_trans hlt hclosed.size_lt)
  rw [ConstantPool.entry?, hnat]
  exact hentry

/-- In a closed builder the index of a row leads to the row. -/
theorem Closed.row_eq {builder : PoolBuilder} (hclosed : builder.Closed) {row : BootstrapEntry}
    {index : UInt16} (h : builder.bootstrapIndices[row]? = some index) :
    builder.toPool.bootstrap[index.toNat]? = some row := by
  obtain ⟨i, rfl, hrow⟩ := hclosed.sound.bootstrapIndices h
  have hlt : i < builder.bootstrap.size := (Array.getElem?_eq_some_iff.1 hrow).1
  rw [Bytes.toNat_toUInt16 (Nat.lt_trans hlt hclosed.rows_lt)]
  exact hrow

/-- The slot zero is unusable. -/
theorem Sound.entry_zero {builder : PoolBuilder} (hsound : builder.Sound) :
    builder.toPool.entry? 0 = some .unusable := by
  obtain ⟨slots, hslots, -⟩ := hsound.laid
  have hhead : builder.entries.toList[0]? = some .unusable := by simp [hslots]
  rw [Array.getElem?_toList] at hhead
  exact hhead

end JvmArchive.PoolBuilder
