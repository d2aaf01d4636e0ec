import JvmArchive.ClassFile.Encode.Attribute
import JvmArchive.Proofs.ClassFile.Pool.Constants

/-!
# Pieces of a class file

What written bytes are in the pool that comes of writing: an index that resolves to a value, items one
after the other, and items behind their number.
-/
namespace JvmArchive.PoolWriter
open PoolBuilder Reader

variable {α : Type}

/-- An index in two bytes that resolves to a value. -/
def ReadsIndex (resolve : ConstantPool → UInt16 → Except FormatError α) (value : α)
    (final : PoolBuilder) (bytes : List UInt8) : Prop :=
  ∃ index, bytes = Bytes.ofUInt16 index ∧ index ≠ 0 ∧ resolve final.toPool index = .ok value

theorem yields_textIndex {text : String} (h : TextFits text) :
    Yields (Encode.textIndex text) (ReadsIndex ConstantPool.utf8 text) := by
  apply (yields_utf8 h).bind_pure
  intro final index _ hindex
  exact ⟨index, rfl, hindex.ne_zero, hindex.resolved⟩

theorem yields_classIndex {name : String} (h : TextFits name) :
    Yields (Encode.classIndex name) (ReadsIndex ConstantPool.className name) := by
  apply (yields_class h).bind_pure
  intro final index _ hindex
  exact ⟨index, rfl, hindex.ne_zero, hindex.resolved⟩

/-- An index that may be missing, which the index zero stands for. -/
def ReadsOptional (resolve : ConstantPool → UInt16 → Except FormatError α) (value : Option α)
    (final : PoolBuilder) (bytes : List UInt8) : Prop :=
  ∃ index, bytes = Bytes.ofUInt16 index ∧
    (if index = 0 then .ok none else (resolve final.toPool index).map some) = .ok value

theorem yields_optional {write : α → PoolWriter (List UInt8)}
    {resolve : ConstantPool → UInt16 → Except FormatError α} {value : Option α}
    (h : ∀ item ∈ value, Yields (write item) (ReadsIndex resolve item)) :
    Yields (Encode.optional write value) (ReadsOptional resolve value) := by
  cases value with
  | none => exact yields_pure fun final _ => ⟨0, rfl, rfl⟩
  | some item =>
    apply (h item rfl).mono
    rintro final _ - ⟨index, rfl, hzero, hindex⟩
    exact ⟨index, rfl, by rw [if_neg hzero, hindex]; rfl⟩

/-- The bytes are those of the items, one after the other. -/
def ReadsEach (reads : α → PoolBuilder → List UInt8 → Prop) (items : List α)
    (final : PoolBuilder) (bytes : List UInt8) : Prop :=
  ∃ chunks, bytes = chunks.flatten ∧
    List.Forall₂ (fun chunk item => reads item final chunk) chunks items

theorem readsEach_nil (reads : α → PoolBuilder → List UInt8 → Prop) (final : PoolBuilder) :
    ReadsEach reads [] final [] :=
  ⟨[], rfl, .nil⟩

theorem ReadsEach.cons {reads : α → PoolBuilder → List UInt8 → Prop} {item : α}
    {items : List α} {final : PoolBuilder} {first rest : List UInt8} (hfirst : reads item final first)
    (hrest : ReadsEach reads items final rest) :
    ReadsEach reads (item :: items) final (first ++ rest) := by
  obtain ⟨chunks, rfl, hchunks⟩ := hrest
  exact ⟨first :: chunks, rfl, .cons hfirst hchunks⟩

/-- Items behind their number, each of which a reader takes from bytes that are not too many. -/
theorem ReadsEach.counted {reads : α → PoolBuilder → List UInt8 → Prop} {items : List α}
    {final : PoolBuilder} {bytes : List UInt8} (h : ReadsEach reads items final bytes)
    (hcount : items.length < 65536) {reader : Reader α}
    (hreader : ∀ chunk item, chunk.length ≤ bytes.length → reads item final chunk →
      Reads reader chunk item) :
    Reads (Reader.counted reader) (Bytes.ofNat16 items.length ++ bytes) items := by
  obtain ⟨chunks, rfl, hchunks⟩ := h
  apply reads_counted hcount
  clear hcount
  induction hchunks with
  | nil => exact .nil
  | cons hitem hrest ih =>
    rename_i chunk item chunks items
    refine .cons (hreader _ _ ?_ hitem) (ih ?_)
    · simp
    · intro other value hlength
      apply hreader
      simp only [List.flatten_cons, List.length_append]
      omega

theorem yields_concatM {write : α → PoolWriter (List UInt8)}
    {reads : α → PoolBuilder → List UInt8 → Prop} {items : List α}
    (h : ∀ item ∈ items, Yields (write item) (reads item)) :
    Yields (Encode.concatM write items) (ReadsEach reads items) := by
  apply (yields_mapM h).bind_pure
  intro final chunks _ hchunks
  exact ⟨chunks, rfl, hchunks⟩

/-- Items behind their number. -/
def ReadsCounted (reads : α → PoolBuilder → List UInt8 → Prop) (items : List α)
    (final : PoolBuilder) (bytes : List UInt8) : Prop :=
  ∃ rest, bytes = Bytes.ofNat16 items.length ++ rest ∧ ReadsEach reads items final rest

theorem yields_countedEach {write : α → PoolWriter (List UInt8)}
    {reads : α → PoolBuilder → List UInt8 → Prop} {items : List α}
    (h : ∀ item ∈ items, Yields (write item) (reads item)) :
    Yields (Encode.counted write items) (ReadsCounted reads items) := by
  apply (yields_concatM h).bind_pure
  intro final rest _ hrest
  exact ⟨rest, rfl, hrest⟩

/-- Items behind their number are read one after the other. -/
theorem yields_counted (reader : ConstantPool → Reader α) {write : α → PoolWriter (List UInt8)}
    {items : List α} (hcount : items.length < 65536)
    (h : ∀ item ∈ items, Yields (write item) fun final bytes =>
      Reads (reader final.toPool) bytes item) :
    Yields (Encode.counted write items) fun final bytes =>
      Reads (Reader.counted (reader final.toPool)) bytes items := by
  apply (yields_countedEach h).mono
  rintro final _ - ⟨rest, rfl, hrest⟩
  exact hrest.counted hcount fun _ _ _ hitem => hitem

end JvmArchive.PoolWriter
