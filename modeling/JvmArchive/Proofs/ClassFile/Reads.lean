import JvmArchive.ClassFile.Cursor
import JvmArchive.Proofs.Results
import Mathlib.Data.List.Forall2

/-!
# What readers make of bytes

The bytes of a word, the highest first, give the word back. A reader reads bytes as a value if it takes
exactly these bytes wherever they stand, whatever follows, and gives that value. Readers that run one after
the other read bytes that stand one after the other.
-/
namespace JvmArchive.Bytes

theorem toUInt16_bytes (w : UInt16) : toUInt16 (w >>> 8).toUInt8 w.toUInt8 = w := by
  apply UInt16.eq_of_toBitVec_eq
  apply BitVec.eq_of_getLsbD_eq
  intro i hi
  simp only [toUInt16, UInt16.toBitVec_or, UInt16.toBitVec_shiftLeft, UInt8.toBitVec_toUInt16,
    UInt16.toBitVec_toUInt8, UInt16.toBitVec_shiftRight]
  simp
  grind

theorem toUInt32_bytes (w : UInt32) :
    toUInt32 (w >>> 24).toUInt8 (w >>> 16).toUInt8 (w >>> 8).toUInt8 w.toUInt8 = w := by
  apply UInt32.eq_of_toBitVec_eq
  apply BitVec.eq_of_getLsbD_eq
  intro i hi
  simp only [toUInt32, UInt32.toBitVec_or, UInt32.toBitVec_shiftLeft, UInt8.toBitVec_toUInt32,
    UInt32.toBitVec_toUInt8, UInt32.toBitVec_shiftRight]
  simp
  grind

theorem toUInt64_halves (w : UInt64) : toUInt64 (w >>> 32).toUInt32 w.toUInt32 = w := by
  apply UInt64.eq_of_toBitVec_eq
  apply BitVec.eq_of_getLsbD_eq
  intro i hi
  simp only [toUInt64, UInt64.toBitVec_or, UInt64.toBitVec_shiftLeft, UInt32.toBitVec_toUInt64,
    UInt64.toBitVec_toUInt32, UInt64.toBitVec_shiftRight]
  simp
  grind

@[simp] theorem length_ofUInt16 (w : UInt16) : (ofUInt16 w).length = 2 := rfl

@[simp] theorem length_ofUInt32 (w : UInt32) : (ofUInt32 w).length = 4 := rfl

@[simp] theorem length_ofNat16 (n : Nat) : (ofNat16 n).length = 2 := rfl

@[simp] theorem length_ofNat32 (n : Nat) : (ofNat32 n).length = 4 := rfl

/-- Chunks of equal length, one for each item. -/
theorem length_flatten_const {α : Type} {n : Nat} {chunks : List (List UInt8)} {items : List α}
    (h : List.Forall₂ (fun chunk _ => chunk.length = n) chunks items) :
    chunks.flatten.length = n * items.length := by
  induction h with
  | nil => rfl
  | cons hchunk _ ih =>
    rw [List.flatten_cons, List.length_append, hchunk, ih, List.length_cons, Nat.mul_succ,
      Nat.add_comm]

theorem toNat_toUInt8 {n : Nat} (h : n < 256) : n.toUInt8.toNat = n := by
  simp [Nat.toUInt8, Nat.mod_eq_of_lt h]

theorem toNat_toUInt16 {n : Nat} (h : n < 65536) : n.toUInt16.toNat = n := by
  simp [Nat.toUInt16, Nat.mod_eq_of_lt h]

theorem toNat_toUInt32 {n : Nat} (h : n < 4294967296) : n.toUInt32.toNat = n := by
  simp [Nat.toUInt32, Nat.mod_eq_of_lt h]

end JvmArchive.Bytes

namespace JvmArchive.Reader

variable {α β : Type}

/-- The reader takes exactly these bytes, whatever comes behind them, and gives the value. -/
def Reads (reader : Reader α) (bytes : List UInt8) (value : α) : Prop :=
  ∀ offset rest, reader ⟨offset, bytes ++ rest⟩ = .ok (value, ⟨offset + bytes.length, rest⟩)

theorem Reads.onBytes {reader : Reader α} {bytes : List UInt8} {value : α}
    (h : Reads reader bytes value) : Reader.onBytes reader bytes = .ok value := by
  have hrun := h 0 []
  rw [List.append_nil] at hrun
  simp only [Reader.onBytes, StateT.run, hrun]
  rfl

theorem reads_pure (value : α) : Reads (pure value) [] value := by
  intro offset rest
  rfl

theorem Reads.bind {reader : Reader α} {next : α → Reader β} {xs ys : List UInt8} {a : α} {b : β}
    (h : Reads reader xs a) (hnext : Reads (next a) ys b) : Reads (reader >>= next) (xs ++ ys) b := by
  intro offset rest
  have hrun : (reader >>= next) ⟨offset, xs ++ ys ++ rest⟩ =
      (reader ⟨offset, xs ++ (ys ++ rest)⟩).bind fun result => next result.1 result.2 := by
    rw [List.append_assoc]
    rfl
  rw [hrun, h]
  simp only [Except.bind, hnext (offset + xs.length) rest, List.length_append, Nat.add_assoc]

/-- A first reader that takes nothing. -/
theorem Reads.bind_nil {reader : Reader α} {next : α → Reader β} {bytes : List UInt8} {a : α} {b : β}
    (h : Reads reader [] a) (hnext : Reads (next a) bytes b) : Reads (reader >>= next) bytes b :=
  h.bind hnext

/-- A last reader that takes nothing. -/
theorem Reads.bind_pure {reader : Reader α} {next : α → Reader β} {bytes : List UInt8} {a : α} {b : β}
    (h : Reads reader bytes a) (hnext : Reads (next a) [] b) : Reads (reader >>= next) bytes b := by
  simpa using h.bind hnext

/-- A computation that succeeds without reading. -/
theorem reads_lift {result : Except FormatError α} {a : α} (h : result = .ok a) :
    Reads (liftM result) [] a := by
  intro offset rest
  subst h
  rfl

/-- The reader fails wherever these bytes stand, whatever follows. -/
def Fails (reader : Reader α) (bytes : List UInt8) (error : FormatError) : Prop :=
  ∀ offset rest, reader ⟨offset, bytes ++ rest⟩ = .error error

theorem Fails.onBytes {reader : Reader α} {bytes : List UInt8} {error : FormatError}
    (h : Fails reader bytes error) (rest : List UInt8) :
    Reader.onBytes reader (bytes ++ rest) = .error error := by
  simp only [Reader.onBytes, StateT.run, h 0 rest]
  rfl

theorem Reads.bind_fails {reader : Reader α} {next : α → Reader β} {xs ys : List UInt8} {a : α}
    {error : FormatError} (h : Reads reader xs a) (hnext : Fails (next a) ys error) :
    Fails (reader >>= next) (xs ++ ys) error := by
  intro offset rest
  have hrun : (reader >>= next) ⟨offset, xs ++ ys ++ rest⟩ =
      (reader ⟨offset, xs ++ (ys ++ rest)⟩).bind fun result => next result.1 result.2 := by
    rw [List.append_assoc]
    rfl
  rw [hrun, h]
  exact hnext (offset + xs.length) rest

/-- A failure of the first reader is one of both. -/
theorem Fails.bind {reader : Reader α} {next : α → Reader β} {bytes : List UInt8}
    {error : FormatError} (h : Fails reader bytes error) : Fails (reader >>= next) bytes error := by
  intro offset rest
  have hrun : (reader >>= next) ⟨offset, bytes ++ rest⟩ =
      (reader ⟨offset, bytes ++ rest⟩).bind fun result => next result.1 result.2 := rfl
  rw [hrun, h]
  rfl

theorem fails_lift {result : Except FormatError α} {error : FormatError} (h : result = .error error) :
    Fails (liftM result) [] error := by
  intro offset rest
  subst h
  rfl

theorem reads_uint8 (w : UInt8) : Reads uint8 [w] w := by
  intro offset rest
  rfl

theorem reads_uint16 (w : UInt16) : Reads uint16 (Bytes.ofUInt16 w) w := by
  intro offset rest
  have hrun : uint16 ⟨offset, Bytes.ofUInt16 w ++ rest⟩ =
      .ok (Bytes.toUInt16 (w >>> 8).toUInt8 w.toUInt8, ⟨offset + 2, rest⟩) := rfl
  rw [hrun, Bytes.toUInt16_bytes]
  rfl

theorem reads_uint32 (w : UInt32) : Reads uint32 (Bytes.ofUInt32 w) w := by
  intro offset rest
  have hrun : uint32 ⟨offset, Bytes.ofUInt32 w ++ rest⟩ =
      .ok (Bytes.toUInt32 (w >>> 24).toUInt8 (w >>> 16).toUInt8 (w >>> 8).toUInt8 w.toUInt8,
        ⟨offset + 4, rest⟩) := rfl
  rw [hrun, Bytes.toUInt32_bytes]
  rfl

theorem reads_uint64 (w : UInt64) : Reads uint64 (Bytes.ofUInt64 w) w := by
  refine (reads_uint32 _).bind ((reads_uint32 _).bind_pure ?_)
  simpa [Bytes.toUInt64_halves] using reads_pure w

theorem reads_int8 (w : Int8) : Reads int8 [w.toUInt8] w :=
  (reads_uint8 _).bind_pure (by simpa using reads_pure w)

theorem reads_int16 (w : Int16) : Reads int16 (Bytes.ofUInt16 w.toUInt16) w :=
  (reads_uint16 _).bind_pure (by simpa using reads_pure w)

theorem reads_int32 (w : Int32) : Reads int32 (Bytes.ofUInt32 w.toUInt32) w :=
  (reads_uint32 _).bind_pure (by simpa using reads_pure w)

/-- An index, then what it resolves to. -/
theorem reads_index {resolve : UInt16 → Except FormatError α} {index : UInt16} {a : α}
    {next : α → Reader β} {bytes : List UInt8} {b : β} (h : resolve index = .ok a)
    (hnext : Reads (next a) bytes b) :
    Reads (uint16 >>= fun i => liftM (resolve i) >>= next) (Bytes.ofUInt16 index ++ bytes) b :=
  (reads_uint16 index).bind ((reads_lift h).bind_nil hnext)

/-- An index, then what its meaning is made into. -/
theorem reads_index_pure {resolve : UInt16 → Except FormatError α} {index : UInt16} {a : α}
    (f : α → β) (h : resolve index = .ok a) :
    Reads (uint16 >>= fun i => liftM (resolve i) >>= fun a => pure (f a)) (Bytes.ofUInt16 index)
      (f a) :=
  (reads_uint16 index).bind_pure ((reads_lift h).bind_nil (reads_pure (f a)))

theorem reads_take (bytes : List UInt8) : Reads (take bytes.length) bytes bytes := by
  intro offset rest
  simp [take]

theorem reads_skip (bytes : List UInt8) : Reads (skip bytes.length) bytes () :=
  (reads_take bytes).bind_pure (reads_pure ())

/-- Items that are read one after the other. -/
theorem reads_times {reader : Reader α} {chunks : List (List UInt8)} {items : List α}
    (h : List.Forall₂ (Reads reader) chunks items) :
    Reads (times items.length reader) chunks.flatten items := by
  induction h with
  | nil => exact reads_pure []
  | @cons chunk item chunks items hitem _ ih =>
    have hcons : times (items.length + 1) reader =
        reader >>= fun first => times items.length reader >>= fun rest => pure (first :: rest) := by
      simp [times, List.replicate_succ]
    rw [List.length_cons, hcons, List.flatten_cons]
    exact hitem.bind (ih.bind_pure (reads_pure (item :: items)))

/-- Items behind their number, which has to fit two bytes. -/
theorem reads_counted {reader : Reader α} {chunks : List (List UInt8)} {items : List α}
    (hsize : items.length < 65536) (h : List.Forall₂ (Reads reader) chunks items) :
    Reads (counted reader) (Bytes.ofNat16 items.length ++ chunks.flatten) items := by
  refine (reads_uint16 _).bind ?_
  rw [Bytes.toNat_toUInt16 hsize]
  exact reads_times h

/-! ## What a reader can give -/

/-- Whatever the reader gives has the property. -/
def Gives (reader : Reader α) (property : α → Prop) : Prop :=
  ∀ cursor later a, reader cursor = .ok (a, later) → property a

theorem gives_pure {property : α → Prop} {a : α} (h : property a) : Gives (pure a) property := by
  intro cursor later b hrun
  cases hrun
  exact h

theorem gives_throw {property : α → Prop} (error : FormatError) :
    Gives (throw error : Reader α) property := by
  intro cursor later a hrun
  cases hrun

theorem Gives.bind {reader : Reader α} {next : α → Reader β} {property : α → Prop} {goal : β → Prop}
    (h : Gives reader property) (hnext : ∀ a, property a → Gives (next a) goal) :
    Gives (reader >>= next) goal := by
  intro cursor later b hrun
  obtain ⟨⟨a, middle⟩, hread, hrest⟩ := exists_of_bind_ok hrun
  exact hnext a (h cursor middle a hread) middle later b hrest

/-- A first reader that may give anything. -/
theorem gives_bind {reader : Reader α} {next : α → Reader β} {goal : β → Prop}
    (hnext : ∀ a, Gives (next a) goal) : Gives (reader >>= next) goal :=
  Gives.bind (fun _ _ _ _ => trivial : Gives reader fun _ => True) fun a _ => hnext a

end JvmArchive.Reader
