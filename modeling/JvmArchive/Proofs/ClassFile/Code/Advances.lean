import JvmArchive.Proofs.ClassFile.Code.Labels

/-!
# What readers leave behind

A reader that succeeds has taken bytes from the front and put none back. A reader that turns offsets into
labels also leaves a sound table, in which every label is kept that was there before, and what it gives
is described by the labels of every table that this one grows into.
-/
namespace JvmArchive

namespace Cursor

/-- Whether a cursor can be moved on to another one: no byte gets lost. -/
structure Precedes (cursor later : Cursor) : Prop where
  offset_le : cursor.offset ≤ later.offset
  whole : later.offset + later.rest.length = cursor.offset + cursor.rest.length

theorem Precedes.refl (cursor : Cursor) : Precedes cursor cursor := ⟨Nat.le_refl _, rfl⟩

theorem Precedes.trans {a b c : Cursor} (hab : Precedes a b) (hbc : Precedes b c) : Precedes a c :=
  ⟨Nat.le_trans hab.offset_le hbc.offset_le, hbc.whole.trans hab.whole⟩

end Cursor

namespace Reader

variable {α β : Type}

/-- A reader in two steps that succeeds does so in both. -/
theorem exists_of_bind_run {reader : Reader α} {next : α → Reader β} {cursor : Cursor}
    {result : β × Cursor} (h : (reader >>= next) cursor = .ok result) :
    ∃ a later, reader cursor = .ok (a, later) ∧ next a later = .ok result := by
  obtain ⟨⟨a, later⟩, hread, hrest⟩ := exists_of_bind_ok h
  exact ⟨a, later, hread, hrest⟩

theorem exists_of_onBytes {reader : Reader α} {bytes : List UInt8} {a : α}
    (h : onBytes reader bytes = .ok a) : ∃ later, reader ⟨0, bytes⟩ = .ok (a, later) := by
  have hmap : Except.map (·.1) (reader ⟨0, bytes⟩) = .ok a := h
  cases hread : reader ⟨0, bytes⟩ with
  | error error =>
    rw [hread] at hmap
    cases hmap
  | ok result =>
    rw [hread] at hmap
    cases hmap
    exact ⟨result.2, rfl⟩

/-- Whether a reader only moves the cursor on. -/
def Advances (reader : Reader α) : Prop :=
  ∀ cursor a later, reader cursor = .ok (a, later) → cursor.Precedes later

@[simp]
theorem advances_pure (a : α) : Advances (pure a) := by
  intro cursor b later h
  cases h
  exact .refl cursor

@[simp]
theorem advances_throw (error : FormatError) : Advances (throw error : Reader α) := by
  intro cursor a later h
  cases h

theorem advances_bind {reader : Reader α} {next : α → Reader β} (h : Advances reader)
    (hnext : ∀ a, Advances (next a)) : Advances (reader >>= next) := by
  intro cursor b later hrun
  obtain ⟨a, middle, hread, hrest⟩ := exists_of_bind_run hrun
  exact (h _ _ _ hread).trans (hnext a _ _ _ hrest)

@[simp]
theorem advances_lift (result : Except FormatError α) : Advances (liftM result) := by
  cases result with
  | error error => exact advances_throw error
  | ok a => exact advances_pure a

/-- Bytes that are taken are as many as are asked for. -/
theorem precedes_of_take {n : Nat} {cursor later : Cursor} {bytes : List UInt8}
    (h : take n cursor = .ok (bytes, later)) :
    cursor.Precedes later ∧ bytes.length = n ∧ later.offset = cursor.offset + n := by
  unfold take at h
  dsimp only at h
  split at h
  · cases h
  · rename_i hlength
    cases h
    rw [List.length_take] at hlength
    refine ⟨⟨Nat.le_add_right _ _, ?_⟩, ?_, rfl⟩
    · simp only [List.length_drop]
      omega
    · rw [List.length_take]
      omega

@[simp]
theorem advances_take (n : Nat) : Advances (take n) := fun _ _ _ h => (precedes_of_take h).1

@[simp]
theorem advances_skip (n : Nat) : Advances (skip n) :=
  advances_bind (advances_take n) fun _ => advances_pure ()

@[simp]
theorem advances_remaining : Advances remaining := by
  intro cursor n later h
  cases h
  exact .refl cursor

/-- A byte that is read lies behind the cursor. -/
theorem precedes_of_uint8 {cursor later : Cursor} {w : UInt8} (h : uint8 cursor = .ok (w, later)) :
    cursor.Precedes later ∧ later.offset = cursor.offset + 1 := by
  unfold uint8 at h
  split at h
  · rename_i first rest hrest
    cases h
    refine ⟨⟨Nat.le_succ _, ?_⟩, rfl⟩
    simp only [hrest, List.length_cons]
    omega
  · cases h

@[simp]
theorem advances_uint8 : Advances uint8 := fun _ _ _ h => (precedes_of_uint8 h).1

@[simp]
theorem advances_uint16 : Advances uint16 := by
  intro cursor w later h
  unfold uint16 at h
  split at h
  · rename_i first second rest hrest
    cases h
    refine ⟨Nat.le_add_right _ _, ?_⟩
    simp only [hrest, List.length_cons]
    omega
  · cases h

theorem precedes_of_uint32 {cursor later : Cursor} {w : UInt32} (h : uint32 cursor = .ok (w, later)) :
    cursor.Precedes later ∧ later.offset = cursor.offset + 4 := by
  unfold uint32 at h
  split at h
  · rename_i first second third fourth rest hrest
    cases h
    refine ⟨⟨Nat.le_add_right _ _, ?_⟩, rfl⟩
    simp only [hrest, List.length_cons]
    omega
  · cases h

@[simp]
theorem advances_uint32 : Advances uint32 := fun _ _ _ h => (precedes_of_uint32 h).1

@[simp]
theorem advances_int8 : Advances int8 := advances_bind advances_uint8 fun _ => advances_pure _

@[simp]
theorem advances_int16 : Advances int16 := advances_bind advances_uint16 fun _ => advances_pure _

@[simp]
theorem advances_int32 : Advances int32 := advances_bind advances_uint32 fun _ => advances_pure _

end Reader

namespace Decode
open Reader LabelTable

/-- Whether the table has a label for some offset. -/
def LabelTable.Has (table : LabelTable) (label : Label) : Prop :=
  ∃ offset, table.label? offset = some label

theorem LabelTable.Has.of_extends {table later : LabelTable} {label : Label} (h : table.Has label)
    (hextends : Extends table later) : later.Has label := by
  obtain ⟨offset, hlabel⟩ := h
  exact ⟨offset, hextends.labels hlabel⟩

/-- A table that is sound wherever in the code its labels stand. -/
def LabelTable.Regular (table : LabelTable) : Prop :=
  table.Sound (List.range (table.codeLength + 1))

theorem regular_empty {codeLength : Nat} (h : codeLength < 4294967295) :
    LabelTable.Regular { codeLength } := by
  refine sound_empty List.nodup_range (fun place hplace => ?_) ?_
  · exact Nat.le_of_lt_succ (List.mem_range.1 hplace)
  · simp only [List.length_range]
    omega

/-- What asking for the label of an offset leaves behind. -/
theorem LabelTable.Regular.of_ask {table later : LabelTable} (h : table.Regular) {offset : Int}
    {label : Label} (hask : table.ask offset = .ok (label, later)) :
    later.Regular ∧ Extends table later ∧ later.Has label := by
  obtain ⟨place, rfl, hplace⟩ : ∃ place : Nat, offset = place ∧ place ≤ table.codeLength := by
    unfold LabelTable.ask at hask
    split at hask
    · cases hask
    · exact ⟨offset.toNat, by omega, by omega⟩
  obtain ⟨label', later', hask', hsound, hextends, hlabel⟩ :=
    h.ask (List.mem_range.2 (Nat.lt_succ_of_le hplace))
  rw [hask] at hask'
  cases hask'
  refine ⟨?_, hextends, place, hlabel⟩
  rw [LabelTable.Regular, hextends.codeLength]
  exact hsound

variable {α β : Type}

/-- A reader in two steps that succeeds does so in both. -/
theorem exists_of_bind_run {reader : CodeReader α} {next : α → CodeReader β} {table : LabelTable}
    {cursor : Cursor} {result : (β × LabelTable) × Cursor}
    (h : (reader >>= next) table cursor = .ok result) : ∃ a middle cursor₁,
      reader table cursor = .ok ((a, middle), cursor₁) ∧ next a middle cursor₁ = .ok result := by
  obtain ⟨⟨⟨a, middle⟩, cursor₁⟩, hread, hrest⟩ := exists_of_bind_ok h
  exact ⟨a, middle, cursor₁, hread, hrest⟩

/-- Whether a reader that succeeds from a regular table leaves one in which every label is kept, and
gives what has the property in every table beyond. -/
def Leaves (reader : CodeReader α) (good : LabelTable → α → Prop) : Prop :=
  ∀ (table later : LabelTable) (cursor cursor' : Cursor) (a : α), table.Regular →
    reader table cursor = .ok ((a, later), cursor') → later.Regular ∧ Extends table later ∧
      cursor.Precedes cursor' ∧ ∀ final, Extends later final → good final a

theorem leaves_pure {good : LabelTable → α → Prop} {a : α} (h : ∀ final, good final a) :
    Leaves (pure a) good := by
  intro table later cursor cursor' b hregular hrun
  cases hrun
  exact ⟨hregular, .refl table, .refl cursor, fun final _ => h final⟩

theorem leaves_throw {good : LabelTable → α → Prop} (error : FormatError) :
    Leaves (throw error : CodeReader α) good := by
  intro table later cursor cursor' b _ hrun
  cases hrun

theorem Leaves.mono {reader : CodeReader α} {good better : LabelTable → α → Prop}
    (h : Leaves reader good) (himp : ∀ final a, good final a → better final a) :
    Leaves reader better := by
  intro table later cursor cursor' a hregular hrun
  obtain ⟨hlater, hextends, hprecedes, hgood⟩ := h _ _ _ _ _ hregular hrun
  exact ⟨hlater, hextends, hprecedes, fun final hfinal => himp final a (hgood final hfinal)⟩

theorem Leaves.bind {reader : CodeReader α} {next : α → CodeReader β} {good : LabelTable → α → Prop}
    {goal : LabelTable → β → Prop} (h : Leaves reader good)
    (hnext : ∀ a, Leaves (next a) fun final b => good final a → goal final b) :
    Leaves (reader >>= next) goal := by
  intro table later cursor cursor' b hregular hrun
  obtain ⟨a, middle, cursor₁, hread, hrest⟩ := exists_of_bind_run hrun
  obtain ⟨hmiddle, hextends, hprecedes, hgood⟩ := h _ _ _ _ _ hregular hread
  obtain ⟨hlater, hextends', hprecedes', hgoal⟩ := hnext a _ _ _ _ _ hmiddle hrest
  exact ⟨hlater, hextends.trans hextends', hprecedes.trans hprecedes',
    fun final hfinal => hgoal final hfinal (hgood final (hextends'.trans hfinal))⟩

/-- A last step that only puts the result together. -/
theorem Leaves.bind_pure {reader : CodeReader α} {f : α → β} {good : LabelTable → α → Prop}
    {goal : LabelTable → β → Prop} (h : Leaves reader good)
    (himp : ∀ final a, good final a → goal final (f a)) :
    Leaves (reader >>= fun a => pure (f a)) goal :=
  h.bind fun a => leaves_pure fun final hgood => himp final a hgood

/-- First something that asks for no label. -/
theorem leaves_read {reader : Reader α} {next : α → CodeReader β} {goal : LabelTable → β → Prop}
    (h : Advances reader) (hnext : ∀ a, Leaves (next a) goal) :
    Leaves (liftM reader >>= next) goal := by
  have hlift : Leaves (liftM reader) fun _ (_ : α) => True := by
    intro table later cursor cursor' a hregular hrun
    obtain ⟨⟨b, cursor₁⟩, hread, hrest⟩ := exists_of_bind_ok hrun
    cases hrest
    exact ⟨hregular, .refl table, h _ _ _ hread, fun _ _ => trivial⟩
  exact hlift.bind fun a => (hnext a).mono fun _ _ hgoal _ => hgoal

theorem leaves_labelAt (offset : Int) : Leaves (labelAt offset) LabelTable.Has := by
  intro table later cursor cursor' label hregular hrun
  obtain ⟨⟨b, later'⟩, hask, hrest⟩ : ∃ p, table.ask offset = .ok p ∧
      (.ok (p, cursor) : Except FormatError _) = .ok ((label, later), cursor') := by
    change (table.ask offset >>= fun p => .ok (p, cursor)) = _ at hrun
    exact exists_of_bind_ok hrun
  cases hrest
  obtain ⟨hlater, hextends, hhas⟩ := hregular.of_ask hask
  exact ⟨hlater, hextends, .refl cursor, fun final hfinal => hhas.of_extends hfinal⟩

/-- Items that are read one after the other. -/
theorem leaves_times {reader : CodeReader α} {good : LabelTable → α → Prop} (h : Leaves reader good)
    (n : Nat) : Leaves (timesWithLabels n reader) fun final as => ∀ a ∈ as, good final a := by
  induction n with
  | zero => exact leaves_pure fun _ a ha => by cases ha
  | succ n ih =>
    have hcons : timesWithLabels (n + 1) reader =
        reader >>= fun first => timesWithLabels n reader >>= fun rest => pure (first :: rest) := by
      simp [timesWithLabels, List.replicate_succ]
    rw [hcons]
    refine h.bind fun first => ih.bind_pure fun final rest hrest hfirst => ?_
    rw [List.forall_mem_cons]
    exact ⟨hfirst, hrest⟩

theorem leaves_counted {reader : CodeReader α} {good : LabelTable → α → Prop}
    (h : Leaves reader good) :
    Leaves (countedWithLabels reader) fun final as => ∀ a ∈ as, good final a :=
  leaves_read advances_uint16 fun count => leaves_times h count.toNat

/-- The same for a computation outside a reader. -/
def Marked (run : Labelling α) (good : LabelTable → α → Prop) : Prop :=
  ∀ (table later : LabelTable) (a : α), table.Regular → run table = .ok (a, later) →
    later.Regular ∧ Extends table later ∧ ∀ final, Extends later final → good final a

theorem marked_pure {good : LabelTable → α → Prop} {a : α} (h : ∀ final, good final a) :
    Marked (pure a) good := by
  intro table later b hregular hrun
  cases hrun
  exact ⟨hregular, .refl table, fun final _ => h final⟩

theorem Marked.mono {run : Labelling α} {good better : LabelTable → α → Prop} (h : Marked run good)
    (himp : ∀ final a, good final a → better final a) : Marked run better := by
  intro table later a hregular hrun
  obtain ⟨hlater, hextends, hgood⟩ := h _ _ _ hregular hrun
  exact ⟨hlater, hextends, fun final hfinal => himp final a (hgood final hfinal)⟩

theorem Marked.bind {run : Labelling α} {next : α → Labelling β} {good : LabelTable → α → Prop}
    {goal : LabelTable → β → Prop} (h : Marked run good)
    (hnext : ∀ a, Marked (next a) fun final b => good final a → goal final b) :
    Marked (run >>= next) goal := by
  intro table later b hregular hrun
  obtain ⟨⟨a, middle⟩, hfirst, hrest⟩ := exists_of_bind_ok hrun
  obtain ⟨hmiddle, hextends, hgood⟩ := h _ _ _ hregular hfirst
  obtain ⟨hlater, hextends', hgoal⟩ := hnext a _ _ _ hmiddle hrest
  exact ⟨hlater, hextends.trans hextends',
    fun final hfinal => hgoal final hfinal (hgood final (hextends'.trans hfinal))⟩

/-- First something that asks for no label. -/
theorem marked_lift {result : Except FormatError α} {next : α → Labelling β}
    {goal : LabelTable → β → Prop} (hnext : ∀ a, Marked (next a) goal) :
    Marked (liftM result >>= next) goal := by
  cases result with
  | error error =>
    intro table later b _ hrun
    cases hrun
  | ok a => exact hnext a

theorem marked_ask (offset : Int) : Marked (fun table => table.ask offset) LabelTable.Has := by
  intro table later label hregular hrun
  obtain ⟨hlater, hextends, hhas⟩ := hregular.of_ask hrun
  exact ⟨hlater, hextends, fun final hfinal => hhas.of_extends hfinal⟩

theorem Leaves.onBytes {reader : CodeReader α} {good : LabelTable → α → Prop} (h : Leaves reader good)
    (bytes : List UInt8) : Marked (Decode.onBytes reader bytes) good := by
  intro table later a hregular hrun
  obtain ⟨cursor, hread⟩ := exists_of_onBytes hrun
  obtain ⟨hlater, hextends, -, hgood⟩ := h _ _ _ _ _ hregular hread
  exact ⟨hlater, hextends, hgood⟩

end Decode
end JvmArchive
