import JvmArchive.ClassFile.Decode.Code
import JvmArchive.Proofs.ClassFile.Reads

/-!
# Labels that readers ask for

A logic for readers that turn offsets into labels. From any sound table such a reader only adds labels
to the table, all of them at the places of the code, and what it gives is described by the labels of
every table that the present one grows into.
-/
namespace JvmArchive.Decode
open Reader

namespace LabelTable

/-- Labels stand at the given places only, no two places share one, and they are numbered below how many
they are. -/
structure Sound (places : List Nat) (table : LabelTable) : Prop where
  nodup : places.Nodup
  within : ∀ place ∈ places, place ≤ table.codeLength
  few : places.length ≤ 4294967295
  mem : ∀ {place : Nat} {label : Label}, table.label? place = some label → place ∈ places
  number_lt : ∀ {place : Nat} {label : Label}, table.label? place = some label →
    label.number.toNat < table.labels.size
  injective : ∀ {place other : Nat} {label : Label}, table.label? place = some label →
    table.label? other = some label → place = other

/-- Every label of the first table is also one of the second. -/
structure Extends (table later : LabelTable) : Prop where
  codeLength : later.codeLength = table.codeLength
  labels : ∀ {place : Nat} {label : Label},
    table.label? place = some label → later.label? place = some label

theorem Extends.refl (table : LabelTable) : Extends table table := ⟨rfl, id⟩

theorem Extends.trans {a b c : LabelTable} (hab : Extends a b) (hbc : Extends b c) : Extends a c where
  codeLength := hbc.codeLength.trans hab.codeLength
  labels h := hbc.labels (hab.labels h)

theorem sound_empty {places : List Nat} {codeLength : Nat} (hnodup : places.Nodup)
    (hwithin : ∀ place ∈ places, place ≤ codeLength) (hfew : places.length ≤ 4294967295) :
    Sound places { codeLength } where
  nodup := hnodup
  within := hwithin
  few := hfew
  mem h := by simp [label?] at h
  number_lt h := by simp [label?] at h
  injective h := by simp [label?] at h

/-- The labels at the places of the code are all the labels there are. -/
theorem Sound.countP_eq_size {places : List Nat} {table : LabelTable} (h : table.Sound places) :
    places.countP (fun place => (table.label? place).isSome) = table.labels.size := by
  have hkeys : table.labels.keys.Nodup := by
    apply table.labels.distinct_keys.imp
    intro a b hab
    simpa using hab
  have hperm : (places.filter fun place => (table.label? place).isSome).Perm table.labels.keys := by
    rw [List.perm_ext_iff_of_nodup (h.nodup.filter _) hkeys]
    intro place
    rw [List.mem_filter, Std.HashMap.mem_keys, ← Std.HashMap.isSome_getElem?_iff_mem]
    constructor
    · exact And.right
    · intro hsome
      obtain ⟨label, hlabel⟩ := Option.isSome_iff_exists.1 hsome
      exact ⟨h.mem hlabel, hsome⟩
  rw [List.countP_eq_length_filter, hperm.length_eq, Std.HashMap.length_keys]

theorem Sound.size_le {places : List Nat} {table : LabelTable} (h : table.Sound places) :
    table.labels.size ≤ places.length := by
  rw [← h.countP_eq_size]
  exact List.countP_le_length

/-- There are not more labels than numbers for them. -/
theorem Sound.toNat_size {places : List Nat} {table : LabelTable} (h : table.Sound places) :
    table.labels.size.toUInt32.toNat = table.labels.size := by
  have hsize := h.size_le
  have hfew := h.few
  apply Bytes.toNat_toUInt32
  omega

theorem extends_insert {table : LabelTable} {place : Nat} (hnone : table.label? place = none)
    (label : Label) : Extends table { table with labels := table.labels.insert place label } where
  codeLength := rfl
  labels {other found} hother := by
    rw [label?, Std.HashMap.getElem?_insert]
    split
    next heq =>
      rw [← eq_of_beq heq, hnone] at hother
      cases hother
    next => exact hother

/-- The number of a new label is not that of an old one. -/
theorem Sound.insert {places : List Nat} {table : LabelTable} (h : table.Sound places) {place : Nat}
    (hplace : place ∈ places) (hnone : table.label? place = none) :
    Sound places
      { table with labels := table.labels.insert place ⟨table.labels.size.toUInt32⟩ } := by
  have hsize : (table.labels.insert place ⟨table.labels.size.toUInt32⟩).size =
      table.labels.size + 1 := by
    rw [Std.HashMap.size_insert, if_neg]
    rw [← Std.HashMap.isSome_getElem?_iff_mem, ← label?, hnone]
    exact Bool.false_ne_true
  refine ⟨h.nodup, h.within, h.few, ?_, ?_, ?_⟩
  · intro other label hother
    rw [label?, Std.HashMap.getElem?_insert] at hother
    split at hother
    next heq => rwa [← eq_of_beq heq]
    next => exact h.mem hother
  · intro other label hother
    show label.number.toNat < (table.labels.insert place _).size
    rw [hsize]
    rw [label?, Std.HashMap.getElem?_insert] at hother
    split at hother
    next =>
      cases hother
      rw [h.toNat_size]
      exact Nat.lt_succ_self _
    next => exact Nat.lt_succ_of_lt (h.number_lt hother)
  · intro first second label hfirst hsecond
    rw [label?, Std.HashMap.getElem?_insert] at hfirst hsecond
    split at hfirst <;> split at hsecond
    next hp hq => rw [← eq_of_beq hp, ← eq_of_beq hq]
    next =>
      cases hfirst
      exact absurd (h.number_lt hsecond) (by rw [h.toNat_size]; exact Nat.lt_irrefl _)
    next =>
      cases hsecond
      exact absurd (h.number_lt hfirst) (by rw [h.toNat_size]; exact Nat.lt_irrefl _)
    next => exact h.injective hfirst hsecond

/-- A place of the code has a label or gets a new one. -/
theorem Sound.ask {places : List Nat} {table : LabelTable} (h : table.Sound places) {place : Nat}
    (hplace : place ∈ places) :
    ∃ label later, table.ask place = .ok (label, later) ∧ later.Sound places ∧
      Extends table later ∧ later.label? place = some label := by
  have hwithin := h.within place hplace
  have hrange : ¬((place : Int) < 0 ∨ (place : Int) > table.codeLength) := by omega
  cases hlabel : table.labels[place]? with
  | some label =>
    refine ⟨label, table, ?_, h, .refl table, hlabel⟩
    simp only [LabelTable.ask, if_neg hrange, Int.toNat_natCast, hlabel]
  | none =>
    refine ⟨⟨table.labels.size.toUInt32⟩, _, ?_, h.insert hplace hlabel, extends_insert hlabel _, ?_⟩
    · simp only [LabelTable.ask, if_neg hrange, Int.toNat_natCast, hlabel]
    · simp [label?]

end LabelTable
open LabelTable

variable {α β : Type} {places : List Nat}

/-- From a sound table the reader takes exactly these bytes and only adds labels at the places, and what
it gives has the property in every table beyond. -/
def Asks (places : List Nat) (reader : CodeReader α) (bytes : List UInt8)
    (good : LabelTable → α → Prop) : Prop :=
  ∀ table : LabelTable, table.Sound places → ∃ a later, Reads (reader table) bytes (a, later) ∧
    later.Sound places ∧ Extends table later ∧ ∀ final, Extends later final → good final a

theorem asks_pure {good : LabelTable → α → Prop} {a : α} (h : ∀ final, good final a) :
    Asks places (pure a) [] good := by
  intro table hsound
  exact ⟨a, table, reads_pure (a, table), hsound, .refl table, fun final _ => h final⟩

theorem Asks.mono {reader : CodeReader α} {bytes : List UInt8} {good better : LabelTable → α → Prop}
    (h : Asks places reader bytes good) (himp : ∀ final a, good final a → better final a) :
    Asks places reader bytes better := by
  intro table hsound
  obtain ⟨a, later, hread, hlater, hextends, hgood⟩ := h table hsound
  exact ⟨a, later, hread, hlater, hextends, fun final hfinal => himp final a (hgood final hfinal)⟩

/-- One reader after another. The second one may rely on what is known of its argument whatever the
labels. -/
theorem Asks.bind_of {known : α → Prop} {reader : CodeReader α} {next : α → CodeReader β}
    {xs ys : List UInt8} {good : LabelTable → α → Prop} {goal : LabelTable → β → Prop}
    (h : Asks places reader xs good) (hknown : ∀ final a, good final a → known a)
    (hnext : ∀ a, known a → Asks places (next a) ys fun final b => good final a → goal final b) :
    Asks places (reader >>= next) (xs ++ ys) goal := by
  intro table hsound
  obtain ⟨a, middle, hread, hmiddle, hextends, hgood⟩ := h table hsound
  have ha := hknown middle a (hgood middle (.refl middle))
  obtain ⟨b, later, hread', hlater, hextends', hgoal⟩ := hnext a ha middle hmiddle
  refine ⟨b, later, ?_, hlater, hextends.trans hextends', ?_⟩
  · show Reads (reader table >>= fun result => next result.1 result.2) (xs ++ ys) (b, later)
    exact hread.bind hread'
  · intro final hfinal
    exact hgoal final hfinal (hgood final (hextends'.trans hfinal))

theorem Asks.bind {reader : CodeReader α} {next : α → CodeReader β} {xs ys : List UInt8}
    {good : LabelTable → α → Prop} {goal : LabelTable → β → Prop} (h : Asks places reader xs good)
    (hnext : ∀ a, Asks places (next a) ys fun final b => good final a → goal final b) :
    Asks places (reader >>= next) (xs ++ ys) goal :=
  h.bind_of (fun _ _ _ => trivial) fun a (_ : True) => hnext a

/-- A last step that only puts the result together. -/
theorem Asks.bind_pure {reader : CodeReader α} {f : α → β} {bytes : List UInt8}
    {good : LabelTable → α → Prop} {goal : LabelTable → β → Prop} (h : Asks places reader bytes good)
    (himp : ∀ final a, good final a → goal final (f a)) :
    Asks places (reader >>= fun a => pure (f a)) bytes goal := by
  have hpure : Asks places (reader >>= fun a => pure (f a)) (bytes ++ []) goal :=
    h.bind fun a => asks_pure fun final hgood => himp final a hgood
  rwa [List.append_nil] at hpure

/-- First something that asks for no label. -/
theorem asks_read {reader : Reader α} {next : α → CodeReader β} {xs ys : List UInt8} {a : α}
    {goal : LabelTable → β → Prop} (h : Reads reader xs a) (hnext : Asks places (next a) ys goal) :
    Asks places (liftM reader >>= next) (xs ++ ys) goal := by
  intro table hsound
  obtain ⟨b, later, hread, hlater, hextends, hgoal⟩ := hnext table hsound
  refine ⟨b, later, ?_, hlater, hextends, hgoal⟩
  have hlift : Reads (reader >>= fun a => pure (a, table)) xs (a, table) :=
    h.bind_pure (reads_pure (a, table))
  show Reads ((reader >>= fun a => pure (a, table)) >>= fun result => next result.1 result.2)
    (xs ++ ys) (b, later)
  exact hlift.bind hread

/-- Something that asks for no label, and nothing more. -/
theorem asks_read_pure {reader : Reader α} {f : α → β} {bytes : List UInt8} {a : α}
    {goal : LabelTable → β → Prop} (h : Reads reader bytes a) (hgoal : ∀ final, goal final (f a)) :
    Asks places (liftM reader >>= fun a => pure (f a)) bytes goal := by
  have hpure : Asks places (liftM reader >>= fun a => pure (f a)) (bytes ++ []) goal :=
    asks_read h (asks_pure hgoal)
  rwa [List.append_nil] at hpure

/-- First something that succeeds without reading. -/
theorem asks_lift {result : Except FormatError α} {next : α → CodeReader β} {bytes : List UInt8} {a : α}
    {goal : LabelTable → β → Prop} (h : result = .ok a) (hnext : Asks places (next a) bytes goal) :
    Asks places (liftM result >>= next) bytes goal := by
  have hread : Reads (liftM result : Reader α) [] a := reads_lift h
  exact asks_read hread hnext

/-- How many bytes are left matters only as far as there are enough of them. -/
theorem asks_remaining {next : Nat → CodeReader β} {reader : CodeReader β} {bytes : List UInt8}
    {goal : LabelTable → β → Prop} (hnext : ∀ n, bytes.length ≤ n → next n = reader)
    (h : Asks places reader bytes goal) : Asks places (liftM remaining >>= next) bytes goal := by
  intro table hsound
  obtain ⟨b, later, hread, hlater, hextends, hgoal⟩ := h table hsound
  refine ⟨b, later, ?_, hlater, hextends, hgoal⟩
  intro offset rest
  have hrun : (liftM remaining >>= next) table ⟨offset, bytes ++ rest⟩ =
      next (bytes ++ rest).length table ⟨offset, bytes ++ rest⟩ := rfl
  rw [hrun, hnext _ (by simp)]
  exact hread offset rest

theorem asks_labelAt {place : Nat} (hplace : place ∈ places) :
    Asks places (labelAt place) [] fun final label => final.label? place = some label := by
  intro table hsound
  obtain ⟨label, later, hask, hlater, hextends, hlabel⟩ := hsound.ask hplace
  refine ⟨label, later, reads_lift hask, hlater, hextends, ?_⟩
  intro final hfinal
  exact hfinal.labels hlabel

/-- Items that are read one after the other. -/
theorem asks_times {γ : Type} {reader : CodeReader α} {chunks : List (List UInt8)} {items : List γ}
    {good : LabelTable → γ → α → Prop}
    (h : List.Forall₂ (fun chunk item => Asks places reader chunk fun final a => good final item a)
      chunks items) :
    Asks places (timesWithLabels items.length reader) chunks.flatten fun final as =>
      List.Forall₂ (good final) items as := by
  induction h with
  | nil => exact asks_pure fun _ => .nil
  | @cons chunk item chunks items hitem _ ih =>
    have hcons : timesWithLabels (items.length + 1) reader =
        reader >>= fun first => timesWithLabels items.length reader >>= fun rest =>
          pure (first :: rest) := by
      simp [timesWithLabels, List.replicate_succ]
    rw [List.length_cons, hcons, List.flatten_cons]
    apply hitem.bind
    intro first
    apply ih.bind_pure
    intro final rest hrest hfirst
    exact .cons hfirst hrest

/-- Items behind their number, which has to fit two bytes. -/
theorem asks_counted {γ : Type} {reader : CodeReader α} {chunks : List (List UInt8)} {items : List γ}
    {good : LabelTable → γ → α → Prop} (hsize : items.length < 65536)
    (h : List.Forall₂ (fun chunk item => Asks places reader chunk fun final a => good final item a)
      chunks items) :
    Asks places (countedWithLabels reader) (Bytes.ofNat16 items.length ++ chunks.flatten)
      fun final as => List.Forall₂ (good final) items as := by
  apply asks_read (reads_uint16 _)
  rw [Bytes.toNat_toUInt16 hsize]
  exact asks_times h

/-- From a sound table the reader rejects what starts with these bytes. -/
def Refuses (places : List Nat) (reader : CodeReader α) (bytes : List UInt8) (what : String) : Prop :=
  ∀ table : LabelTable, table.Sound places → ∃ detail,
    Fails (reader table) bytes (.malformed what detail)

theorem Asks.bind_refuses {reader : CodeReader α} {next : α → CodeReader β} {xs ys : List UInt8}
    {good : LabelTable → α → Prop} {what : String} (h : Asks places reader xs good)
    (hnext : ∀ a, Refuses places (next a) ys what) :
    Refuses places (reader >>= next) (xs ++ ys) what := by
  intro table hsound
  obtain ⟨a, middle, hread, hmiddle, -⟩ := h table hsound
  obtain ⟨detail, hfails⟩ := hnext a middle hmiddle
  refine ⟨detail, ?_⟩
  show Fails (reader table >>= fun result => next result.1 result.2) (xs ++ ys) _
  exact hread.bind_fails hfails

/-- First something that asks for no label. -/
theorem refuses_read {reader : Reader α} {next : α → CodeReader β} {xs ys : List UInt8} {a : α}
    {what : String} (h : Reads reader xs a) (hnext : Refuses places (next a) ys what) :
    Refuses places (liftM reader >>= next) (xs ++ ys) what := by
  intro table hsound
  obtain ⟨detail, hfails⟩ := hnext table hsound
  have hlift : Reads (reader >>= fun a => pure (a, table)) xs (a, table) :=
    h.bind_pure (reads_pure (a, table))
  refine ⟨detail, ?_⟩
  show Fails ((reader >>= fun a => pure (a, table)) >>= fun result => next result.1 result.2)
    (xs ++ ys) _
  exact hlift.bind_fails hfails

/-- The same for a computation that reads nothing. -/
def Marks (places : List Nat) (run : Labelling α) (good : LabelTable → α → Prop) : Prop :=
  ∀ table : LabelTable, table.Sound places → ∃ a later, run table = .ok (a, later) ∧
    later.Sound places ∧ Extends table later ∧ ∀ final, Extends later final → good final a

theorem marks_pure {good : LabelTable → α → Prop} {a : α} (h : ∀ final, good final a) :
    Marks places (pure a) good := by
  intro table hsound
  exact ⟨a, table, rfl, hsound, .refl table, fun final _ => h final⟩

theorem Marks.mono {run : Labelling α} {good better : LabelTable → α → Prop}
    (h : Marks places run good) (himp : ∀ final a, good final a → better final a) :
    Marks places run better := by
  intro table hsound
  obtain ⟨a, later, hrun, hlater, hextends, hgood⟩ := h table hsound
  exact ⟨a, later, hrun, hlater, hextends, fun final hfinal => himp final a (hgood final hfinal)⟩

theorem Marks.bind {run : Labelling α} {next : α → Labelling β} {good : LabelTable → α → Prop}
    {goal : LabelTable → β → Prop} (h : Marks places run good)
    (hnext : ∀ a, Marks places (next a) fun final b => good final a → goal final b) :
    Marks places (run >>= next) goal := by
  intro table hsound
  obtain ⟨a, middle, hrun, hmiddle, hextends, hgood⟩ := h table hsound
  obtain ⟨b, later, hrun', hlater, hextends', hgoal⟩ := hnext a middle hmiddle
  refine ⟨b, later, ?_, hlater, hextends.trans hextends', ?_⟩
  · have hbind : (run >>= next) table = (run table).bind fun result => next result.1 result.2 := rfl
    rw [hbind, hrun]
    exact hrun'
  · intro final hfinal
    exact hgoal final hfinal (hgood final (hextends'.trans hfinal))

/-- First something that succeeds without asking. -/
theorem marks_lift {result : Except FormatError α} {next : α → Labelling β} {a : α}
    {goal : LabelTable → β → Prop} (h : result = .ok a) (hnext : Marks places (next a) goal) :
    Marks places (liftM result >>= next) goal := by
  subst h
  exact hnext

theorem marks_ask {place : Nat} (hplace : place ∈ places) :
    Marks places (fun table => table.ask place) fun final label => final.label? place = some label := by
  intro table hsound
  obtain ⟨label, later, hask, hlater, hextends, hlabel⟩ := hsound.ask hplace
  exact ⟨label, later, hask, hlater, hextends, fun final hfinal => hfinal.labels hlabel⟩

theorem Asks.onBytes {reader : CodeReader α} {bytes : List UInt8} {good : LabelTable → α → Prop}
    (h : Asks places reader bytes good) : Marks places (Decode.onBytes reader bytes) good := by
  intro table hsound
  obtain ⟨a, later, hread, hlater, hextends, hgood⟩ := h table hsound
  exact ⟨a, later, hread.onBytes, hlater, hextends, hgood⟩

end JvmArchive.Decode
