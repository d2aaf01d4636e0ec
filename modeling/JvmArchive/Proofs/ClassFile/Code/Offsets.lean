import JvmArchive.Proofs.ClassFile.Code.Frames
import JvmArchive.Proofs.ClassFile.Code.Locals
import JvmArchive.Proofs.ClassFile.Code.Placed

/-!
# Offsets of labels

In a layout the offsets of labels ascend with their places. What is said in offsets while code is written
and read, that a range is not empty or that two variables share one, can be said in places.
-/
namespace JvmArchive

/-- Labels of two lists that name the same place. -/
def Instruction.SamePlace (xs ys : List Instruction) (label label' : Label) : Prop :=
  ∃ place, placeOf xs label = some place ∧ placeOf ys label' = some place

/-- Whether the range of a handler holds an instruction. -/
def TryCatch.isUsed (instructions : List Instruction) (block : TryCatch) : Bool :=
  match Instruction.placeOf instructions block.start, Instruction.placeOf instructions block.stop with
  | some start, some stop => start < stop
  | _, _ => false

/-- The places where the range of a local variable starts and where it stops, and its slot. A range
that stops before it starts is an empty one. -/
def LocalVariable.span (instructions : List Instruction) (declared : LocalVariable) :
    Option (Nat × Nat) × UInt16 :=
  (do
    let start ← Instruction.placeOf instructions declared.start
    let stop ← Instruction.placeOf instructions declared.stop
    return (start, max start stop), declared.index)

theorem LocalVariable.span_eq {instructions : List Instruction} {declared : LocalVariable}
    {start stop : Nat} (hstart : Instruction.placeOf instructions declared.start = some start)
    (hstop : Instruction.placeOf instructions declared.stop = some stop) :
    declared.span instructions = (some (start, max start stop), declared.index) := by
  unfold span
  rw [hstart, hstop]
  rfl

namespace Instruction

theorem placeOf_le {instructions : List Instruction} {label : Label} {place : Nat}
    (h : placeOf instructions label = some place) : place ≤ (real instructions).length := by
  induction instructions generalizing place with
  | nil => cases h
  | cons next rest ih =>
    cases hpseudo : next.isPseudo with
    | false =>
      rw [placeOf_real hpseudo, Option.map_eq_some_iff] at h
      obtain ⟨before, hbefore, rfl⟩ := h
      have hreal : real (next :: rest) = next :: real rest := by simp [real, hpseudo]
      rw [hreal, List.length_cons]
      exact Nat.succ_le_succ (ih hbefore)
    | true =>
      have hreal : real (next :: rest) = real rest := by simp [real, hpseudo]
      rw [hreal]
      by_cases hlabel : ∃ other, next = .label other
      · obtain ⟨other, rfl⟩ := hlabel
        rw [placeOf_label] at h
        cases hrest : placeOf rest label with
        | some first =>
          rw [hrest, Option.some_or] at h
          cases h
          exact ih hrest
        | none =>
          rw [hrest, Option.none_or] at h
          split at h
          · cases h
            exact Nat.zero_le _
          · cases h
      · rw [placeOf_pseudo hpseudo fun other heq => hlabel ⟨other, heq⟩] at h
        exact ih h

end Instruction

namespace Encode
open PoolBuilder PoolWriter Decode Instruction

variable {name : String} {instructions : List Instruction} {final : PoolBuilder} {layout : Layout}

/-- The offsets of the real instructions of a layout, and its end. -/
def Layout.places (layout : Layout) (instructions : List Instruction) : List Nat :=
  starts (layout.cells instructions) ++ [layout.size]

/-- Whether a real instruction of a layout starts at an offset. -/
def Layout.isStart (layout : Layout) (instructions : List Instruction) : Nat → Bool :=
  (Std.HashSet.ofList (starts (layout.cells instructions))).contains

theorem Fills.fits {pc stop : Nat} {cells : List (Instruction × Nat × Bool)}
    (h : Fills final pc cells stop) {cell : Instruction × Nat × Bool} (hcell : cell ∈ cells) :
    ∃ size, instructionSize cell.2.1 cell.2.2 cell.1 final = .ok (size, final) ∧
      cell.2.1 + size ≤ stop := by
  induction h with
  | nil => cases hcell
  | @cons pc size stop wide next rest hsize hrest ih =>
    rcases List.mem_cons.1 hcell with rfl | hmem
    · exact ⟨size, hsize, hrest.le⟩
    · exact ih hmem

namespace LaidOut

/-- A label has the offset of its place. -/
theorem offset_eq_ok (h : LaidOut name instructions final layout) {label : Label} {offset : Nat} :
    offsetOf name layout.labels label = .ok offset ↔
      ∃ place, placeOf instructions label = some place ∧
        (layout.places instructions)[place]? = some offset := by
  have hlabel : layout.labels[label]? =
      (placeOf instructions label).bind fun place => (layout.places instructions)[place]? := by
    have hlabels := h.labels label
    rw [h.entries] at hlabels
    rw [hlabels]
    cases placeOf instructions label with
    | none => exact Std.HashMap.getElem?_empty
    | some place => rfl
  have hoffset : offsetOf name layout.labels label = .ok offset ↔
      layout.labels[label]? = some offset := by
    unfold offsetOf
    cases layout.labels[label]? <;> simp
  rw [hoffset, hlabel, Option.bind_eq_some_iff]

theorem length_places (h : LaidOut name instructions final layout) :
    (layout.places instructions).length = (real instructions).length + 1 := by
  have hreal : real ((layout.cells instructions).map (·.1)) =
      ((layout.cells instructions).filter fun cell => !cell.1.isPseudo).map (·.1) := List.filter_map
  rw [h.entries] at hreal
  rw [hreal, Layout.places, starts, List.length_append, List.length_map, List.length_map,
    List.length_singleton]

/-- A label that stands in the code has an offset, and one that does not has none. -/
theorem offset_eq (h : LaidOut name instructions final layout) (label : Label) :
    match placeOf instructions label with
    | some place => ∃ offset, offsetOf name layout.labels label = .ok offset ∧
        (layout.places instructions)[place]? = some offset
    | none => ∃ error, offsetOf name layout.labels label = .error error := by
  cases hplace : placeOf instructions label with
  | some place =>
    have hlt : place < (layout.places instructions).length := by
      have hle := placeOf_le hplace
      rw [h.length_places]
      omega
    have hoffset := List.getElem?_eq_getElem hlt
    exact ⟨_, h.offset_eq_ok.2 ⟨place, hplace, hoffset⟩, hoffset⟩
  | none =>
    cases hoffset : offsetOf name layout.labels label with
    | error error => exact ⟨error, rfl⟩
    | ok offset =>
      obtain ⟨place, hsome, -⟩ := h.offset_eq_ok.1 hoffset
      rw [hplace] at hsome
      cases hsome

theorem ascending (h : LaidOut name instructions final layout) :
    (layout.places instructions).Pairwise (· < ·) := h.fills.ascending

theorem le_size (h : LaidOut name instructions final layout) {place : Nat}
    (hplace : place ∈ layout.places instructions) : place ≤ layout.size := by
  rcases List.mem_append.1 hplace with hstart | hend
  · exact Nat.le_of_lt (h.fills.of_mem_starts hstart).2
  · exact Nat.le_of_eq (List.mem_singleton.1 hend)

theorem mapped (h : LaidOut name instructions final layout) :
    Mapped (offsetOf name layout.labels) (layout.places instructions) where
  mem hoffset := by
    obtain ⟨place, -, hplace⟩ := h.offset_eq_ok.1 hoffset
    exact List.mem_of_getElem? hplace
  lt place hplace := by
    have hle := h.le_size hplace
    have hsize : layout.size ≤ 65535 := h.size_le
    omega

/-- The layout places every entry where its jumps reach their targets. -/
theorem allSited (h : LaidOut name instructions final layout) :
    AllSited (offsetOf name layout.labels) (layout.places instructions)
      (layout.cells instructions) := by
  intro cell hcell
  refine ⟨h.mapped, h.mapped.lt _ (h.fills.mem_places hcell), h.widened cell hcell, ?_, ?_⟩
  · intro op target hjump hwide hop place hplace
    have hsettled := h.settled cell hcell
    rw [hjump, hwide] at hsettled
    obtain ⟨destination, hdestination, hfits⟩ := reaches_of_mustWiden hsettled hop
    have hoffset : offsetOf name layout.labels target = .ok destination := by
      unfold offsetOf
      rw [hdestination]
    rw [hoffset] at hplace
    cases hplace
    exact hfits
  · intro default keys targets hswitch
    obtain ⟨size, hsize, hle⟩ := h.fills.fits hcell
    rw [hswitch] at hsize
    cases hsize
    have hmax : layout.size ≤ 65535 := h.size_le
    omega

/-- One place is before another exactly if its offset is. -/
theorem place_lt_iff (h : LaidOut name instructions final layout) {a b start stop : Nat}
    (hstart : (layout.places instructions)[a]? = some start)
    (hstop : (layout.places instructions)[b]? = some stop) : a < b ↔ start < stop := by
  obtain ⟨ha, rfl⟩ := List.getElem?_eq_some_iff.1 hstart
  obtain ⟨hb, rfl⟩ := List.getElem?_eq_some_iff.1 hstop
  have hmono := List.pairwise_iff_getElem.1 h.ascending
  constructor
  · exact hmono a b ha hb
  · intro hlt
    rcases Nat.lt_trichotomy a b with hab | rfl | hba
    · exact hab
    · omega
    · have := hmono b a hb ha hba
      omega

theorem place_max (h : LaidOut name instructions final layout) {a b start stop : Nat}
    (ha : (layout.places instructions)[a]? = some start)
    (hb : (layout.places instructions)[b]? = some stop) :
    (layout.places instructions)[max a b]? = some (max start stop) := by
  have hiff := h.place_lt_iff ha hb
  rcases Nat.lt_or_ge a b with hab | hab
  · rw [Nat.max_eq_right (Nat.le_of_lt hab), Nat.max_eq_right (Nat.le_of_lt (hiff.1 hab)), hb]
  · have hle : stop ≤ start := Nat.le_of_not_lt (mt hiff.2 (Nat.not_lt.2 hab))
    rw [Nat.max_eq_left hab, Nat.max_eq_left hle, ha]

theorem place_inj (h : LaidOut name instructions final layout) {a b offset : Nat}
    (ha : (layout.places instructions)[a]? = some offset)
    (hb : (layout.places instructions)[b]? = some offset) : a = b := by
  have hiff := h.place_lt_iff ha hb
  have hiff' := h.place_lt_iff hb ha
  omega

/-- The handlers that get a row are those whose range holds an instruction. -/
theorem covers_eq (h : LaidOut name instructions final layout) (block : TryCatch) :
    covers (offsetOf name layout.labels) block = block.isUsed instructions := by
  have hstart := h.offset_eq block.start
  have hstop := h.offset_eq block.stop
  unfold covers TryCatch.isUsed
  cases ha : placeOf instructions block.start with
  | none =>
    rw [ha] at hstart
    obtain ⟨error, hstart⟩ := hstart
    rw [hstart]
  | some a =>
    rw [ha] at hstart
    obtain ⟨start, hstart, hplace⟩ := hstart
    rw [hstart]
    cases hb : placeOf instructions block.stop with
    | none =>
      rw [hb] at hstop
      obtain ⟨error, hstop⟩ := hstop
      rw [hstop]
    | some b =>
      rw [hb] at hstop
      obtain ⟨stop, hstop, hplace'⟩ := hstop
      rw [hstop]
      exact decide_eq_decide.2 (h.place_lt_iff hplace hplace').symm

theorem filter_covers (h : LaidOut name instructions final layout) (blocks : List TryCatch) :
    blocks.filter (covers (offsetOf name layout.labels)) =
      blocks.filter (TryCatch.isUsed instructions) :=
  List.filter_congr fun block _ => h.covers_eq block

/-- A local variable has the offsets of its places. -/
theorem row_span (h : LaidOut name instructions final layout) {declared : LocalVariable}
    {row : LocalRow} (hrow : RowFor (offsetOf name layout.labels) declared row) :
    ∃ start stop, declared.span instructions = (some (start, stop), row.index) ∧
      (layout.places instructions)[start]? = some row.start.toNat ∧
      (layout.places instructions)[stop]? = some (row.start.toNat + row.length.toNat) := by
  obtain ⟨start, stop, hstart, hstop, hrowStart, hrowStop⟩ := rowFor_range h.mapped hrow
  obtain ⟨a, ha, hplace⟩ := h.offset_eq_ok.1 hstart
  obtain ⟨b, hb, hplace'⟩ := h.offset_eq_ok.1 hstop
  refine ⟨a, max a b, ?_, by rw [hrowStart, hplace], by rw [hrowStop, h.place_max hplace hplace']⟩
  rw [LocalVariable.span_eq ha hb]
  obtain ⟨-, -, -, -, rfl⟩ := hrow
  rfl

/-- Two variables share the key of their rows exactly if they share range and slot. -/
theorem rowKey_eq_iff (h : LaidOut name instructions final layout) {v w : LocalVariable}
    {row row' : LocalRow} (hrow : RowFor (offsetOf name layout.labels) v row)
    (hrow' : RowFor (offsetOf name layout.labels) w row') :
    rowKey row = rowKey row' ↔ v.span instructions = w.span instructions := by
  obtain ⟨start, stop, hspan, hstart, hstop⟩ := h.row_span hrow
  obtain ⟨start', stop', hspan', hstart', hstop'⟩ := h.row_span hrow'
  rw [hspan, hspan', rowKey, rowKey]
  constructor
  · intro heq
    obtain ⟨hfirst, hlength, hindex⟩ : row.start = row'.start ∧ row.length = row'.length ∧
        row.index = row'.index := by simpa using heq
    rw [hfirst] at hstart hstop
    rw [hlength] at hstop
    rw [h.place_inj hstart hstart', h.place_inj hstop hstop', hindex]
  · intro heq
    obtain ⟨⟨rfl, rfl⟩, hindex⟩ : (start = start' ∧ stop = stop') ∧ row.index = row'.index := by
      simpa using heq
    rw [hstart] at hstart'
    rw [hstop] at hstop'
    have hfirst : row.start = row'.start := UInt16.toNat_inj.1 (Option.some.inj hstart')
    have hlast := Option.some.inj hstop'
    rw [hfirst] at hlast
    have hlength : row.length = row'.length := UInt16.toNat_inj.1 (Nat.add_left_cancel hlast)
    rw [hfirst, hlength, hindex]

end LaidOut
end Encode
end JvmArchive
