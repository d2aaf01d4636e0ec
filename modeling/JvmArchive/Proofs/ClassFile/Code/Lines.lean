import JvmArchive.Proofs.ClassFile.Attributes
import JvmArchive.Proofs.ClassFile.Code.Stream

/-!
# Handlers and line numbers read back

The handler table keeps every handler whose range is not empty, in order. What attributes of the code tell
is what adding them to the tables one after the other makes of these. The line numbers of a place come back
in the order in which they were written; those at the end of the code are dropped.
-/
namespace JvmArchive.Encode
open PoolBuilder PoolWriter Reader Decode

/-! ## Handlers -/

variable {offset : Label → Except WriteError Nat} {places : List Nat}

/-- Whether the range of a handler is not empty. -/
def covers (offset : Label → Except WriteError Nat) (block : TryCatch) : Bool :=
  match offset block.start, offset block.stop with
  | .ok start, .ok stop => start < stop
  | _, _ => false

/-- A handler that is read: its labels stand where those of the written one do. -/
structure SameHandler (same : Label → Label → Prop) (block back : TryCatch) : Prop where
  start : same block.start back.start
  stop : same block.stop back.stop
  handler : same block.handler back.handler
  catchType : back.catchType = block.catchType

theorem asks_place (hmapped : Mapped offset places) {label : Label} {place : Nat}
    (hplace : offset label = .ok place) :
    Asks places (liftM Reader.uint16 >>= fun word => labelAt (UInt16.toNat word)) (Bytes.ofNat16 place)
      fun table label' => Meets offset table label label' := by
  have hmem := hmapped.mem hplace
  have hword : place.toUInt16.toNat = place := Bytes.toNat_toUInt16 (hmapped.lt place hmem)
  rw [← List.append_nil (Bytes.ofNat16 place)]
  apply asks_read (reads_uint16 place.toUInt16)
  rw [hword]
  apply (asks_labelAt hmem).mono
  intro table label' hlabel
  exact ⟨place, hplace, hlabel⟩

/-- What is written for a handler: nothing, or a row of eight bytes. -/
def ReadsHandler (offset : Label → Except WriteError Nat) (places : List Nat) (block : TryCatch)
    (final : PoolBuilder) (row : Option (List UInt8)) : Prop :=
  match row with
  | none => covers offset block = false
  | some bytes => covers offset block = true ∧ bytes.length = 8 ∧
    (Mapped offset places → Asks places (Decode.tryCatch final.toPool) bytes fun table back =>
      SameHandler (Meets offset table) block back)

theorem yields_handlerRow {block : TryCatch} (h : ∀ text ∈ block.catchType, TextFits text) :
    Yields (handlerRow offset block) (ReadsHandler offset places block) := by
  apply yields_lift_bind
  intro start hstart
  apply yields_lift_bind
  intro stop hstop
  by_cases hempty : stop ≤ start
  · rw [if_pos hempty]
    apply yields_pure
    intro final _
    simp [ReadsHandler, covers, hstart, hstop, hempty]
  · rw [if_neg hempty]
    apply yields_lift_bind
    intro handler hhandler
    apply (yields_optional fun text htext => yields_classIndex (h text htext)).bind_pure
    rintro final _ - ⟨index, rfl, hindex⟩
    refine ⟨?_, by simp, ?_⟩
    · simp only [covers, hstart, hstop, decide_eq_true_eq]
      omega
    · intro hmapped
      simp only [List.append_assoc]
      unfold Decode.tryCatch
      rw [← bind_assoc]
      apply (asks_place hmapped hstart).bind
      intro start'
      rw [← bind_assoc]
      apply (asks_place hmapped hstop).bind
      intro stop'
      rw [← bind_assoc]
      apply (asks_place hmapped hhandler).bind
      intro handler'
      rw [← List.append_nil (Bytes.ofUInt16 index)]
      apply asks_read (reads_uint16 index)
      apply asks_lift hindex
      apply asks_pure
      intro table hhandler' hstop' hstart'
      exact ⟨hstart', hstop', hhandler', rfl⟩

/-- The rows that are left of the handlers. -/
theorem readsHandlers {final : PoolBuilder} {blocks : List TryCatch}
    {rows : List (Option (List UInt8))}
    (h : List.Forall₂ (fun row block => ReadsHandler offset places block final row) rows blocks)
    (hmapped : Mapped offset places) :
    List.Forall₂ (fun chunk block => chunk.length = 8 ∧
        Asks places (Decode.tryCatch final.toPool) chunk fun table back =>
          SameHandler (Meets offset table) block back)
      (rows.filterMap id) (blocks.filter (covers offset)) := by
  induction h with
  | nil => exact .nil
  | @cons row block rows blocks hrow _ ih =>
    cases row with
    | none =>
      have hcovers : covers offset block = false := hrow
      rw [List.filter_cons, hcovers, List.filterMap_cons]
      exact ih
    | some bytes =>
      obtain ⟨hcovers, hlength, hasks⟩ := hrow
      rw [List.filter_cons, hcovers, List.filterMap_cons]
      exact .cons ⟨hlength, hasks hmapped⟩ ih

variable (offset places) in
/-- The handler table gives the handlers whose range is not empty. -/
theorem yields_handlers {blocks : List TryCatch}
    (h : ∀ block ∈ blocks, ∀ text ∈ block.catchType, TextFits text) :
    Yields (handlers offset blocks) fun final bytes => Mapped offset places →
      (blocks.filter (covers offset)).length < 65536 →
      bytes.length = 2 + 8 * (blocks.filter (covers offset)).length ∧
      Asks places (countedWithLabels (Decode.tryCatch final.toPool)) bytes fun table found =>
        List.Forall₂ (SameHandler (Meets offset table)) (blocks.filter (covers offset)) found := by
  apply (yields_mapM fun block hblock => yields_handlerRow (h block hblock)).bind_pure
  intro final rows _ hrows hmapped hcount
  have hkept := readsHandlers hrows hmapped
  constructor
  · rw [List.length_append, Bytes.length_ofNat16, Bytes.length_flatten_const (hkept.imp fun _ _ h => h.1)]
  · rw [hkept.length_eq]
    exact asks_counted hcount (hkept.imp fun _ _ hchunk => hchunk.2)

/-! ## Line numbers -/

variable {isInstruction : Nat → Bool} {entryLocals : List VerificationType}

/-- Written attributes that change the tables of the code in some way. -/
def Adds (places : List Nat) (isInstruction : Nat → Bool) (entryLocals : List VerificationType)
    (change : LabelTable → CodeTables → CodeTables → Prop) (final : PoolBuilder)
    (written : List Attribute) : Prop :=
  ∃ raws : List RawAttribute, List.Forall₂ (Spells final) written raws ∧
    ∀ tables : CodeTables, Marks places
      (raws.foldlM (addCodeAttribute final.toPool isInstruction entryLocals) tables)
      fun table later => change table tables later

theorem adds_nil (final : PoolBuilder) :
    Adds places isInstruction entryLocals (fun _ before after => after = before) final [] :=
  ⟨[], .nil, fun _ => marks_pure fun _ => rfl⟩

theorem Adds.mono {change change' : LabelTable → CodeTables → CodeTables → Prop} {final : PoolBuilder}
    {written : List Attribute} (h : Adds places isInstruction entryLocals change final written)
    (himp : ∀ table before after, change table before after → change' table before after) :
    Adds places isInstruction entryLocals change' final written := by
  obtain ⟨raws, hspells, hadd⟩ := h
  exact ⟨raws, hspells, fun tables => (hadd tables).mono fun table later => himp table tables later⟩

theorem Adds.append {change change' : LabelTable → CodeTables → CodeTables → Prop}
    {final : PoolBuilder} {written written' : List Attribute}
    (h : Adds places isInstruction entryLocals change final written)
    (h' : Adds places isInstruction entryLocals change' final written') :
    Adds places isInstruction entryLocals
      (fun table before after => ∃ middle, change table before middle ∧ change' table middle after)
      final (written ++ written') := by
  obtain ⟨raws, hspells, hadd⟩ := h
  obtain ⟨raws', hspells', hadd'⟩ := h'
  refine ⟨raws ++ raws', List.rel_append hspells hspells', ?_⟩
  intro tables
  rw [List.foldlM_append]
  apply (hadd tables).bind
  intro middle
  apply (hadd' middle).mono
  intro table after hafter hmiddle
  exact ⟨middle, hmiddle, hafter⟩

/-- One attribute. -/
theorem adds_one {change : LabelTable → CodeTables → CodeTables → Prop} {final : PoolBuilder}
    {written : Attribute} {raw : RawAttribute} (hspells : Spells final written raw)
    (h : ∀ tables, Marks places (addCodeAttribute final.toPool isInstruction entryLocals tables raw)
      fun table later => change table tables later) :
    Adds places isInstruction entryLocals change final [written] := by
  refine ⟨[raw], .cons hspells .nil, ?_⟩
  intro tables
  have hone : [raw].foldlM (addCodeAttribute final.toPool isInstruction entryLocals) tables =
      addCodeAttribute final.toPool isInstruction entryLocals tables raw >>= pure := rfl
  rw [hone, bind_pure]
  exact h tables

/-- The lines at a place, in the order in which they are listed. -/
def numbersAt (lines : List (Nat × UInt16)) (place : Nat) : List UInt16 :=
  (lines.filter fun line => line.1 = place).map (·.2)

/-- Lines are put to the table of lines, and the places of those at instructions get labels. -/
structure AddsLines (isInstruction : Nat → Bool) (rows : List (Nat × UInt16)) (table : LabelTable)
    (before after : CodeTables) : Prop where
  same : after = { before with lines := after.lines }
  lines : ∀ place, after.lines.getD place [] =
    (if isInstruction place then (numbersAt rows place).reverse else []) ++ before.lines.getD place []
  labelled : ∀ row ∈ rows, isInstruction row.1 = true → (table.label? row.1).isSome

/-- Puts the lines that are kept to a table. -/
def putLines (rows : List (Option (Nat × UInt16))) (lines : Std.HashMap Nat (List UInt16)) :
    Std.HashMap Nat (List UInt16) :=
  rows.foldl (fun lines row =>
    match row with
    | some (start, line) => lines.insert start (line :: lines.getD start [])
    | none => lines) lines

theorem getD_putLines (isInstruction : Nat → Bool) (lines : List (Nat × UInt16))
    (before : Std.HashMap Nat (List UInt16)) (place : Nat) :
    (putLines (lines.map fun line => if isInstruction line.1 then some line else none) before).getD
        place [] =
      (if isInstruction place then (numbersAt lines place).reverse else []) ++ before.getD place [] := by
  induction lines generalizing before with
  | nil => simp [putLines, numbersAt]
  | cons line lines ih =>
    obtain ⟨start, number⟩ := line
    cases hstart : isInstruction start with
    | false =>
      have hskip : putLines (((start, number) :: lines).map fun line =>
          if isInstruction line.1 then some line else none) before =
            putLines (lines.map fun line => if isInstruction line.1 then some line else none)
              before := by
        simp [putLines, hstart]
      rw [hskip, ih]
      by_cases hplace : start = place
      · subst hplace
        simp [hstart]
      · simp [numbersAt, hplace]
    | true =>
      have hput : putLines (((start, number) :: lines).map fun line =>
          if isInstruction line.1 then some line else none) before =
            putLines (lines.map fun line => if isInstruction line.1 then some line else none)
              (before.insert start (number :: before.getD start [])) := by
        simp [putLines, hstart]
      rw [hput, ih, Std.HashMap.getD_insert]
      by_cases hplace : start = place
      · subst hplace
        simp [numbersAt, hstart]
      · simp [numbersAt, hplace]

/-- Line rows are read as the lines that stand at instructions. -/
theorem asks_lineNumber {line : Nat × UInt16} (hlt : line.1 < 65536)
    (hplace : isInstruction line.1 = true → line.1 ∈ places) :
    Asks places (Decode.lineNumber isInstruction) (Bytes.ofNat16 line.1 ++ Bytes.ofUInt16 line.2)
      fun table found => found = (if isInstruction line.1 then some line else none) ∧
        (isInstruction line.1 = true → (table.label? line.1).isSome) := by
  obtain ⟨start, number⟩ := line
  have hword : start.toUInt16.toNat = start := Bytes.toNat_toUInt16 hlt
  unfold Decode.lineNumber
  apply asks_read (reads_uint16 start.toUInt16)
  rw [← List.append_nil (Bytes.ofUInt16 number)]
  apply asks_read (reads_uint16 number)
  rw [hword]
  cases hstart : isInstruction start with
  | false => exact asks_pure fun _ => ⟨rfl, nofun⟩
  | true =>
    apply (asks_labelAt (hplace hstart)).bind_pure
    intro table label hlabel
    refine ⟨rfl, fun _ => ?_⟩
    simp only [hlabel, Option.isSome_some]

theorem asks_lineNumbers {lines : List (Nat × UInt16)} (hcount : lines.length < 65536)
    (hlt : ∀ line ∈ lines, line.1 < 65536)
    (hplace : ∀ line ∈ lines, isInstruction line.1 = true → line.1 ∈ places) :
    Asks places (countedWithLabels (Decode.lineNumber isInstruction))
      (Bytes.ofNat16 lines.length ++
        lines.flatMap fun (start, line) => Bytes.ofNat16 start ++ Bytes.ofUInt16 line)
      fun table found =>
        found = (lines.map fun line => if isInstruction line.1 then some line else none) ∧
          ∀ line ∈ lines, isInstruction line.1 = true → (table.label? line.1).isSome := by
  have hrows : List.Forall₂ (fun chunk line => Asks places (Decode.lineNumber isInstruction) chunk
      fun table found => found = (if isInstruction line.1 then some line else none) ∧
        (isInstruction line.1 = true → (table.label? line.1).isSome))
      (lines.map fun line => Bytes.ofNat16 line.1 ++ Bytes.ofUInt16 line.2) lines := by
    rw [List.forall₂_map_left_iff, List.forall₂_same]
    intro line hline
    exact asks_lineNumber (hlt line hline) (hplace line hline)
  rw [List.flatMap_def]
  apply (asks_counted hcount hrows).mono
  intro table found hfound
  constructor
  · have hequal := hfound.imp fun _ _ h => h.1
    clear hfound hrows hplace hlt hcount
    induction hequal with
    | nil => rfl
    | cons hrow _ ih => rw [List.map_cons, hrow, ih]
  · intro line hline
    clear hrows hplace hlt hcount
    induction hfound with
    | nil => cases hline
    | cons hrow _ ih =>
      rcases List.mem_cons.1 hline with rfl | hmem
      · exact hrow.2
      · exact ih hmem

variable (places isInstruction entryLocals) in
/-- The line numbers are put to the tables. -/
theorem yields_lineNumbers (lines : List (Nat × UInt16)) :
    Yields (lineNumbers lines) fun final written =>
      written.length ≤ 1 ∧ (written.flatMap Attribute.bytes).length ≤ 8 + 4 * lines.length ∧
      (lines.length < 65536 → (∀ line ∈ lines, line.1 < 65536) →
        (∀ line ∈ lines, isInstruction line.1 = true → line.1 ∈ places) →
        Adds places isInstruction entryLocals (AddsLines isInstruction lines) final written) := by
  unfold lineNumbers
  cases lines with
  | nil =>
    apply yields_pure
    intro final _
    refine ⟨by simp, by simp, fun _ _ _ => (adds_nil final).mono ?_⟩
    rintro table before after rfl
    exact ⟨rfl, by simp [numbersAt], by simp⟩
  | cons line lines =>
    generalize hall : line :: lines = all at *
    have hne : all.isEmpty = false := by rw [← hall]; rfl
    simp only [hne, Bool.false_eq_true, if_false]
    apply (yields_named (by decide) _).bind_pure
    intro final written _ hspells
    refine ⟨by simp, ?_, ?_⟩
    · have hrows : (all.flatMap fun line => Bytes.ofNat16 line.1 ++ Bytes.ofUInt16 line.2).length =
          4 * all.length := by
        rw [List.flatMap_def]
        apply Bytes.length_flatten_const
        rw [List.forall₂_map_left_iff, List.forall₂_same]
        exact fun _ _ => rfl
      rw [List.flatMap_singleton, Attribute.bytes, List.length_append, List.length_append, hspells.2,
        List.length_append, hrows]
      simp
      omega
    · intro hcount hlt hplace
      apply adds_one hspells
      intro tables
      apply (asks_lineNumbers hcount hlt hplace).onBytes.bind
      intro rows
      apply marks_pure
      rintro table ⟨rfl, hlabelled⟩
      exact ⟨rfl, getD_putLines isInstruction all tables.lines, hlabelled⟩

end JvmArchive.Encode
