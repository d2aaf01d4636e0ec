import JvmArchive.ClassFile.Decode.Code
import JvmArchive.Proofs.ClassFile.Code.Labels
import JvmArchive.Proofs.ClassFile.Code.Places

/-!
# Labels put into code

Once everything is decoded, labels, lines and frames are put before the instructions at whose offsets
they stand. A label then has the place of its offset among the offsets of the instructions.
-/
namespace JvmArchive

namespace Instruction

theorem real_append (xs ys : List Instruction) : real (xs ++ ys) = real xs ++ real ys :=
  List.filter_append xs ys

theorem lines_append (xs ys : List Instruction) : lines (xs ++ ys) = lines xs ++ lines ys :=
  List.filterMap_append

/-- A label that stands in the second part has its place counted behind the first. -/
theorem placeOf_append (xs ys : List Instruction) (label : Label) :
    placeOf (xs ++ ys) label =
      ((placeOf ys label).map (· + (real xs).length)).or (placeOf xs label) := by
  induction xs with
  | nil => cases h : placeOf ys label <;> simp [real, placeOf, h]
  | cons x xs ih =>
    cases hx : x.isPseudo with
    | false =>
      rw [List.cons_append, placeOf_real hx, placeOf_real hx, ih]
      have hlength : (real (x :: xs)).length = (real xs).length + 1 := by simp [real, hx]
      rw [hlength]
      cases placeOf ys label <;> simp [Nat.add_assoc]
    | true =>
      have hlength : real (x :: xs) = real xs := by simp [real, hx]
      rw [hlength]
      by_cases hlabel : ∃ other, x = .label other
      · obtain ⟨other, rfl⟩ := hlabel
        rw [List.cons_append, placeOf_label, placeOf_label, ih, Option.or_assoc]
      · have hne : ∀ other, x ≠ .label other := fun other heq => hlabel ⟨other, heq⟩
        rw [List.cons_append, placeOf_pseudo hx hne, placeOf_pseudo hx hne, ih]

end Instruction

namespace Decode
open Instruction

variable {table : LabelTable} {tables : CodeTables} {decoded : List (Nat × Instruction)}

theorem real_placedAt (table : LabelTable) (tables : CodeTables) (offset : Nat) :
    real (placedAt table tables offset) = [] := by
  unfold placedAt
  cases table.label? offset <;> simp [real, isPseudo, List.filter_eq_nil_iff]

theorem placeOf_frames (frames : List StackFrame) (label : Label) :
    placeOf (frames.map .frame) label = none := by
  induction frames with
  | nil => rfl
  | cons frame frames ih => exact ih

theorem placeOf_lines (numbers : List UInt16) (start label : Label) :
    placeOf (numbers.map fun number => .line number start) label = none := by
  induction numbers with
  | nil => rfl
  | cons number numbers ih => exact ih

/-- Before an instruction stands the label of its offset. -/
theorem placeOf_placedAt (table : LabelTable) (tables : CodeTables) (offset : Nat) (label : Label) :
    placeOf (placedAt table tables offset) label =
      if table.label? offset = some label then some 0 else none := by
  unfold placedAt
  cases hlabel : table.label? offset with
  | none =>
    simp only [reduceCtorEq, if_false]
    exact placeOf_frames _ label
  | some other =>
    simp only [List.cons_append, placeOf_label, placeOf_append, placeOf_frames, placeOf_lines,
      Option.map_none, Option.or_none, Option.none_or, Option.some.injEq]

theorem placeAll_cons (table : LabelTable) (tables : CodeTables) (offset : Nat)
    (instruction : Instruction) (rest : List (Nat × Instruction)) :
    placeAll table tables ((offset, instruction) :: rest) =
      placedAt table tables offset ++ instruction :: placeAll table tables rest := by
  simp [placeAll]

theorem real_placeAll (hreal : ∀ item ∈ decoded, item.2.isPseudo = false) :
    real (placeAll table tables decoded) = decoded.map (·.2) := by
  induction decoded with
  | nil => cases hlabel : table.label? table.codeLength <;> simp [placeAll, hlabel, real, isPseudo]
  | cons item rest ih =>
    obtain ⟨offset, instruction⟩ := item
    have hfirst : instruction.isPseudo = false := hreal _ List.mem_cons_self
    have hrest := ih fun item hitem => hreal item (List.mem_cons_of_mem _ hitem)
    rw [placeAll_cons, real_append, real_placedAt, List.nil_append, List.map_cons, ← hrest]
    simp [real, hfirst]

/-- The offsets before which something can be put. -/
def offsets (table : LabelTable) (decoded : List (Nat × Instruction)) : List Nat :=
  decoded.map (·.1) ++ [table.codeLength]

theorem countLabels_append (xs ys : List Instruction) :
    countLabels (xs ++ ys) = countLabels xs + countLabels ys := List.countP_append

theorem countLabels_placedAt (table : LabelTable) (tables : CodeTables) (offset : Nat) :
    countLabels (placedAt table tables offset) = if (table.label? offset).isSome then 1 else 0 := by
  unfold placedAt countLabels
  cases table.label? offset <;> simp [List.countP_eq_zero]

/-- There is a label for every offset that has one. -/
theorem countLabels_placeAll (hreal : ∀ item ∈ decoded, item.2.isPseudo = false) :
    countLabels (placeAll table tables decoded) =
      (offsets table decoded).countP fun offset => (table.label? offset).isSome := by
  induction decoded with
  | nil =>
    cases hlabel : table.label? table.codeLength <;> simp [placeAll, offsets, hlabel, countLabels]
  | cons item rest ih =>
    obtain ⟨offset, instruction⟩ := item
    have hfirst : instruction.isPseudo = false := hreal _ List.mem_cons_self
    have hrest := ih fun item hitem => hreal item (List.mem_cons_of_mem _ hitem)
    have hskip : countLabels (instruction :: placeAll table tables rest) =
        countLabels (placeAll table tables rest) := by
      cases instruction <;> first | cases hfirst; done | rfl
    have hoffsets : offsets table ((offset, instruction) :: rest) = offset :: offsets table rest := rfl
    rw [placeAll_cons, countLabels_append, countLabels_placedAt, hskip, hrest, hoffsets,
      List.countP_cons, Nat.add_comm]

theorem placeOf_placeAll_cons {offset : Nat} {instruction : Instruction}
    {rest : List (Nat × Instruction)} (hreal : instruction.isPseudo = false) (label : Label) :
    placeOf (placeAll table tables ((offset, instruction) :: rest)) label =
      ((placeOf (placeAll table tables rest) label).map (· + 1)).or
        (if table.label? offset = some label then some 0 else none) := by
  have hzero : (fun place => place + ([] : List Instruction).length) = id := rfl
  rw [placeAll_cons, placeOf_append, placeOf_placedAt, real_placedAt, placeOf_real hreal, hzero,
    Option.map_id, id]

/-- A label that no offset has is not in the list. -/
theorem placeOf_placeAll_none {label : Label} (hreal : ∀ item ∈ decoded, item.2.isPseudo = false)
    (hnone : ∀ offset ∈ offsets table decoded, table.label? offset ≠ some label) :
    placeOf (placeAll table tables decoded) label = none := by
  induction decoded with
  | nil =>
    have hend := hnone table.codeLength (by simp [offsets])
    cases hlabel : table.label? table.codeLength with
    | none => simp [placeAll, hlabel, placeOf]
    | some other =>
      rw [hlabel] at hend
      simpa [placeAll, hlabel, placeOf] using hend
  | cons item rest ih =>
    obtain ⟨offset, instruction⟩ := item
    have hrest := ih (fun item hitem => hreal item (List.mem_cons_of_mem _ hitem))
      fun other hother => hnone other (List.mem_cons_of_mem _ hother)
    rw [placeOf_placeAll_cons (hreal _ List.mem_cons_self), hrest, Option.map_none, Option.none_or,
      if_neg (hnone offset List.mem_cons_self)]

/-- A label has the place of its offset. -/
theorem placeOf_placeAll (tables : CodeTables) {places : List Nat} (hsound : table.Sound places)
    (hreal : ∀ item ∈ decoded, item.2.isPseudo = false) (hnodup : (offsets table decoded).Nodup)
    {place offset : Nat} {label : Label} (hplace : (offsets table decoded)[place]? = some offset)
    (hlabel : table.label? offset = some label) :
    placeOf (placeAll table tables decoded) label = some place := by
  induction decoded generalizing place with
  | nil =>
    have hzero : place = 0 ∧ table.codeLength = offset := by
      simpa [offsets, List.getElem?_cons] using hplace
    obtain ⟨rfl, rfl⟩ := hzero
    simp [placeAll, hlabel, placeOf]
  | cons item rest ih =>
    obtain ⟨first, instruction⟩ := item
    have hrest : ∀ item ∈ rest, item.2.isPseudo = false :=
      fun item hitem => hreal item (List.mem_cons_of_mem _ hitem)
    obtain ⟨hfirst, hnodup⟩ := List.nodup_cons.1 hnodup
    rw [placeOf_placeAll_cons (hreal _ List.mem_cons_self)]
    cases place with
    | zero =>
      cases hplace
      rw [placeOf_placeAll_none hrest, if_pos hlabel]
      · rfl
      · intro other hother heq
        rw [hsound.injective hlabel heq] at hfirst
        exact hfirst hother
    | succ place => rw [ih hrest hnodup hplace, Option.map_some, Option.some_or]

/-- The lines before an offset, if it has a label. -/
def linesBefore (table : LabelTable) (tables : CodeTables) (offset : Nat) : List (Label × UInt16) :=
  match table.label? offset with
  | none => []
  | some place => (tables.lines.getD offset []).reverse.map fun line => (place, line)

theorem lines_placedAt (table : LabelTable) (tables : CodeTables) (offset : Nat) :
    lines (placedAt table tables offset) = linesBefore table tables offset := by
  unfold placedAt linesBefore
  cases table.label? offset with
  | none => simp [lines]
  | some label =>
    simp [lines, List.filterMap_map]

theorem lines_placeAll (hreal : ∀ item ∈ decoded, item.2.isPseudo = false) :
    lines (placeAll table tables decoded) =
      (decoded.map (·.1)).flatMap (linesBefore table tables) := by
  induction decoded with
  | nil => cases hlabel : table.label? table.codeLength <;> simp [placeAll, hlabel, lines]
  | cons item rest ih =>
    obtain ⟨offset, instruction⟩ := item
    have hfirst : instruction.isPseudo = false := hreal _ List.mem_cons_self
    have hskip : lines (instruction :: placeAll table tables rest) =
        lines (placeAll table tables rest) := by
      cases instruction <;> first | cases hfirst; done | rfl
    rw [placeAll_cons, lines_append, lines_placedAt, hskip,
      ih fun item hitem => hreal item (List.mem_cons_of_mem _ hitem)]
    rfl

/-- Of distinct items only one is the wanted one. -/
theorem flatMap_only {α β : Type} [DecidableEq α] {items : List α} (hnodup : items.Nodup)
    {f : α → List β} (wanted : α) (hother : ∀ item ∈ items, item ≠ wanted → f item = []) :
    items.flatMap f = if wanted ∈ items then f wanted else [] := by
  induction items with
  | nil => rfl
  | cons item items ih =>
    obtain ⟨hfirst, hnodup⟩ := List.nodup_cons.1 hnodup
    rw [List.flatMap_cons, ih hnodup fun other hmem => hother other (List.mem_cons_of_mem _ hmem)]
    by_cases heq : item = wanted
    · subst heq
      simp [hfirst]
    · rw [hother item List.mem_cons_self heq, List.nil_append]
      simp [Ne.symm heq]

/-- The lines at a place are those of its offset; at the end of the code there are none. -/
theorem linesAt_placeAll {places : List Nat} (hsound : table.Sound places)
    (hreal : ∀ item ∈ decoded, item.2.isPseudo = false) (hnodup : (offsets table decoded).Nodup)
    (hlabelled : ∀ offset ∈ decoded.map (·.1), tables.lines.getD offset [] ≠ [] →
      (table.label? offset).isSome) {place offset : Nat}
    (hplace : (offsets table decoded)[place]? = some offset) :
    linesAt (placeAll table tables decoded) place =
      if offset ∈ decoded.map (·.1) then (tables.lines.getD offset []).reverse else [] := by
  have hstarts : (decoded.map (·.1)).Nodup := (List.nodup_append.1 hnodup).1
  -- Of the lines before an offset all have its place.
  have hbefore : ∀ other ∈ decoded.map (·.1),
      ((linesBefore table tables other).filter fun line =>
        placeOf (placeAll table tables decoded) line.1 = some place).map (·.2) =
      if other = offset then (tables.lines.getD other []).reverse else [] := by
    intro other hother
    obtain ⟨k, hk⟩ := List.getElem?_of_mem (List.mem_append_left [table.codeLength] hother)
    unfold linesBefore
    cases hlabel : table.label? other with
    | none =>
      by_cases heq : other = offset
      · subst heq
        have hempty : tables.lines.getD other [] = [] := by
          by_contra hne
          have hsome := hlabelled other hother hne
          rw [hlabel] at hsome
          cases hsome
        simp [hempty]
      · simp [heq]
    | some label =>
      have hfound := placeOf_placeAll tables hsound hreal hnodup hk hlabel
      rw [List.filter_map, List.map_map]
      simp only [Function.comp_def, hfound, Option.some.injEq]
      have hsame : k = place ↔ other = offset := by
        constructor
        · rintro rfl
          rw [offsets, hk] at hplace
          exact Option.some.inj hplace
        · rintro rfl
          exact (List.getElem?_inj (List.getElem?_eq_some_iff.1 hk).1 hnodup).1 (hk.trans hplace.symm)
      by_cases heq : other = offset
      · simp [heq, hsame.2 heq]
      · simp [heq, mt hsame.1 heq]
  rw [linesAt, lines_placeAll hreal, List.filter_flatMap, List.map_flatMap,
    flatMap_only hstarts offset]
  · split
    next hmem => rw [hbefore offset hmem, if_pos rfl]
    next => rfl
  · intro other hother hne
    rw [hbefore other hother, if_neg hne]

end Decode
end JvmArchive
