import JvmArchive.ClassFile.Decode.Class
import JvmArchive.Proofs.ClassFile.Code.Placed
import JvmArchive.Proofs.ClassFile.Code.Referenced
import Mathlib.Data.List.Nodup
import Mathlib.Data.List.Perm.Subperm

/-!
# Code that places its labels

In a method that has been read every label that anything refers to stands at one place among the
instructions. While the code is read labels are made for whatever offset is named, so this rests on the
comparison at the end: as many labels are placed as have been made, and only offsets of instructions and
the end of the code get any.
-/
namespace JvmArchive

namespace Instruction

/-- The label that an entry places. -/
def placed? : Instruction → Option Label
  | .label place => some place
  | _ => none

/-- The labels that a list places, in order. -/
def placed (instructions : List Instruction) : List Label := instructions.filterMap placed?

theorem placed_append (xs ys : List Instruction) : placed (xs ++ ys) = placed xs ++ placed ys :=
  List.filterMap_append

theorem placed?_of_real {instruction : Instruction} (h : instruction.isPseudo = false) :
    instruction.placed? = none := by
  cases instruction <;> first | rfl | cases h

end Instruction
open Instruction

/-- The labels that the code of a method refers to: those of jumps, switches, lines and frames, of
handlers and of local variables. -/
def MethodNode.references (method : MethodNode) : List Label :=
  method.instructions.flatMap Instruction.references ++
    (method.tryCatches.flatMap TryCatch.labels ++ method.localVariables.flatMap LocalVariable.labels)

/-- A method whose labels stand where they are needed. -/
structure MethodNode.LabelClosed (method : MethodNode) : Prop where
  once : ∀ label ∈ method.references, (placed method.instructions).count label = 1
  distinct : (placed method.instructions).Nodup
  fresh : ⟨method.nextLabel⟩ ∉ placed method.instructions ++ method.references

/-! ## The label handed out next -/

namespace CodeList

theorem nextLabel_ofList (instructions : List Instruction) :
    (ofList instructions).nextLabel = instructions.foldl labelAfter 0 := rfl

theorem le_labelAfter (next : UInt32) (instruction : Instruction) :
    next ≤ labelAfter next instruction := by
  cases instruction with
  | label place =>
    change next ≤ if next ≤ place.number + 1 then place.number + 1 else next
    split
    next hle => exact hle
    next => exact UInt32.le_refl next
  | _ => exact UInt32.le_refl next

/-- A label that can be counted beyond lies before the next one once it is placed. -/
theorem lt_labelAfter (next : UInt32) {label : Label} (h : label.number.toNat + 1 < 4294967296) :
    label.number < labelAfter next (.label label) := by
  have hlt : label.number < label.number + 1 := by
    rw [UInt32.lt_iff_toNat_lt, UInt32.toNat_add]
    simp only [UInt32.reduceToNat]
    omega
  change label.number < if next ≤ label.number + 1 then label.number + 1 else next
  split
  next => exact hlt
  next hle => exact UInt32.lt_trans hlt (UInt32.not_le.1 hle)

theorem le_foldl_labelAfter (instructions : List Instruction) (next : UInt32) :
    next ≤ instructions.foldl labelAfter next := by
  induction instructions generalizing next with
  | nil => exact UInt32.le_refl next
  | cons instruction rest ih => exact UInt32.le_trans (le_labelAfter next instruction) (ih _)

theorem lt_foldl_labelAfter {instructions : List Instruction} {label : Label} (next : UInt32)
    (h : label ∈ placed instructions) (hnumber : label.number.toNat + 1 < 4294967296) :
    label.number < instructions.foldl labelAfter next := by
  induction instructions generalizing next with
  | nil => cases h
  | cons instruction rest ih =>
    cases hplaced : instruction.placed? with
    | none =>
      rw [placed, List.filterMap_cons_none hplaced] at h
      exact ih _ h
    | some other =>
      rw [placed, List.filterMap_cons_some hplaced] at h
      rcases List.mem_cons.1 h with rfl | hrest
      · have hlabel : instruction = .label label := by
          cases instruction <;> cases hplaced
          rfl
        rw [hlabel, List.foldl_cons]
        exact UInt32.lt_of_lt_of_le (lt_labelAfter next hnumber) (le_foldl_labelAfter rest _)
      · exact ih _ hrest

end CodeList

namespace Decode
open Reader LabelTable

variable {pool : ConstantPool} {table : LabelTable} {tables : CodeTables}
  {decoded : List (Nat × Instruction)}

/-! ## Labels at their offsets -/

theorem placed_placedAt (table : LabelTable) (tables : CodeTables) (offset : Nat) :
    placed (placedAt table tables offset) = (table.label? offset).toList := by
  unfold placedAt placed
  cases table.label? offset <;> simp [List.filterMap_append, placed?]

/-- The labels that are placed are those of the offsets, in order. -/
theorem placed_placeAll (h : ∀ item ∈ decoded, item.2.isPseudo = false) :
    placed (placeAll table tables decoded) = (offsets table decoded).filterMap table.label? := by
  induction decoded with
  | nil =>
    cases hlabel : table.label? table.codeLength <;>
      simp [placeAll, offsets, hlabel, placed, placed?]
  | cons item rest ih =>
    obtain ⟨offset, instruction⟩ := item
    have hnone := placed?_of_real (h _ List.mem_cons_self)
    have hrest := ih fun item hitem => h item (List.mem_cons_of_mem _ hitem)
    have hoffsets : offsets table ((offset, instruction) :: rest) = offset :: offsets table rest := rfl
    have hskip : placed (instruction :: placeAll table tables rest) =
        placed (placeAll table tables rest) := List.filterMap_cons_none hnone
    rw [placeAll_cons, placed_append, placed_placedAt, hskip, hrest, hoffsets]
    cases hlabel : table.label? offset <;> simp [hlabel]

theorem Decoded.nodup_offsets (h : Decoded table table.codeLength decoded) :
    (offsets table decoded).Nodup := by
  have hascends : (offsets table decoded).Pairwise (· < ·) := by
    refine List.pairwise_append.2 ⟨h.ascends, List.pairwise_singleton _ _, ?_⟩
    intro place hplace stop hstop
    obtain ⟨item, hitem, rfl⟩ := List.mem_map.1 hplace
    rw [List.mem_singleton.1 hstop]
    exact h.before item hitem
  exact hascends.imp Nat.ne_of_lt

/-- If as many labels are placed as there are, each of them is. -/
theorem mem_placed_of_has (hregular : table.Regular) (h : Decoded table table.codeLength decoded)
    (hcount : countLabels (placeAll table tables decoded) = table.labels.size) {label : Label}
    (hlabel : table.Has label) : label ∈ placed (placeAll table tables decoded) := by
  have hreal : ∀ item ∈ decoded, item.2.isPseudo = false := fun item hitem => (h.aims item hitem).real
  obtain ⟨offset, hoffset⟩ := hlabel
  let used : Nat → Bool := fun offset => (table.label? offset).isSome
  have hsubset : (offsets table decoded).filter used ⊆
      (List.range (table.codeLength + 1)).filter used := by
    intro place hplace
    rw [List.mem_filter] at hplace ⊢
    obtain ⟨other, hother⟩ := Option.isSome_iff_exists.1 hplace.2
    exact ⟨hregular.mem hother, hplace.2⟩
  have hsame : ((List.range (table.codeLength + 1)).filter used).length ≤
      ((offsets table decoded).filter used).length := by
    refine Nat.le_of_eq ?_
    rw [← List.countP_eq_length_filter, ← List.countP_eq_length_filter, hregular.countP_eq_size,
      ← hcount, countLabels_placeAll hreal]
  have hperm := (List.subperm_of_subset (h.nodup_offsets.filter _) hsubset).perm_of_length_le hsame
  have hmem : offset ∈ (offsets table decoded).filter used :=
    hperm.mem_iff.2 (List.mem_filter.2 ⟨hregular.mem hoffset, by simp [used, hoffset]⟩)
  rw [placed_placeAll hreal]
  exact List.mem_filterMap.2 ⟨offset, List.mem_of_mem_filter hmem, hoffset⟩

/-- Whatever is placed between the instructions refers to labels of the table. -/
theorem has_of_mem_references (haims : ∀ item ∈ decoded, Aims table item.2)
    (htables : TablesSited table tables) :
    ∀ label ∈ (placeAll table tables decoded).flatMap Instruction.references, table.Has label := by
  have hplaced : ∀ offset, ∀ label ∈ (placedAt table tables offset).flatMap Instruction.references,
      table.Has label := by
    intro offset label hlabel
    obtain ⟨entry, hentry, hnamed⟩ := List.mem_flatMap.1 hlabel
    have hframe : entry ∈ (tables.frames[offset]?).toList.map Instruction.frame → table.Has label := by
      intro hmem
      obtain ⟨frame, hframe, rfl⟩ := List.mem_map.1 hmem
      exact htables offset frame (Option.mem_toList.1 hframe) label hnamed
    unfold placedAt at hentry
    cases hfound : table.label? offset with
    | none =>
      rw [hfound] at hentry
      exact hframe hentry
    | some place =>
      rw [hfound] at hentry
      rcases List.mem_append.1 hentry with hfirst | hlast
      · rcases List.mem_cons.1 hfirst with rfl | hline
        · cases hnamed
        · obtain ⟨number, -, rfl⟩ := List.mem_map.1 hline
          obtain rfl := List.mem_singleton.1 hnamed
          exact ⟨offset, hfound⟩
      · exact hframe hlast
  intro label hlabel
  induction decoded with
  | nil =>
    cases hend : table.label? table.codeLength with
    | none => simp [placeAll, hend] at hlabel
    | some stop => simp [placeAll, hend, references, targets] at hlabel
  | cons item rest ih =>
    obtain ⟨offset, instruction⟩ := item
    rw [placeAll_cons, List.flatMap_append, List.flatMap_cons] at hlabel
    rcases List.mem_append.1 hlabel with hbefore | hafter
    · exact hplaced offset label hbefore
    · rcases List.mem_append.1 hafter with hhere | hrest
      · obtain ⟨hreal, htargets⟩ := haims _ List.mem_cons_self
        refine htargets label ?_
        cases instruction <;> first | exact hhere | cases hreal
      · exact ih (fun item hitem => haims item (List.mem_cons_of_mem _ hitem)) hrest

/-! ## Reading code -/

/-- What has been read of code, step by step. -/
theorem exists_of_code {owner : String} {method back : MethodNode} {data : List UInt8}
    (h : code pool owner method data = .ok back) :
    ∃ (bytes : List UInt8) (decoded : List (Nat × Instruction)) (cursor later : Cursor)
      (tryCatches : List TryCatch) (raws : List RawAttribute) (tables : CodeTables)
      (found : List LocalVariable) (first second third last : LabelTable)
      (isInstruction isBoundary : Nat → Bool),
      bytes.length + 4 ≤ data.length ∧ instructions pool bytes = .ok (decoded, first) ∧
      countedWithLabels (tryCatch pool) first cursor = .ok ((tryCatches, second), later) ∧
      raws.foldlM (addCodeAttribute pool isInstruction (method.entryLocals owner)) {} second =
        .ok (tables, third) ∧
      localVariables isBoundary tables.locals.reverse tables.signatures [] third =
        .ok (found, last) ∧
      countLabels (placeAll last tables decoded) = last.labels.size ∧
      back.instructions = placeAll last tables decoded ∧ back.tryCatches = tryCatches ∧
      back.localVariables = found ∧ back.upcomingLabel = method.upcomingLabel := by
  obtain ⟨cursor, h⟩ := exists_of_onBytes h
  obtain ⟨maxStack, cursor₁, hstack, h⟩ := Reader.exists_of_bind_run h
  obtain ⟨maxLocals, cursor₂, hlocals, h⟩ := Reader.exists_of_bind_run h
  obtain ⟨length, cursor₃, hlength, h⟩ := Reader.exists_of_bind_run h
  obtain ⟨bytes, cursor₄, hbytes, h⟩ := Reader.exists_of_bind_run h
  obtain ⟨⟨decoded, first⟩, cursor₅, hdecoded, h⟩ := Reader.exists_of_bind_run h
  obtain ⟨⟨tryCatches, second⟩, cursor₆, hhandlers, h⟩ := Reader.exists_of_bind_run h
  obtain ⟨raws, cursor₇, -, h⟩ := Reader.exists_of_bind_run h
  obtain ⟨⟨tables, third⟩, cursor₈, htables, h⟩ := Reader.exists_of_bind_run h
  obtain ⟨⟨found, last⟩, cursor₉, hfound, h⟩ := Reader.exists_of_bind_run h
  have hroom : bytes.length + 4 ≤ data.length := by
    obtain ⟨-, htwo⟩ := advances_uint16 _ _ _ hstack
    obtain ⟨-, hfour⟩ := advances_uint16 _ _ _ hlocals
    obtain ⟨⟨-, height⟩, hoffset⟩ := precedes_of_uint32 hlength
    obtain ⟨⟨-, hwhole⟩, htaken, hoffset'⟩ := precedes_of_take hbytes
    dsimp only at htwo
    omega
  dsimp only at h
  split at h
  · cases h
  · rename_i hcount
    cases h
    exact ⟨bytes, decoded, cursor₅, cursor₆, tryCatches, raws, tables, found, first, second, third,
      last, _, _, hroom, ok_of_lift hdecoded, hhandlers, ok_of_lift htables, ok_of_lift hfound,
      not_not.1 hcount, rfl, rfl, rfl, rfl⟩

/-- Code that has been read places its labels, provided that four bytes can say how long it is. -/
theorem labelClosed_of_code {owner : String} {method back : MethodNode} {data : List UInt8}
    (hdata : data.length < 4294967296) (hnone : method.upcomingLabel = none)
    (h : code pool owner method data = .ok back) : back.LabelClosed := by
  obtain ⟨bytes, decoded, cursor, later, tryCatches, raws, tables, found, first, second, third, last,
    isInstruction, isBoundary, hroom, hinstructions, hhandlers, htables, hfound, hcount, hback, hblocks,
    hvariables, hupcoming⟩ := exists_of_code h
  obtain ⟨hfirst, hlength, hdecoded⟩ := decoded_instructions (by omega) hinstructions
  obtain ⟨hsecond, hextends, -, hcaught⟩ :=
    leaves_counted (leaves_tryCatch pool) _ _ _ _ _ hfirst hhandlers
  obtain ⟨hthird, hextends', hsited⟩ := marked_addCodeAttributes pool isInstruction
    (fun table => sited_entryLocals table owner method) raws {} _ _ _ hsecond htables
  obtain ⟨hlast, hextends'', hdeclared⟩ := marked_localVariables isBoundary _ _ _ _ _ _ hthird hfound
  have hall := hextends.trans (hextends'.trans hextends'')
  have hdecoded' : Decoded last last.codeLength decoded := by
    rw [hall.codeLength, hlength]
    exact hdecoded.of_extends hall
  have hreal : ∀ item ∈ decoded, item.2.isPseudo = false :=
    fun item hitem => (hdecoded'.aims item hitem).real
  -- Whatever is referred to has a label in the last table, which places all its labels.
  have hplaced : ∀ label ∈ back.references, label ∈ placed back.instructions := by
    intro label hlabel
    rw [hback]
    refine mem_placed_of_has hlast hdecoded' hcount ?_
    rcases List.mem_append.1 hlabel with hinside | houtside
    · have hempty : TablesSited last {} := by simp [TablesSited]
      rw [hback] at hinside
      exact has_of_mem_references hdecoded'.aims (hsited last hextends'' hempty) label hinside
    rcases List.mem_append.1 houtside with hblock | hvariable
    · obtain ⟨block, hmem, hnamed⟩ := List.mem_flatMap.1 hblock
      rw [hblocks] at hmem
      exact hcaught last (hextends'.trans hextends'') block hmem label hnamed
    · obtain ⟨declared, hmem, hnamed⟩ := List.mem_flatMap.1 hvariable
      rw [hvariables] at hmem
      exact hdeclared last (.refl last) (by simp) declared hmem label hnamed
  have hdistinct : (placed back.instructions).Nodup := by
    rw [hback, placed_placeAll hreal]
    refine hdecoded'.nodup_offsets.filterMap fun place other label hplace hother => ?_
    exact hlast.injective (Option.mem_def.1 hplace) (Option.mem_def.1 hother)
  have hbelow : ⟨back.nextLabel⟩ ∉ placed back.instructions := by
    intro hmem
    have hmem' := hmem
    rw [hback, placed_placeAll hreal] at hmem'
    obtain ⟨offset, -, hoffset⟩ := List.mem_filterMap.1 hmem'
    have hnumber := hlast.number_lt hoffset
    have hsize := hlast.size_le
    rw [List.length_range, hall.codeLength, hlength] at hsize
    have hlt := CodeList.lt_foldl_labelAfter 0 hmem (by omega)
    have hnext : back.nextLabel = back.instructions.foldl CodeList.labelAfter 0 := by
      rw [MethodNode.nextLabel, hupcoming, hnone, Option.getD_none, CodeList.nextLabel_ofList]
    rw [← hnext] at hlt
    exact UInt32.lt_irrefl _ hlt
  refine ⟨fun label hlabel => List.count_eq_one_of_mem hdistinct (hplaced label hlabel), hdistinct, ?_⟩
  rw [List.mem_append, not_or]
  exact ⟨hbelow, fun hmem => hbelow (hplaced _ hmem)⟩

/-! ## Reading methods -/

/-- What the code of a method says about labels. -/
def labelled (method : MethodNode) :
    List Instruction × List TryCatch × List LocalVariable × Option UInt32 :=
  (method.instructions, method.tryCatches, method.localVariables, method.upcomingLabel)

/-- No attribute but the code says anything about labels. -/
theorem labelled_addMethodAttribute {method back : MethodNode} {raw : RawAttribute}
    (h : addMethodAttribute pool method raw = .ok back) : labelled back = labelled method := by
  have hread : ∀ {α : Type} {result : Except FormatError α} {change : α → MethodNode},
      (result >>= fun a => Except.ok (change a)) = .ok back →
        (∀ a, labelled (change a) = labelled method) → labelled back = labelled method := by
    intro α result change h hchange
    obtain ⟨a, -, h⟩ := exists_of_bind_ok h
    cases h
    exact hchange a
  unfold addMethodAttribute at h
  split at h
  · cases h
    rfl
  · exact hread h fun _ => rfl
  · obtain ⟨index, -, h⟩ := exists_of_bind_ok h
    exact hread h fun _ => rfl
  · exact hread h fun _ => rfl
  · exact hread h fun _ => rfl
  · exact hread h fun _ => rfl
  · exact hread h fun _ => rfl
  · exact hread h fun _ => rfl
  · exact hread h fun _ => rfl
  · cases h
    rfl

theorem labelled_addMethodAttributes {method back : MethodNode} {raws : List RawAttribute}
    (h : raws.foldlM (addMethodAttribute pool) method = .ok back) :
    labelled back = labelled method := by
  induction raws generalizing method with
  | nil =>
    cases h
    rfl
  | cons raw raws ih =>
    rw [List.foldlM_cons] at h
    obtain ⟨middle, hfirst, hrest⟩ := exists_of_bind_ok h
    exact (ih hrest).trans (labelled_addMethodAttribute hfirst)

theorem labelClosed_of_method {owner : String} {pending : PendingMember} {back : MethodNode}
    (hdata : ∀ raw ∈ pending.attributes, raw.data.length < 4294967296)
    (h : method pool owner pending = .ok back) : back.LabelClosed := by
  obtain ⟨shell, hshell, h⟩ := exists_of_bind_ok h
  obtain ⟨hinstructions, hblocks, hvariables, hupcoming⟩ : shell.instructions = [] ∧
      shell.tryCatches = [] ∧ shell.localVariables = [] ∧ shell.upcomingLabel = none := by
    have hsame := labelled_addMethodAttributes hshell
    simpa [labelled] using hsame
  split at h
  next raw hraw =>
    refine labelClosed_of_code (hdata raw ?_) hupcoming h
    exact List.mem_of_mem_filter (List.mem_of_getLast? hraw)
  next =>
    cases h
    have hnone : back.references = [] := by
      simp [MethodNode.references, hinstructions, hblocks, hvariables]
    constructor <;> simp [hnone, hinstructions, placed]

end Decode

/-! ## Reading classes -/

namespace Decode
open Reader

variable {pool : ConstantPool}

/-- An attribute that is read is no longer than four bytes can say. -/
theorem gives_rawAttribute (pool : ConstantPool) :
    Gives (rawAttribute pool) fun raw => raw.data.length < 4294967296 := by
  refine gives_bind fun _ => gives_bind fun _ => gives_bind fun length => ?_
  have htake : Gives (take length.toNat) fun data => data.length < 4294967296 := by
    intro cursor later data h
    rw [(precedes_of_take h).2.1]
    exact length.toNat_lt
  exact htake.bind fun data hdata => gives_pure hdata

theorem gives_times {α : Type} {reader : Reader α} {property : α → Prop} (h : Gives reader property)
    (n : Nat) : Gives (times n reader) fun items => ∀ item ∈ items, property item := by
  induction n with
  | zero => exact gives_pure fun item hitem => by cases hitem
  | succ n ih =>
    have hcons : times (n + 1) reader =
        reader >>= fun first => times n reader >>= fun rest => pure (first :: rest) := by
      simp [times, List.replicate_succ]
    rw [hcons]
    exact h.bind fun first hfirst => ih.bind fun rest hrest =>
      gives_pure (List.forall_mem_cons.2 ⟨hfirst, hrest⟩)

theorem gives_counted {α : Type} {reader : Reader α} {property : α → Prop}
    (h : Gives reader property) :
    Gives (counted reader) fun items => ∀ item ∈ items, property item :=
  gives_bind fun count => gives_times h count.toNat

theorem gives_pendingMember (pool : ConstantPool) :
    Gives (pendingMember pool) fun pending =>
      ∀ raw ∈ pending.attributes, raw.data.length < 4294967296 :=
  gives_bind fun _ => gives_bind fun _ => gives_bind fun _ => gives_bind fun _ => gives_bind fun _ =>
    (gives_counted (gives_rawAttribute pool)).bind fun _ hraws => gives_pure hraws

theorem gives_pendingClass :
    Gives pendingClass fun pending => ∀ member ∈ pending.methods, ∀ raw ∈ member.attributes,
      raw.data.length < 4294967296 := by
  refine gives_bind fun found => ?_
  dsimp only
  split
  · exact gives_throw _
  · refine gives_bind fun _ => gives_bind fun _ => gives_bind fun pool => gives_bind fun _ =>
      gives_bind fun _ => gives_bind fun _ => gives_bind fun _ => gives_bind fun _ =>
      gives_bind fun _ => gives_bind fun _ =>
      (gives_counted (gives_pendingMember pool)).bind fun methods hmethods =>
        gives_bind fun _ => gives_pure hmethods

end Decode

/-- What a list was made from. -/
theorem exists_mem_of_forall₂ {α β : Type} {related : α → β → Prop} {xs : List α} {ys : List β}
    (h : List.Forall₂ related xs ys) {y : β} (hy : y ∈ ys) : ∃ x ∈ xs, related x y := by
  induction h with
  | nil => cases hy
  | @cons x first xs ys hfirst _ ih =>
    rcases List.mem_cons.1 hy with rfl | hrest
    · exact ⟨x, List.mem_cons_self, hfirst⟩
    · obtain ⟨other, hother, hrelated⟩ := ih hrest
      exact ⟨other, List.mem_cons_of_mem _ hother, hrelated⟩

/-- Every method of a class that has been read places its labels. -/
theorem ClassNode.methods_labelClosed {bytes : List UInt8} {node : ClassNode}
    (h : ofBytes bytes = .ok node) : ∀ method ∈ node.methods, method.LabelClosed := by
  obtain ⟨pending, hpending, h⟩ := exists_of_bind_ok h
  obtain ⟨later, hrun⟩ := Reader.exists_of_onBytes hpending
  have hdata := Decode.gives_pendingClass _ _ _ hrun
  obtain ⟨pool, -, h⟩ := exists_of_bind_ok h
  obtain ⟨shell, -, h⟩ := exists_of_bind_ok h
  obtain ⟨fields, -, h⟩ := exists_of_bind_ok h
  obtain ⟨methods, hmethods, h⟩ := exists_of_bind_ok h
  cases h
  intro method hmethod
  obtain ⟨member, hmember, hread⟩ := exists_mem_of_forall₂ (forall₂_of_mapM hmethods) hmethod
  exact Decode.labelClosed_of_method (hdata member hmember) hread

end JvmArchive
