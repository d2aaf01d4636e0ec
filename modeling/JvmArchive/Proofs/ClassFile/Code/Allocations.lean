import JvmArchive.Proofs.ClassFile.Code.Closed
import JvmArchive.Proofs.ClassFile.Code.Prepared
import JvmArchive.Proofs.Flow.Allocations

/-!
# Labels put before allocations

A frame can only name an allocation that has a label, so those without one get a label before frames are
computed. Afterwards every allocation has one, and the labels that were put in are those that the list
hands out next.
-/
namespace JvmArchive

namespace Instruction

/-- The entries of a list without its frames. -/
def withoutFrames (instructions : List Instruction) : List Instruction :=
  instructions.filter fun instruction => !instruction.isFrame

theorem withoutFrames_cons {instruction : Instruction} (h : instruction.isFrame = false)
    (rest : List Instruction) :
    withoutFrames (instruction :: rest) = instruction :: withoutFrames rest :=
  List.filter_cons_of_pos (by rw [h]; rfl)

theorem withoutFrames_append (xs ys : List Instruction) :
    withoutFrames (xs ++ ys) = withoutFrames xs ++ withoutFrames ys := List.filter_append xs ys

/-- The last label since the last real instruction once an entry has passed. -/
def labelSince (seen : Option Label) : Instruction → Option Label
  | .label place => some place
  | instruction => if instruction.isPseudo then seen else none

/-- The last label since the last real instruction at the end of a list. -/
def lastLabel (seen : Option Label) (instructions : List Instruction) : Option Label :=
  instructions.foldl labelSince seen

/-- The label before an instruction is the last one of the list before it. -/
theorem labelBefore?_eq_lastLabel (instructions : List Instruction) {index : Nat}
    (h : index ≤ instructions.length) :
    Flow.Body.labelBefore? instructions.toArray index = lastLabel none (instructions.take index) := by
  induction index with
  | zero => rfl
  | succ index ih =>
    have hlt : index < instructions.length := h
    have hlast : lastLabel none (instructions.take index ++ [instructions[index]]) =
        labelSince (lastLabel none (instructions.take index)) instructions[index] :=
      List.foldl_append
    rw [List.take_succ_eq_append_getElem hlt, hlast, ← ih (Nat.le_of_lt hlt), Flow.Body.labelBefore?,
      List.getElem?_toArray, List.getElem?_eq_getElem hlt]
    generalize instructions[index] = instruction
    cases instruction <;> rfl

theorem labelSince_of_real {instruction : Instruction} (h : instruction.isPseudo = false)
    (seen : Option Label) : labelSince seen instruction = none := by
  cases instruction <;> first | rfl | cases h

/-- Labels put into a list, at most one before each entry: before allocations that have none, and counted
from a number. -/
structure Labels (seen : Option Label) (next : UInt32) (marks : List (Option Label))
    (xs ys : List Instruction) : Prop where
  length : marks.length = xs.length
  inserted : ys = (List.zipWith (fun mark x => mark.toList.map .label ++ [x]) marks xs).flatten
  needed : ∀ (i : Nat) (x : Instruction), xs[i]? = some x →
    ((∃ label, marks[i]? = some (some label)) ↔
      x.isAllocation = true ∧ lastLabel seen (xs.take i) = none)
  counted : ∀ (k : Nat) (label : Label), marks.reduceOption[k]? = some label →
    label = ⟨next + k.toUInt32⟩

namespace Labels

variable {seen : Option Label} {next : UInt32} {marks : List (Option Label)} {xs ys : List Instruction}
  {x : Instruction}

theorem nil (seen : Option Label) (next : UInt32) : Labels seen next [] [] [] :=
  ⟨rfl, rfl, nofun, nofun⟩

/-- An entry before which nothing is put. -/
theorem keep (h : Labels (labelSince seen x) next marks xs ys)
    (hx : x.isAllocation = true → seen ≠ none) : Labels seen next (none :: marks) (x :: xs) (x :: ys) where
  length := congrArg Nat.succ h.length
  inserted := by
    have hinserted := h.inserted
    simp only [List.zipWith_cons_cons, List.flatten_cons, Option.toList_none, List.map_nil,
      List.nil_append, List.singleton_append]
    rw [← hinserted]
  needed i y hy := by
    cases i with
    | zero =>
      cases hy
      constructor
      · rintro ⟨label, hmark⟩
        cases hmark
      · exact fun hneeds => absurd hneeds.2 (hx hneeds.1)
    | succ i => exact h.needed i y hy
  counted := h.counted

/-- An allocation that gets a label. -/
theorem mark (h : Labels none (next + 1) marks xs ys) (hx : x.isAllocation = true) :
    Labels none next (some ⟨next⟩ :: marks) (x :: xs) (.label ⟨next⟩ :: x :: ys) where
  length := congrArg Nat.succ h.length
  inserted := by
    have hinserted := h.inserted
    simp only [List.zipWith_cons_cons, List.flatten_cons, Option.toList_some, List.map_cons,
      List.map_nil, List.cons_append, List.nil_append]
    rw [← hinserted]
  needed i y hy := by
    cases i with
    | zero =>
      cases hy
      exact ⟨fun _ => ⟨hx, rfl⟩, fun _ => ⟨_, rfl⟩⟩
    | succ i =>
      have hreal : x.isPseudo = false := by
        cases x <;> first | rfl | cases hx
      have hsince : lastLabel none ((x :: xs).take (i + 1)) = lastLabel none (xs.take i) :=
        congrArg (lastLabel · (xs.take i)) (labelSince_of_real hreal none)
      rw [hsince]
      exact h.needed i y hy
  counted k label hlabel := by
    cases k with
    | zero =>
      cases hlabel
      simp
    | succ k =>
      have hsucc : next + 1 + k.toUInt32 = next + (k + 1).toUInt32 := by
        simp only [Nat.toUInt32, UInt32.ofNat_add]
        rw [UInt32.add_assoc, UInt32.add_comm 1]
        rfl
      rw [h.counted k label hlabel, hsucc]

/-- Where the numbers of all labels in the list lie below the number counted from, and so many more can be
counted, the labels that are put in are new and no two are the same. -/
theorem fresh (h : Labels seen next marks xs ys) (hplaced : ∀ label ∈ placed xs, label.number < next)
    (hroom : next.toNat + marks.reduceOption.length ≤ 4294967296) :
    marks.reduceOption.Nodup ∧ ∀ label ∈ marks.reduceOption, label ∉ placed xs := by
  have hnumber : ∀ {k : Nat} {label : Label}, marks.reduceOption[k]? = some label →
      label.number.toNat = next.toNat + k := by
    intro k label hlabel
    have hlt := (List.getElem?_eq_some_iff.1 hlabel).1
    have hk : k.toUInt32.toNat = k := UInt32.toNat_ofNat_of_lt' (by simp only [UInt32.size]; omega)
    rw [h.counted k label hlabel, UInt32.toNat_add, hk]
    exact Nat.mod_eq_of_lt (by omega)
  refine ⟨List.pairwise_iff_getElem.2 fun i j hi hj hlt heq => ?_, fun label hlabel hmem => ?_⟩
  · have hleft := hnumber (List.getElem?_eq_getElem hi)
    rw [heq, hnumber (List.getElem?_eq_getElem hj)] at hleft
    omega
  · obtain ⟨k, hk⟩ := List.getElem?_of_mem hlabel
    have hbelow := UInt32.lt_iff_toNat_lt.1 (hplaced label hmem)
    have hcount := hnumber hk
    omega

end Labels

theorem placed_withoutFrames (instructions : List Instruction) :
    placed (withoutFrames instructions) = placed instructions := by
  induction instructions with
  | nil => rfl
  | cons instruction rest ih =>
    by_cases hframe : ∃ frame, instruction = .frame frame
    · obtain ⟨frame, rfl⟩ := hframe
      exact ih
    · have hother : instruction.isFrame = false := by
        cases instruction <;> first | rfl | exact absurd ⟨_, rfl⟩ hframe
      rw [withoutFrames_cons hother, ← List.singleton_append, placed_append, ih, ← placed_append]
      rfl

end Instruction
open Instruction

namespace Encode

/-- An entry stays as it is, unless it is an allocation and no label has been seen since the last real
instruction: then one is put before it. -/
theorem labelSites_cons (seen : Option Label) (next : UInt32) (x : Instruction)
    (rest : List Instruction) :
    (labelSites seen.isSome next (x :: rest) =
        x :: labelSites (labelSince seen x).isSome next rest ∧
      (x.isAllocation = true → seen ≠ none)) ∨
    (x.isAllocation = true ∧ seen = none ∧
      labelSites seen.isSome next (x :: rest) =
        .label ⟨next⟩ :: x :: labelSites (labelSince none x).isSome (next + 1) rest) := by
  cases x with
  | type op class_ =>
    by_cases hop : op = Opcode.new
    · subst hop
      cases seen with
      | none => exact .inr ⟨rfl, rfl, rfl⟩
      | some label => exact .inl ⟨rfl, fun _ => nofun⟩
    · refine .inl ⟨?_, fun hnew => absurd (of_decide_eq_true hnew) hop⟩
      conv_lhs => unfold labelSites
      split
      case h_4 hsame => exact absurd (Instruction.type.inj hsame).1 hop
      all_goals first | rfl | contradiction
  | _ => exact .inl ⟨rfl, nofun⟩

/-- The labels that are put into a list without frames. -/
theorem exists_labels_labelSites (instructions : List Instruction) (seen : Option Label)
    (next : UInt32) : ∃ marks, Labels seen next marks (withoutFrames instructions)
      (withoutFrames (labelSites seen.isSome next instructions)) := by
  induction instructions generalizing seen next with
  | nil => exact ⟨[], .nil seen next⟩
  | cons x rest ih =>
    rcases labelSites_cons seen next x rest with ⟨hsites, hx⟩ | ⟨hx, rfl, hsites⟩
    · obtain ⟨marks, hmarks⟩ := ih (labelSince seen x) next
      rw [hsites]
      by_cases hframe : ∃ frame, x = .frame frame
      · obtain ⟨frame, rfl⟩ := hframe
        exact ⟨marks, hmarks⟩
      · have hother : x.isFrame = false := by
          cases x <;> first | rfl | exact absurd ⟨_, rfl⟩ hframe
        rw [withoutFrames_cons hother, withoutFrames_cons hother]
        exact ⟨none :: marks, hmarks.keep hx⟩
    · have hreal : x.isPseudo = false ∧ x.isFrame = false := by
        cases x <;> first | exact ⟨rfl, rfl⟩ | cases hx
      obtain ⟨marks, hmarks⟩ := ih (labelSince none x) (next + 1)
      rw [hsites]
      rw [labelSince_of_real hreal.1] at hmarks ⊢
      have hlabel : (Instruction.label ⟨next⟩).isFrame = false := rfl
      rw [withoutFrames_cons hreal.2, withoutFrames_cons hlabel, withoutFrames_cons hreal.2]
      exact ⟨some ⟨next⟩ :: marks, hmarks.mark hx⟩

/-- Afterwards a label stands before every allocation. -/
theorem lastLabel_labelSites (instructions : List Instruction) {seen : Option Label} {next : UInt32}
    {index : Nat} {x : Instruction} (hx : x.isAllocation = true)
    (h : (labelSites seen.isSome next instructions)[index]? = some x) :
    lastLabel seen ((labelSites seen.isSome next instructions).take index) ≠ none := by
  induction instructions generalizing seen next index with
  | nil => cases h
  | cons y rest ih =>
    rcases labelSites_cons seen next y rest with ⟨hsites, hy⟩ | ⟨hy, rfl, hsites⟩
    · rw [hsites] at h ⊢
      cases index with
      | zero =>
        cases h
        exact hy hx
      | succ index => exact ih h
    · rw [hsites] at h ⊢
      match index with
      | 0 =>
        cases h
        cases hx
      | 1 => exact nofun
      | index + 2 =>
        have hreal : y.isPseudo = false := by
          cases y <;> first | rfl | cases hy
        have hsince : labelSince (some ⟨next⟩) y = labelSince none y := by
          rw [labelSince_of_real hreal, labelSince_of_real hreal]
        change lastLabel (labelSince (some ⟨next⟩) y) (List.take index
          (labelSites (labelSince none y).isSome (next + 1) rest)) ≠ none
        rw [hsince]
        exact ih h

/-- So the name of an allocation is a label, and between the two stands nothing that takes room. -/
theorem exists_label_of_isSite {body : Flow.Body} {instructions : List Instruction} {next : UInt32}
    (hbody : body.instructions = (labelSites false next instructions).toArray) {site : Label}
    (h : body.IsSite site) : ∃ (place index : Nat) (class_ : String), place < index ∧
      (labelSites false next instructions)[place]? = some (.label site) ∧
      (labelSites false next instructions)[index]? = some (.type Opcode.new class_) ∧
      ∀ between, place < between → between < index → ∃ instruction,
        (labelSites false next instructions)[between]? = some instruction ∧
          instruction.isPseudo = true := by
  obtain ⟨class_, index, hindex, rfl⟩ := h
  rw [hbody, List.getElem?_toArray] at hindex
  have hlast : lastLabel none ((labelSites false next instructions).take index) ≠ none :=
    @lastLabel_labelSites instructions none next index _ rfl hindex
  have hlt := (List.getElem?_eq_some_iff.1 hindex).1
  rw [← labelBefore?_eq_lastLabel _ (Nat.le_of_lt hlt)] at hlast
  obtain ⟨label, hlabel⟩ := Option.ne_none_iff_exists'.1 hlast
  obtain ⟨place, hbefore, hplace, hbetween⟩ := Flow.Body.exists_of_labelBefore? hlabel
  have hsite : body.site index = label := by
    rw [Flow.Body.site, hbody, hlabel, Option.getD_some]
  simp only [List.getElem?_toArray] at hplace hbetween
  exact ⟨place, index, class_, hbefore, hsite ▸ hplace, hindex, hbetween⟩

end Encode
end JvmArchive
