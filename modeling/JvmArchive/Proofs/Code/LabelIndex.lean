import JvmArchive.Code.CodeEditor
import JvmArchive.Proofs.Code.Numbering
import Mathlib.Data.List.Induction

/-!
# The label index of code under edit

An editor answers from its index as long as it has one. Whatever goes through the list drops the index, and
so does the exchange of a label. The exchange of another instruction for a label keeps it, and misleads
whoever asks about the new label or about what comes after it.
-/
namespace JvmArchive

/-- The label that an instruction is. -/
def Instruction.label? : Instruction → Option Label
  | .label place => some place
  | _ => none

namespace CodeList

/-! ## The nearest label before an instruction -/

/-- The last label among some entries. -/
def lastLabel? (entries : List (InstructionId × Instruction)) : Option Label :=
  (entries.filterMap (·.2.label?)).getLast?

/-- The label nearest before an instruction of a list that is no label itself. -/
def labelBefore? (code : CodeList) (id : InstructionId) : Option Label :=
  (code.get? id).bind fun instruction =>
    if instruction.label?.isSome then none
    else lastLabel? (code.entries.takeWhile (·.1 ≠ id))

@[simp]
theorem lastLabel?_nil : lastLabel? [] = none := rfl

@[simp]
theorem lastLabel?_append (before after : List (InstructionId × Instruction)) :
    lastLabel? (before ++ after) = (lastLabel? after).or (lastLabel? before) := by
  simp [lastLabel?, List.getLast?_append]

@[simp]
theorem lastLabel?_cons (entry : InstructionId × Instruction)
    (rest : List (InstructionId × Instruction)) :
    lastLabel? (entry :: rest) = (lastLabel? rest).or entry.2.label? := by
  rw [← List.singleton_append, lastLabel?_append]
  cases hlabel : entry.2.label? <;> simp [lastLabel?, hlabel]

variable {code : CodeList} {id : InstructionId} {instruction : Instruction}
  {before after : List (InstructionId × Instruction)}

theorem labelBefore?_of_split (h : code.ids.Nodup)
    (hsplit : code.entries = before ++ (id, instruction) :: after) :
    code.labelBefore? id = if instruction.label?.isSome then none else lastLabel? before := by
  rw [labelBefore?, get?_of_split h hsplit, takeWhile_of_split h hsplit, Option.bind_some]

theorem labelBefore?_of_not_mem (hid : id ∉ code.ids) : code.labelBefore? id = none := by
  rw [labelBefore?, get?_eq_none_iff.2 hid, Option.bind_none]

/-- What stands behind an instruction comes after it and after what is before it. -/
theorem labelBefore?_of_split_behind {other : InstructionId} {there : Instruction}
    {back : List (InstructionId × Instruction)} (among : List (InstructionId × Instruction))
    (h : code.ids.Nodup)
    (hsplit : code.entries = before ++ (id, instruction) :: (among ++ (other, there) :: back)) :
    code.labelBefore? other =
      if there.label?.isSome then none
      else (lastLabel? among).or (instruction.label?.or (lastLabel? before)) := by
  have hthere : code.entries =
      (before ++ (id, instruction) :: among) ++ (other, there) :: back := by
    simpa using hsplit
  rw [labelBefore?_of_split h hthere, lastLabel?_append, lastLabel?_cons, Option.or_assoc]

/-- Whether a label can stand between two runs of entries without being the nearest before anything or
having one before it: there is no label before it, and the next entry, if any, is one. -/
def IsIdlePlace (before after : List (InstructionId × Instruction)) : Prop :=
  lastLabel? before = none ∧ ∀ next ∈ after.head?, next.2.label?.isSome = true

theorem labelBefore?_replace (h : code.ids.Nodup)
    (hsplit : code.entries = before ++ (id, instruction) :: after)
    (hplain : instruction.label? = none) {new : Instruction}
    (hsafe : new.label? = none ∨ IsIdlePlace before after) (other : InstructionId) :
    (code.replace id new).labelBefore? other = code.labelBefore? other := by
  have hsplit' := entries_replace h hsplit new
  have hids := ids_replace code id new
  have h' : (code.replace id new).ids.Nodup := hids ▸ h
  by_cases hmem : other ∈ code.ids
  · have hwhere := hmem
    rw [ids, hsplit, List.map_append, List.map_cons, List.mem_append, List.mem_cons] at hwhere
    rcases hwhere with hfront | rfl | hback
    · obtain ⟨⟨other, there⟩, hentry, rfl⟩ := List.mem_map.1 hfront
      obtain ⟨front, among, rfl⟩ := List.append_of_mem hentry
      rw [List.append_assoc, List.cons_append] at hsplit hsplit'
      rw [labelBefore?_of_split h hsplit, labelBefore?_of_split h' hsplit']
    · rw [labelBefore?_of_split h hsplit, labelBefore?_of_split h' hsplit', hplain]
      rcases hsafe with hnew | ⟨hnone, -⟩
      · rw [hnew]
      · simp [hnone]
    · obtain ⟨⟨other, there⟩, hentry, rfl⟩ := List.mem_map.1 hback
      obtain ⟨among, back, rfl⟩ := List.append_of_mem hentry
      rw [labelBefore?_of_split_behind among h hsplit, labelBefore?_of_split_behind among h' hsplit',
        hplain]
      rcases hsafe with hnew | ⟨hnone, hhead⟩
      · rw [hnew]
      · -- the label right behind hides the new one from everything further on
        cases among with
        | nil => simp [hhead (other, there) rfl]
        | cons next among =>
          obtain ⟨place, hplace⟩ := Option.isSome_iff_exists.1 (hhead next rfl)
          simp [hplace, hnone]
  · rw [labelBefore?_of_not_mem hmem, labelBefore?_of_not_mem (hids ▸ hmem)]

/-- Exchanging an instruction that is no label leaves all nearest labels as they are exactly if the new one
is no label either, or comes to an idle place. -/
theorem labelBefore?_replace_iff (h : code.ids.Nodup)
    (hsplit : code.entries = before ++ (id, instruction) :: after)
    (hplain : instruction.label? = none) (new : Instruction) :
    (∀ other, (code.replace id new).labelBefore? other = code.labelBefore? other) ↔
      new.label? = none ∨ IsIdlePlace before after := by
  refine ⟨fun hsame => or_iff_not_imp_left.2 fun hlabel => ?_, labelBefore?_replace h hsplit hplain⟩
  have hsplit' := entries_replace h hsplit new
  have h' : (code.replace id new).ids.Nodup := ids_replace code id new ▸ h
  obtain ⟨place, hplace⟩ := Option.ne_none_iff_exists'.1 hlabel
  have hnone : lastLabel? before = none := by
    have hself := hsame id
    rw [labelBefore?_of_split h hsplit, labelBefore?_of_split h' hsplit'] at hself
    simpa [hplain, hplace] using hself.symm
  refine ⟨hnone, fun ⟨next, there⟩ hnext => ?_⟩
  obtain ⟨rest, rfl⟩ := List.head?_eq_some_iff.1 hnext
  by_contra hopen
  -- the next instruction would have the new label, and had none
  have hother := hsame next
  rw [labelBefore?_of_split_behind [] h hsplit, labelBefore?_of_split_behind [] h' hsplit'] at hother
  simp [hopen, hplain, hplace, hnone] at hother

end CodeList

namespace CodeEditor
open CodeList

/-! ## The index -/

@[simp]
theorem nearestLabels_cons (start : Option Label) (entry : InstructionId × Instruction)
    (rest : List (InstructionId × Instruction)) :
    nearestLabels start (entry :: rest) =
      match entry.2.label? with
      | some place => nearestLabels (some place) rest
      | none => (start.map fun place => (entry.1, place)).toList ++ nearestLabels start rest := by
  obtain ⟨id, instruction⟩ := entry
  cases start <;> cases instruction <;> rfl

/-- What stands before an instruction has an effect on its entry in the index by its last label only. -/
theorem lookup_nearestLabels_append (start : Option Label) {id : InstructionId}
    {before : List (InstructionId × Instruction)} (hbefore : ∀ entry ∈ before, entry.1 ≠ id)
    (rest : List (InstructionId × Instruction)) :
    (nearestLabels start (before ++ rest)).lookup id =
      (nearestLabels ((lastLabel? before).or start) rest).lookup id := by
  induction before generalizing start with
  | nil => rfl
  | cons entry before ih =>
    have hne : (id == entry.1) = false := beq_false_of_ne (hbefore entry List.mem_cons_self).symm
    have hrest := fun start : Option Label =>
      ih start fun entry hentry => hbefore entry (List.mem_cons_of_mem _ hentry)
    rw [List.cons_append, nearestLabels_cons, lastLabel?_cons, Option.or_assoc]
    cases hlabel : entry.2.label? with
    | some place => exact hrest (some place)
    | none =>
      have hskip : (((start.map fun place => (entry.1, place)).toList ++
          nearestLabels start (before ++ rest)).lookup id) =
            (nearestLabels start (before ++ rest)).lookup id := by
        cases start <;> simp [List.lookup_cons, hne]
      exact hskip.trans (hrest start)

/-- While identities are distinct, the index of a list holds the nearest labels. -/
theorem scanLabel?_eq_labelBefore? {code : CodeList} (h : code.ids.Nodup) (id : InstructionId) :
    scanLabel? code id = code.labelBefore? id := by
  have hend : ∀ {start : Option Label} {entries : List (InstructionId × Instruction)},
      (∀ entry ∈ entries, entry.1 ≠ id) → (nearestLabels start entries).lookup id = none := by
    intro start entries hne
    have hnil := lookup_nearestLabels_append start hne []
    rwa [List.append_nil] at hnil
  rw [scanLabel?]
  by_cases hid : id ∈ code.ids
  · obtain ⟨before, instruction, after, hsplit⟩ := exists_split hid
    obtain ⟨hbefore, hafter⟩ := not_mem_of_split h hsplit
    rw [labelBefore?_of_split h hsplit, hsplit, lookup_nearestLabels_append none hbefore,
      nearestLabels_cons, Option.or_none]
    cases instruction.label? with
    | some place => exact hend hafter
    | none => cases lastLabel? before <;> simp [hend hafter]
  · rw [labelBefore?_of_not_mem hid]
    exact hend fun entry hentry heq => hid (List.mem_map.2 ⟨entry, hentry, heq⟩)

/-- Whether an editor answers every question with the nearest label before the instruction. -/
def AnswersRight (editor : CodeEditor) : Prop :=
  ∀ id, (editor.labelFor id).1 = editor.code.labelBefore? id

/-- Without an index an editor reads the list. -/
theorem answersRight_of_labelIndex_eq_none {editor : CodeEditor} (h : editor.code.ids.Nodup)
    (hindex : editor.labelIndex = none) : editor.AnswersRight := by
  intro id
  rw [labelFor, hindex]
  exact scanLabel?_eq_labelBefore? h id

/-! ## Editing -/

/-- What can be done to code under edit, questions included. -/
inductive Operation
  | push (instruction : Instruction)
  | append (instructions : List Instruction)
  | prepend (instructions : List Instruction)
  | insertBefore (anchor : InstructionId) (instruction : Instruction)
  | insertAfter (anchor : InstructionId) (instruction : Instruction)
  | erase (id : InstructionId)
  | clear
  | replace (id : InstructionId) (instruction : Instruction)
  /-- Changes the list itself. -/
  | edit (changes : List CodeList.Change)
  | newLabel
  /-- Asks for the label nearest before an instruction. -/
  | ask (id : InstructionId)

def perform (editor : CodeEditor) : Operation → CodeEditor
  | .push instruction => editor.push instruction
  | .append instructions => editor.append instructions
  | .prepend instructions => editor.prepend instructions
  | .insertBefore anchor instruction => editor.insertBefore anchor instruction
  | .insertAfter anchor instruction => editor.insertAfter anchor instruction
  | .erase id => editor.erase id
  | .clear => editor.clear
  | .replace id instruction => editor.replace id instruction
  | .edit changes => editor.edit (changes.foldl Change.apply)
  | .newLabel => editor.newLabel.2
  | .ask id => (editor.labelFor id).2

/-- Performs operations in their order. -/
def run (editor : CodeEditor) (operations : List Operation) : CodeEditor :=
  operations.foldl perform editor

/-- What an operation does to the list. -/
def Operation.changes : Operation → List CodeList.Change
  | push instruction => [.append [instruction]]
  | append instructions => [.append instructions]
  | prepend instructions => [.insertAllAt 0 instructions]
  | insertBefore anchor instruction => [.insertBefore anchor instruction]
  | insertAfter anchor instruction => [.insertAfter anchor instruction]
  | erase id => [.erase id]
  | clear => [.clear]
  | replace id instruction => [.replace id instruction]
  | edit changes => changes
  | newLabel => [.newLabel]
  | ask _ => []

/-- An exchange in place drops the index only if it takes a label away. -/
theorem replace_eq (editor : CodeEditor) (id : InstructionId) (new : Instruction) :
    editor.replace id new =
      { code := editor.code.replace id new
        labelIndex :=
          if ((editor.code.get? id).bind Instruction.label?).isSome then none
          else editor.labelIndex } := by
  unfold replace
  cases hget : editor.code.get? id with
  | none => rw [replace_of_not_mem (get?_eq_none_iff.1 hget)]; rfl
  | some instruction => cases instruction <;> rfl

theorem perform_code (editor : CodeEditor) (operation : Operation) :
    (editor.perform operation).code = operation.changes.foldl Change.apply editor.code := by
  cases operation with
  | replace id instruction => rw [perform, replace_eq]; rfl
  | _ => rfl

theorem run_code (editor : CodeEditor) (operations : List Operation) :
    (editor.run operations).code =
      (operations.flatMap Operation.changes).foldl Change.apply editor.code := by
  induction operations generalizing editor with
  | nil => rfl
  | cons operation operations ih =>
    rw [List.flatMap_cons, List.foldl_append, ← perform_code]
    exact ih _

/-- Whether an operation changes what an index ought to hold and keeps the index: it exchanges an
instruction that is no label for a label that is the nearest before something, or that is now in the
place of an instruction with a label before it. -/
def Misleads (editor : CodeEditor) (operation : Operation) : Prop :=
  editor.labelIndex.isSome = true ∧ ∃ id place before instruction after,
    operation = .replace id (.label place) ∧
    editor.code.entries = before ++ (id, instruction) :: after ∧ instruction.label? = none ∧
    ¬IsIdlePlace before after

variable {editor : CodeEditor}

/-- An index that is kept stays right exactly if the nearest labels stay. -/
theorem answersRight_with_code_iff (h : editor.AnswersRight)
    (hindex : editor.labelIndex.isSome = true) (code : CodeList) :
    AnswersRight { editor with code } ↔ ∀ id, code.labelBefore? id = editor.code.labelBefore? id := by
  obtain ⟨labels, hlabels⟩ := Option.isSome_iff_exists.1 hindex
  refine forall_congr' fun id => ?_
  have hid := h id
  simp only [labelFor, hlabels, Option.getD_some] at hid ⊢
  rw [hid]
  exact eq_comm

/-- An exchange in place misleads exactly if it keeps the index and changes a nearest label. -/
theorem misleads_replace_iff (hdistinct : editor.code.ids.Nodup) (id : InstructionId)
    (new : Instruction) :
    editor.Misleads (.replace id new) ↔ (editor.replace id new).labelIndex.isSome = true ∧
      ¬∀ other, (editor.code.replace id new).labelBefore? other = editor.code.labelBefore? other := by
  rw [replace_eq]
  constructor
  · rintro ⟨hindex, _, place, before, instruction, after, hsame, hsplit, hplain, hseen⟩
    cases hsame
    rw [labelBefore?_replace_iff hdistinct hsplit hplain, get?_of_split hdistinct hsplit]
    exact ⟨by simpa [hplain] using hindex, not_or.2 ⟨nofun, hseen⟩⟩
  · rintro ⟨hindex, hchange⟩
    have hid : id ∈ editor.code.ids := by
      by_contra hid
      exact hchange fun other => by rw [replace_of_not_mem hid]
    obtain ⟨before, instruction, after, hsplit⟩ := exists_split hid
    rw [get?_of_split hdistinct hsplit, Option.bind_some] at hindex
    cases hplain : instruction.label? with
    | some place => simp [hplain] at hindex
    | none =>
      rw [labelBefore?_replace_iff hdistinct hsplit hplain] at hchange
      obtain ⟨hlabel, hseen⟩ := not_or.1 hchange
      cases new with
      | label place =>
        exact ⟨by simpa [hplain] using hindex, id, place, before, instruction, after, rfl, hsplit,
          hplain, hseen⟩
      | _ => exact absurd rfl hlabel

/-- What an operation leaves behind answers right exactly if the operation does not mislead. -/
theorem answersRight_perform_iff (hdistinct : editor.code.ids.Nodup) (h : editor.AnswersRight)
    {operation : Operation} (hdistinct' : (editor.perform operation).code.ids.Nodup) :
    (editor.perform operation).AnswersRight ↔ ¬editor.Misleads operation := by
  cases operation with
  | replace id new =>
    rw [misleads_replace_iff hdistinct]
    by_cases hindex : (editor.replace id new).labelIndex = none
    · simpa [hindex] using answersRight_of_labelIndex_eq_none hdistinct' hindex
    · have hkept : editor.replace id new = { editor with code := editor.code.replace id new } := by
        rw [replace_eq] at hindex ⊢
        split at hindex
        · exact absurd rfl hindex
        · rename_i hplain
          rw [if_neg hplain]
      have hsome : editor.labelIndex.isSome = true := by
        rw [hkept] at hindex
        exact Option.isSome_iff_ne_none.2 hindex
      rw [perform, hkept, answersRight_with_code_iff h hsome]
      simp [hsome]
  | newLabel => exact iff_of_true h (by simp [Misleads])
  | ask id => exact iff_of_true h (by simp [Misleads])
  | _ => exact iff_of_true (answersRight_of_labelIndex_eq_none hdistinct' rfl) (by simp [Misleads])

/-- While there are identities left for what is placed, identities are distinct at every point of a run. -/
theorem nodup_ids_run {code : CodeList} {operations done : List Operation}
    (h : code.Numbered (countPlaced (operations.flatMap Operation.changes)))
    (hdone : done <+: operations) : ((ofCodeList code).run done).code.ids.Nodup := by
  obtain ⟨rest, rfl⟩ := hdone
  rw [List.flatMap_append, countPlaced_append] at h
  rw [run_code]
  exact h.foldl.distinct

/-- An editor that has been handed a list answers every question of a run with the label nearest before the
instruction, or none if that is a label or not in the list, exactly if nothing in the run misleads. -/
theorem answersRight_run_iff {code : CodeList} {operations : List Operation}
    (h : code.Numbered (countPlaced (operations.flatMap Operation.changes))) :
    (∀ done, done <+: operations → ((ofCodeList code).run done).AnswersRight) ↔
      ∀ done next, done ++ [next] <+: operations →
        ¬((ofCodeList code).run done).Misleads next := by
  have hstep : ∀ done next, done ++ [next] <+: operations →
      ((ofCodeList code).run done).AnswersRight →
        (((ofCodeList code).run (done ++ [next])).AnswersRight ↔
          ¬((ofCodeList code).run done).Misleads next) := by
    intro done next hprefix hright
    have hdone := nodup_ids_run h ((List.prefix_append done [next]).trans hprefix)
    have hnext := nodup_ids_run h hprefix
    rw [run, List.foldl_append] at hnext ⊢
    exact answersRight_perform_iff hdone hright hnext
  constructor
  · intro hright done next hprefix
    have hdone := hright done ((List.prefix_append done [next]).trans hprefix)
    exact (hstep done next hprefix hdone).1 (hright _ hprefix)
  · intro hcareful done hprefix
    induction done using List.reverseRecOn with
    | nil => exact answersRight_of_labelIndex_eq_none (nodup_ids_run h hprefix) rfl
    | append_singleton done next ih =>
      have hdone := ih ((List.prefix_append done [next]).trans hprefix)
      exact (hstep done next hprefix hdone).2 (hcareful done next hprefix)

/-- Two instructions behind a label. -/
def labelledCode : CodeList :=
  .ofList [.label ⟨0⟩, .simple Opcode.nop, .simple Opcode.returnVoid]

/-- A question, after which the first of the two instructions is exchanged for a label. -/
def exchange : List Operation := [.ask ⟨2⟩, .replace ⟨1⟩ (.label ⟨5⟩)]

/-- There are identities left, and the exchange misleads. -/
theorem not_answersRight_run_exchange :
    labelledCode.Numbered (countPlaced (exchange.flatMap Operation.changes)) ∧
      ¬∀ done, done <+: exchange → ((ofCodeList labelledCode).run done).AnswersRight := by
  have hnumbered : labelledCode.Numbered (countPlaced (exchange.flatMap Operation.changes)) :=
    numbered_ofList (by decide)
  refine ⟨hnumbered, fun hright => ?_⟩
  refine (answersRight_run_iff hnumbered).1 hright [.ask ⟨2⟩] _ (List.prefix_refl exchange) ?_
  refine ⟨rfl, ⟨1⟩, ⟨5⟩, [(⟨0⟩, .label ⟨0⟩)], .simple Opcode.nop, [(⟨2⟩, .simple Opcode.returnVoid)],
    rfl, rfl, rfl, fun hidle => ?_⟩
  cases hidle.1

/-- Asked about the new label and about what comes after it, the editor names the label before it. -/
theorem labelFor_run_exchange :
    (((ofCodeList labelledCode).run exchange).labelFor ⟨1⟩).1 = some ⟨0⟩ ∧
      ((ofCodeList labelledCode).run exchange).code.labelBefore? ⟨1⟩ = none ∧
      (((ofCodeList labelledCode).run exchange).labelFor ⟨2⟩).1 = some ⟨0⟩ ∧
      ((ofCodeList labelledCode).run exchange).code.labelBefore? ⟨2⟩ = some ⟨5⟩ := by
  decide +kernel

end CodeEditor
end JvmArchive
