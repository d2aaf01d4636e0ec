import JvmArchive.Code.CodeList
import Mathlib.Data.List.Nodup

/-!
# Identities in code lists

A list takes the identities of its instructions from a counter that only grows. As long as the counter has
numbers left, no change to a list gives one identity to two instructions, so each has its place. What comes
into a list with an edit comes under a number that the counter had not reached; only a fresh list in place
of the list starts to count anew.
-/
namespace JvmArchive.CodeList

/-- Whether the identities of a list are distinct and come from its counter, which has numbers left for
so many more instructions. -/
structure Numbered (code : CodeList) (spare : Nat) : Prop where
  distinct : code.ids.Nodup
  below : ∀ id ∈ code.ids, id.number.toNat < code.nextId.toNat
  room : code.nextId.toNat + spare < UInt32.size

/-- What can be done to a list. -/
inductive Change
  | newLabel
  | append (instructions : List Instruction)
  | insertAllAt (index : Nat) (instructions : List Instruction)
  | insertBefore (anchor : InstructionId) (instruction : Instruction)
  | insertAfter (anchor : InstructionId) (instruction : Instruction)
  | erase (id : InstructionId)
  | clear
  | replace (id : InstructionId) (instruction : Instruction)
  | map (f : Instruction → Instruction)
  /-- Puts a fresh list in place of the list. -/
  | assign (instructions : List Instruction)

namespace Change

def apply (code : CodeList) : Change → CodeList
  | newLabel => code.newLabel.2
  | append instructions => code.append instructions
  | insertAllAt index instructions => code.insertAllAt index instructions
  | insertBefore anchor instruction => (code.insertBefore? anchor instruction).getD code
  | insertAfter anchor instruction => (code.insertAfter? anchor instruction).getD code
  | erase id => code.erase id
  | clear => code.clear
  | replace id instruction => code.replace id instruction
  | map f => code.map f
  | assign instructions => ofList instructions

/-- How many instructions a change places, at most. -/
def placed : Change → Nat
  | append instructions | insertAllAt _ instructions | assign instructions => instructions.length
  | insertBefore .. | insertAfter .. => 1
  | _ => 0

end Change

/-- How many instructions some changes place, at most. -/
def countPlaced : List Change → Nat
  | [] => 0
  | change :: changes => change.placed + countPlaced changes

theorem countPlaced_append (changes others : List Change) :
    countPlaced (changes ++ others) = countPlaced changes + countPlaced others := by
  induction changes with
  | nil => simp [countPlaced]
  | cons change changes ih => simp [countPlaced, ih, Nat.add_assoc]

variable {code : CodeList} {spare : Nat}

theorem Numbered.of_sublist {other : CodeList} (h : code.Numbered spare)
    (hids : other.ids.Sublist code.ids) (hnext : other.nextId = code.nextId) :
    other.Numbered spare where
  distinct := h.distinct.sublist hids
  below id hid := hnext ▸ h.below id (hids.subset hid)
  room := hnext ▸ h.room

theorem Numbered.mono {fewer : Nat} (h : code.Numbered spare) (hle : fewer ≤ spare) :
    code.Numbered fewer :=
  { h with room := by have := h.room; omega }

/-- The counter counts on while it has numbers left. -/
theorem toNat_nextId_add {count : Nat} (h : code.nextId.toNat + count < UInt32.size) :
    (code.nextId + count.toUInt32).toNat = code.nextId.toNat + count := by
  have hsmall : count.toUInt32.toNat = count := by
    simp only [Nat.toUInt32_eq, UInt32.toNat_ofNat']
    exact Nat.mod_eq_of_lt (by simp only [UInt32.size] at h; omega)
  rw [UInt32.toNat_add, hsmall]
  exact Nat.mod_eq_of_lt h

theorem map_fst_admitAll (code : CodeList) (instructions : List Instruction) :
    (code.admitAll instructions).1.map (·.1) =
      (List.range instructions.length).map fun i => ⟨code.nextId + i.toUInt32⟩ := by
  refine List.ext_getElem (by simp [admitAll]) fun i _ _ => ?_
  simp [admitAll]

/-- Instructions that are placed bring their identities to those that are there. -/
theorem ids_insertAllAt_perm (code : CodeList) (index : Nat) (instructions : List Instruction) :
    (code.insertAllAt index instructions).ids.Perm
      ((List.range instructions.length).map (fun i => ⟨code.nextId + i.toUInt32⟩) ++ code.ids) := by
  rw [← map_fst_admitAll, ids, ids, ← List.map_append]
  refine List.Perm.map _ ?_
  calc code.entries.take index ++ (code.admitAll instructions).1 ++ code.entries.drop index
    _ = code.entries.take index ++ ((code.admitAll instructions).1 ++ code.entries.drop index) :=
      List.append_assoc ..
    _ |>.Perm ((code.admitAll instructions).1 ++
          (code.entries.take index ++ code.entries.drop index)) :=
      List.perm_append_comm_assoc ..
    _ = (code.admitAll instructions).1 ++ code.entries := by rw [List.take_append_drop]

/-- The identities of instructions that are placed are new, and distinct. -/
theorem Numbered.insertAllAt {instructions : List Instruction}
    (h : code.Numbered (instructions.length + spare)) (index : Nat) :
    (code.insertAllAt index instructions).Numbered spare := by
  have hroom := h.room
  have hnumber : ∀ i, i < instructions.length →
      (code.nextId + i.toUInt32).toNat = code.nextId.toNat + i := fun i hi =>
    toNat_nextId_add (by omega)
  have hnext : (code.insertAllAt index instructions).nextId.toNat =
      code.nextId.toNat + instructions.length :=
    toNat_nextId_add (by omega)
  have hids := ids_insertAllAt_perm code index instructions
  refine ⟨hids.nodup_iff.2 (List.nodup_append.2 ⟨?_, h.distinct, ?_⟩), fun id hid => ?_, ?_⟩
  · refine List.Nodup.map_on (fun i hi j hj hsame => ?_) List.nodup_range
    have heq := congrArg (fun id : InstructionId => id.number.toNat) hsame
    dsimp only at heq
    rw [hnumber i (List.mem_range.1 hi), hnumber j (List.mem_range.1 hj)] at heq
    omega
  · rintro id hnew other hold rfl
    obtain ⟨i, hi, rfl⟩ := List.mem_map.1 hnew
    have hlt := h.below _ hold
    rw [hnumber i (List.mem_range.1 hi)] at hlt
    omega
  · rw [hnext]
    rcases List.mem_append.1 (hids.mem_iff.1 hid) with hnew | hold
    · obtain ⟨i, hi, rfl⟩ := List.mem_map.1 hnew
      rw [hnumber i (List.mem_range.1 hi)]
      exact Nat.add_lt_add_left (List.mem_range.1 hi) _
    · exact Nat.lt_add_right _ (h.below id hold)
  · omega

theorem Numbered.insertAt (h : code.Numbered (1 + spare)) (index : Nat) (instruction : Instruction) :
    (code.insertAt index instruction).Numbered spare :=
  insertAllAt (show code.Numbered ([instruction].length + spare) from h) index

theorem append_eq_insertAllAt (code : CodeList) (instructions : List Instruction) :
    code.append instructions = code.insertAllAt code.length instructions := by
  simp [append, insertAllAt, admitAll, length]

theorem Numbered.append {instructions : List Instruction}
    (h : code.Numbered (instructions.length + spare)) : (code.append instructions).Numbered spare :=
  append_eq_insertAllAt code instructions ▸ h.insertAllAt _

theorem ids_replace (code : CodeList) (id : InstructionId) (instruction : Instruction) :
    (code.replace id instruction).ids = code.ids := by
  simp only [ids, replace, List.map_map, List.map_inj_left]
  intro entry _
  dsimp only [Function.comp]
  split
  · rename_i hid
    exact hid.symm
  · rfl

theorem ids_map (f : Instruction → Instruction) (code : CodeList) : (code.map f).ids = code.ids := by
  simp [ids, map]

theorem numbered_empty (h : spare < UInt32.size) : ({} : CodeList).Numbered spare :=
  ⟨List.nodup_nil, by simp [ids], by simpa using h⟩

/-- A fresh list is numbered. -/
theorem numbered_ofList {instructions : List Instruction}
    (h : instructions.length + spare < UInt32.size) : (ofList instructions).Numbered spare :=
  (numbered_empty h).append

/-- Every change keeps a list numbered. -/
theorem Numbered.apply {change : Change} (h : code.Numbered (change.placed + spare)) :
    (change.apply code).Numbered spare := by
  have hkept : code.Numbered spare := h.mono (Nat.le_add_left ..)
  cases change with
  | newLabel => exact hkept.of_sublist (List.Sublist.refl code.ids) rfl
  | append instructions => exact h.append
  | insertAllAt index instructions => exact h.insertAllAt index
  | insertBefore anchor instruction =>
    rw [Change.apply, insertBefore?]
    cases code.indexOf? anchor with
    | none => exact hkept
    | some index => exact h.insertAt _ _
  | insertAfter anchor instruction =>
    rw [Change.apply, insertAfter?]
    cases code.indexOf? anchor with
    | none => exact hkept
    | some index => exact h.insertAt _ _
  | erase id => exact hkept.of_sublist (List.Sublist.map Prod.fst List.eraseP_sublist) rfl
  | clear => exact hkept.of_sublist (List.nil_sublist code.ids) rfl
  | replace id instruction =>
    have hids := ids_replace code id instruction
    exact hkept.of_sublist (hids ▸ List.Sublist.refl _) rfl
  | map f =>
    have hids := ids_map f code
    exact hkept.of_sublist (hids ▸ List.Sublist.refl _) rfl
  | assign instructions =>
    have hroom := h.room
    dsimp only [Change.placed] at hroom
    exact numbered_ofList (by omega)

theorem Numbered.foldl {changes : List Change} (h : code.Numbered (countPlaced changes + spare)) :
    (changes.foldl Change.apply code).Numbered spare := by
  induction changes generalizing code with
  | nil => simpa [countPlaced] using h
  | cons change changes ih =>
    refine ih (Numbered.apply ?_)
    rw [← Nat.add_assoc]
    simpa [countPlaced] using h

/-! ## Identities that are new -/

/-- Whether a change edits the list that is there. -/
def Change.IsEdit : Change → Prop
  | .assign _ => False
  | _ => True

/-- Whether an identity comes into a list with one of some changes. -/
def Enters (code : CodeList) (changes : List Change) (id : InstructionId) : Prop :=
  ∃ done change rest, changes = done ++ change :: rest ∧ id ∉ (done.foldl Change.apply code).ids ∧
    id ∈ (change.apply (done.foldl Change.apply code)).ids

/-- How editing may change a list: the counter counts on, and what is new was not yet counted. -/
structure Advances (code later : CodeList) : Prop where
  counter : code.nextId.toNat ≤ later.nextId.toNat
  new : ∀ id ∈ later.ids, id ∈ code.ids ∨ code.nextId.toNat ≤ id.number.toNat

theorem Advances.trans {middle later : CodeList} (h : Advances code middle)
    (h' : Advances middle later) : Advances code later where
  counter := Nat.le_trans h.counter h'.counter
  new id hid := by
    rcases h'.new id hid with hmiddle | hle
    · exact h.new id hmiddle
    · exact .inr (Nat.le_trans h.counter hle)

theorem advances_of_subset {later : CodeList} (hids : later.ids ⊆ code.ids)
    (hnext : later.nextId = code.nextId) : Advances code later where
  counter := Nat.le_of_eq (congrArg UInt32.toNat hnext.symm)
  new _ hid := .inl (hids hid)

theorem Numbered.advances_insertAllAt {instructions : List Instruction}
    (h : code.Numbered (instructions.length + spare)) (index : Nat) :
    Advances code (code.insertAllAt index instructions) := by
  have hroom := h.room
  refine ⟨?_, fun id hid => ?_⟩
  · have hnext : (code.insertAllAt index instructions).nextId.toNat =
        code.nextId.toNat + instructions.length :=
      toNat_nextId_add (by omega)
    omega
  · rcases List.mem_append.1 ((ids_insertAllAt_perm code index instructions).mem_iff.1 hid) with
      hnew | hold
    · obtain ⟨i, hi, rfl⟩ := List.mem_map.1 hnew
      have hlt := List.mem_range.1 hi
      rw [toNat_nextId_add (by omega)]
      exact .inr (Nat.le_add_right ..)
    · exact .inl hold

/-- Every edit keeps the identities and gives only new ones. -/
theorem Numbered.advances {change : Change} (h : code.Numbered (change.placed + spare))
    (hedit : change.IsEdit) : Advances code (change.apply code) := by
  have hself : Advances code code := advances_of_subset (List.Subset.refl _) rfl
  cases change with
  | newLabel => exact advances_of_subset (List.Subset.refl _) rfl
  | append instructions =>
    rw [Change.apply, append_eq_insertAllAt]
    exact h.advances_insertAllAt _
  | insertAllAt index instructions => exact h.advances_insertAllAt index
  | insertBefore anchor instruction =>
    rw [Change.apply, insertBefore?]
    cases code.indexOf? anchor with
    | none => exact hself
    | some index => exact advances_insertAllAt (show code.Numbered ([instruction].length + spare) from h) _
  | insertAfter anchor instruction =>
    rw [Change.apply, insertAfter?]
    cases code.indexOf? anchor with
    | none => exact hself
    | some index => exact advances_insertAllAt (show code.Numbered ([instruction].length + spare) from h) _
  | erase id =>
    exact advances_of_subset (List.map_subset _ List.eraseP_sublist.subset) rfl
  | clear => exact advances_of_subset (List.nil_subset _) rfl
  | replace id instruction =>
    exact advances_of_subset (ids_replace code id instruction ▸ List.Subset.refl _) rfl
  | map f => exact advances_of_subset (ids_map f code ▸ List.Subset.refl _) rfl
  | assign => cases hedit

theorem Numbered.advances_foldl {changes : List Change}
    (h : code.Numbered (countPlaced changes + spare)) (hedits : ∀ change ∈ changes, change.IsEdit) :
    Advances code (changes.foldl Change.apply code) := by
  induction changes generalizing code with
  | nil => exact advances_of_subset (List.Subset.refl _) rfl
  | cons change changes ih =>
    obtain ⟨hfirst, hrest⟩ := List.forall_mem_cons.1 hedits
    rw [countPlaced, Nat.add_assoc] at h
    exact (h.advances hfirst).trans (ih h.apply hrest)

/-- What comes into a list with an edit comes under a number that had not been reached before any of
them. -/
theorem Numbered.le_of_enters {changes : List Change} (h : code.Numbered (countPlaced changes))
    (hedits : ∀ change ∈ changes, change.IsEdit) {id : InstructionId}
    (hid : code.Enters changes id) : code.nextId.toNat ≤ id.number.toNat := by
  obtain ⟨done, change, rest, rfl, hnot, hmem⟩ := hid
  obtain ⟨hdone, hlater⟩ := List.forall_mem_append.1 hedits
  rw [countPlaced_append] at h
  have hcounter := (h.advances_foldl hdone).counter
  have hnumbered := h.foldl
  rw [countPlaced] at hnumbered
  rcases (hnumbered.advances (hlater change List.mem_cons_self)).new id hmem with hold | hle
  · exact absurd hold hnot
  · exact Nat.le_trans hcounter hle

/-! ## Where instructions stand -/

variable {id : InstructionId} {instruction : Instruction}
  {before after : List (InstructionId × Instruction)}

theorem exists_split (hid : id ∈ code.ids) :
    ∃ before instruction after, code.entries = before ++ (id, instruction) :: after := by
  obtain ⟨⟨_, instruction⟩, hmem, rfl⟩ := List.mem_map.1 hid
  obtain ⟨before, after, hsplit⟩ := List.append_of_mem hmem
  exact ⟨before, instruction, after, hsplit⟩

/-- Where identities are distinct, an instruction has its own for itself. -/
theorem not_mem_of_split (h : code.ids.Nodup)
    (hsplit : code.entries = before ++ (id, instruction) :: after) :
    (∀ entry ∈ before, entry.1 ≠ id) ∧ ∀ entry ∈ after, entry.1 ≠ id := by
  rw [ids, hsplit, List.map_append, List.map_cons, List.nodup_append, List.nodup_cons] at h
  obtain ⟨-, ⟨hafter, -⟩, hbefore⟩ := h
  refine ⟨fun entry hentry => ?_, fun entry hentry heq => ?_⟩
  · exact hbefore _ (List.mem_map_of_mem hentry) _ List.mem_cons_self
  · exact hafter (List.mem_map.2 ⟨entry, hentry, heq⟩)

theorem get?_of_split (h : code.ids.Nodup)
    (hsplit : code.entries = before ++ (id, instruction) :: after) :
    code.get? id = some instruction := by
  have hbefore := (not_mem_of_split h hsplit).1
  have hnone : before.find? (·.1 = id) = none := by simpa using hbefore
  simp [get?, hsplit, List.find?_append, hnone]

theorem get?_eq_none_iff : code.get? id = none ↔ id ∉ code.ids := by
  rw [get?, ids, Option.map_eq_none_iff, List.find?_eq_none]
  simp only [List.mem_map, decide_eq_true_eq, not_exists, not_and]

theorem takeWhile_of_split (h : code.ids.Nodup)
    (hsplit : code.entries = before ++ (id, instruction) :: after) :
    code.entries.takeWhile (·.1 ≠ id) = before := by
  rw [hsplit, List.takeWhile_append_of_pos (by simpa using (not_mem_of_split h hsplit).1)]
  simp

theorem map_exchange_of_forall_ne {entries : List (InstructionId × Instruction)}
    (hne : ∀ entry ∈ entries, entry.1 ≠ id) (new : Instruction) :
    entries.map (fun entry => if entry.1 = id then (id, new) else entry) = entries :=
  calc entries.map (fun entry => if entry.1 = id then (id, new) else entry)
    _ = entries.map fun entry => entry :=
      List.map_congr_left fun entry hentry => if_neg (hne entry hentry)
    _ = entries := List.map_id' entries

theorem replace_of_not_mem (hid : id ∉ code.ids) (new : Instruction) :
    code.replace id new = code := by
  rw [replace, map_exchange_of_forall_ne fun entry hentry heq =>
    hid (List.mem_map.2 ⟨entry, hentry, heq⟩)]

theorem entries_replace (h : code.ids.Nodup)
    (hsplit : code.entries = before ++ (id, instruction) :: after) (new : Instruction) :
    (code.replace id new).entries = before ++ (id, new) :: after := by
  obtain ⟨hbefore, hafter⟩ := not_mem_of_split h hsplit
  simp [replace, hsplit, map_exchange_of_forall_ne hbefore, map_exchange_of_forall_ne hafter]

end JvmArchive.CodeList
