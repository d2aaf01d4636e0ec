import JvmArchive.Proofs.ClassFile.Code.Allocations

/-!
# Frames put into code

At a place in code may stand several entries that take no room, and of several frames among them the last
one counts. Frames are put where control comes from elsewhere: at a label that is jumped to or handles
exceptions, and behind an instruction that does not continue. If no state changes between the last such
label and the real instruction at its place, the frame there is that of the state of the instruction.
-/
namespace JvmArchive

namespace Instruction

/-! ## Entries at places -/

/-- The entries that take no room at a place: those right before its real instruction, or at the end. -/
def entriesAt : Nat → List Instruction → List Instruction
  | _, [] => []
  | 0, instruction :: rest => if instruction.isPseudo then instruction :: entriesAt 0 rest else []
  | place + 1, instruction :: rest =>
    if instruction.isPseudo then entriesAt (place + 1) rest else entriesAt place rest

/-- The labels at a place. -/
def labelsAt (place : Nat) (instructions : List Instruction) : List Label :=
  placed (entriesAt place instructions)

/-- The frame that an entry is. -/
def frame? : Instruction → Option StackFrame
  | .frame stated => some stated
  | _ => none

/-- The frame at a place; of several the last one counts. -/
def frameAt (place : Nat) (instructions : List Instruction) : Option StackFrame :=
  ((entriesAt place instructions).filterMap frame?).getLast?

/-- The place of an entry: how many real instructions stand before it. -/
def placeAt (instructions : List Instruction) (index : Nat) : Nat :=
  (real (instructions.take index)).length

variable {instruction : Instruction} {instructions rest : List Instruction} {place index : Nat}

theorem placeAt_cons_pseudo (h : instruction.isPseudo = true) (rest : List Instruction) (index : Nat) :
    placeAt (instruction :: rest) (index + 1) = placeAt rest index := by
  simp [placeAt, real, h]

theorem placeAt_cons_real (h : instruction.isPseudo = false) (rest : List Instruction) (index : Nat) :
    placeAt (instruction :: rest) (index + 1) = placeAt rest index + 1 := by
  simp [placeAt, real, h]

theorem entriesAt_cons_real (h : instruction.isPseudo = false) (rest : List Instruction) (place : Nat) :
    entriesAt (place + 1) (instruction :: rest) = entriesAt place rest := by
  simp [entriesAt, h]

theorem entriesAt_zero_real (h : instruction.isPseudo = false) (rest : List Instruction) :
    entriesAt 0 (instruction :: rest) = [] := by
  simp [entriesAt, h]

/-- Entries that take no room are all at the first place. -/
theorem entriesAt_append {entries : List Instruction}
    (h : ∀ entry ∈ entries, entry.isPseudo = true) (rest : List Instruction) (place : Nat) :
    entriesAt place (entries ++ rest) =
      (if place = 0 then entries else []) ++ entriesAt place rest := by
  induction entries with
  | nil => simp
  | cons entry entries ih =>
    obtain ⟨hentry, hentries⟩ := List.forall_mem_cons.1 h
    have hrest := ih hentries
    cases place <;> simpa [entriesAt, hentry] using hrest

theorem entriesAt_cons_pseudo (h : instruction.isPseudo = true) (rest : List Instruction)
    (place : Nat) : entriesAt place (instruction :: rest) =
      (if place = 0 then [instruction] else []) ++ entriesAt place rest := by
  have hentries : ∀ entry ∈ [instruction], entry.isPseudo = true :=
    fun entry hentry => List.mem_singleton.1 hentry ▸ h
  exact entriesAt_append hentries rest place

theorem mem_entriesAt (h : instructions[index]? = some instruction)
    (hpseudo : instruction.isPseudo = true) :
    instruction ∈ entriesAt (placeAt instructions index) instructions := by
  induction instructions generalizing index with
  | nil => cases h
  | cons first rest ih =>
    cases index with
    | zero =>
      cases h
      have hzero : placeAt (instruction :: rest) 0 = 0 := rfl
      rw [hzero, entriesAt, if_pos hpseudo]
      exact List.mem_cons_self
    | succ index =>
      have hmem := ih h
      cases hfirst : first.isPseudo with
      | true =>
        rw [placeAt_cons_pseudo hfirst, entriesAt_cons_pseudo hfirst]
        exact List.mem_append_right _ hmem
      | false =>
        rw [placeAt_cons_real hfirst, entriesAt_cons_real hfirst]
        exact hmem

theorem getElem?_real (h : instructions[index]? = some instruction)
    (hreal : instruction.isPseudo = false) :
    (real instructions)[placeAt instructions index]? = some instruction := by
  induction instructions generalizing index with
  | nil => cases h
  | cons first rest ih =>
    cases index with
    | zero =>
      cases h
      simp [placeAt, real, hreal]
    | succ index =>
      have hrest := ih h
      cases hfirst : first.isPseudo with
      | true => simpa [placeAt_cons_pseudo hfirst, real, hfirst] using hrest
      | false => simpa [placeAt_cons_real hfirst, real, hfirst] using hrest

/-- Between two entries with nothing that takes room they have one place. -/
theorem placeAt_eq_of_pseudo {later : Nat} (hle : index ≤ later)
    (h : ∀ between, index ≤ between → between < later →
      ∃ entry, instructions[between]? = some entry ∧ entry.isPseudo = true) :
    placeAt instructions later = placeAt instructions index := by
  induction later, hle using Nat.le_induction with
  | base => rfl
  | succ later hle ih =>
    obtain ⟨entry, hentry, hpseudo⟩ := h later hle (Nat.lt_succ_self later)
    rw [← ih fun between hfrom hto => h between hfrom (Nat.lt_succ_of_lt hto)]
    obtain ⟨hlt, hget⟩ := List.getElem?_eq_some_iff.1 hentry
    rw [placeAt, List.take_succ_eq_append_getElem hlt, real_append, hget, placeAt]
    simp [real, hpseudo]

theorem entriesAt_withoutFrames (place : Nat) (instructions : List Instruction) :
    entriesAt place (withoutFrames instructions) = withoutFrames (entriesAt place instructions) := by
  induction instructions generalizing place with
  | nil => cases place <;> rfl
  | cons instruction rest ih =>
    cases hpseudo : instruction.isPseudo with
    | false =>
      have hframe : instruction.isFrame = false := by
        cases instruction <;> first | rfl | cases hpseudo
      rw [withoutFrames_cons hframe]
      cases place with
      | zero => rw [entriesAt_zero_real hpseudo, entriesAt_zero_real hpseudo]; rfl
      | succ place => rw [entriesAt_cons_real hpseudo, entriesAt_cons_real hpseudo, ih]
    | true =>
      have hentries : ∀ entry ∈ withoutFrames [instruction], entry.isPseudo = true :=
        fun entry hentry => List.mem_singleton.1 (List.mem_filter.1 hentry).1 ▸ hpseudo
      rw [← List.singleton_append, withoutFrames_append, List.singleton_append,
        entriesAt_append hentries, entriesAt_cons_pseudo hpseudo, ih]
      split
      · exact (List.filter_append _ _).symm
      · rfl

/-- Lists that differ only in their frames have the same labels at a place. -/
theorem labelsAt_congr {xs ys : List Instruction} (h : withoutFrames xs = withoutFrames ys)
    (place : Nat) : labelsAt place xs = labelsAt place ys := by
  have hlabels : ∀ instructions : List Instruction,
      labelsAt place instructions = placed (entriesAt place (withoutFrames instructions)) := by
    intro instructions
    rw [entriesAt_withoutFrames, placed_withoutFrames]
    rfl
  rw [hlabels, hlabels, h]

theorem exists_of_real {x : Instruction} (h : (real instructions)[place]? = some x) :
    ∃ index, instructions[index]? = some x ∧ placeAt instructions index = place ∧
      x.isPseudo = false := by
  induction instructions generalizing place with
  | nil => cases h
  | cons first rest ih =>
    cases hfirst : first.isPseudo with
    | true =>
      have hreal : real (first :: rest) = real rest := by simp [real, hfirst]
      rw [hreal] at h
      obtain ⟨index, hindex, hplace, hx⟩ := ih h
      exact ⟨index + 1, hindex, by rw [placeAt_cons_pseudo hfirst, hplace], hx⟩
    | false =>
      have hreal : real (first :: rest) = first :: real rest := by simp [real, hfirst]
      rw [hreal] at h
      cases place with
      | zero =>
        cases h
        exact ⟨0, rfl, rfl, hfirst⟩
      | succ place =>
        obtain ⟨index, hindex, hplace, hx⟩ := ih h
        exact ⟨index + 1, hindex, by rw [placeAt_cons_real hfirst, hplace], hx⟩

/-! ## Where a frame has to stand -/

/-- Whether the real instruction before a place does not continue with the next one. -/
def FollowsTerminal (instructions : List Instruction) : Nat → Prop
  | 0 => False
  | place + 1 => ∃ previous, (real instructions)[place]? = some previous ∧
      previous.opcode?.any Opcode.isTerminal = true

/-- Whether control comes to a place from elsewhere than the instruction before it. -/
def NeedsFrame (targets : List Label) (instructions : List Instruction) (place : Nat) : Prop :=
  (∃ label ∈ labelsAt place instructions, label ∈ targets) ∨ FollowsTerminal instructions place

end Instruction
open Instruction

namespace Encode

/-! ## Frames that are put into code -/

/-- The frame of a state, if there is one. -/
def frameOf (state : Option Flow.State) : List Instruction :=
  state.toList.map fun state => .frame state.toFrame

/-- Whether a frame is put before an entry. -/
def framed (isTarget : Label → Bool) (afterTerminal : Bool) : Instruction → Bool
  | .label place => isTarget place
  | instruction => !instruction.isPseudo && afterTerminal

/-- Whether the last real instruction does not continue once an entry has passed. -/
def terminalAfter (afterTerminal : Bool) (instruction : Instruction) : Bool :=
  if instruction.isPseudo then afterTerminal else instruction.opcode?.any Opcode.isTerminal

theorem placeFrames_cons (isTarget : Label → Bool) (afterTerminal : Bool) (instruction : Instruction)
    (state : Option Flow.State) (rest : List (Instruction × Option Flow.State)) :
    placeFrames isTarget afterTerminal ((instruction, state) :: rest) =
      (if framed isTarget afterTerminal instruction then frameOf state else []) ++
        (withoutFrames [instruction] ++
          placeFrames isTarget (terminalAfter afterTerminal instruction) rest) := by
  cases instruction <;> rfl

variable {isTarget : Label → Bool} {afterTerminal : Bool} {instruction : Instruction}
  {state : Option Flow.State} {items rest : List (Instruction × Option Flow.State)}

theorem withoutFrames_placeFrames (isTarget : Label → Bool) (afterTerminal : Bool)
    (items : List (Instruction × Option Flow.State)) :
    withoutFrames (placeFrames isTarget afterTerminal items) = withoutFrames (items.map (·.1)) := by
  induction items generalizing afterTerminal with
  | nil => rfl
  | cons item rest ih =>
    obtain ⟨instruction, state⟩ := item
    have hframe : ∀ wanted : Bool,
        withoutFrames (if wanted then frameOf state else []) = [] := by
      intro wanted
      cases wanted <;> cases state <;> rfl
    have hkept : withoutFrames (withoutFrames [instruction]) = withoutFrames [instruction] :=
      List.filter_filter.trans (by simp only [Bool.and_self]; rfl)
    rw [placeFrames_cons, withoutFrames_append, withoutFrames_append, hframe, hkept, ih,
      List.nil_append, ← withoutFrames_append]
    rfl

/-- Every frame is that of the state of some entry. -/
theorem exists_state_of_frame {stated : StackFrame}
    (h : .frame stated ∈ placeFrames isTarget afterTerminal items) :
    ∃ item ∈ items, ∃ state, item.2 = some state ∧ stated = state.toFrame := by
  induction items generalizing afterTerminal with
  | nil => cases h
  | cons item rest ih =>
    obtain ⟨instruction, state⟩ := item
    rw [placeFrames_cons, List.mem_append, List.mem_append] at h
    rcases h with hframe | hentry | hrest
    · split at hframe
      · obtain ⟨found, hfound, heq⟩ := List.mem_map.1 hframe
        cases heq
        exact ⟨_, List.mem_cons_self, found, Option.mem_toList.1 hfound, rfl⟩
      · cases hframe
    · have hother := (List.mem_filter.1 hentry).2
      cases hother
    · obtain ⟨found, hfound, hstate⟩ := ih hrest
      exact ⟨found, List.mem_cons_of_mem _ hfound, hstate⟩

theorem frames_frameOf (state : Option Flow.State) :
    ((frameOf state).filterMap frame?).getLast? = state.map (·.toFrame) := by
  cases state <;> rfl

theorem frameAt_cons_pseudo (h : instruction.isPseudo = true) (place : Nat) :
    frameAt place (placeFrames isTarget afterTerminal ((instruction, state) :: rest)) =
      (frameAt place (placeFrames isTarget afterTerminal rest)).or
        (if place = 0 ∧ framed isTarget afterTerminal instruction = true then state.map (·.toFrame)
          else none) := by
  have hafter : terminalAfter afterTerminal instruction = afterTerminal := if_pos h
  have hentries : ∀ entry ∈ (if framed isTarget afterTerminal instruction then frameOf state else []) ++
      withoutFrames [instruction], entry.isPseudo = true := by
    intro entry hentry
    rcases List.mem_append.1 hentry with hframe | hself
    · split at hframe
      · obtain ⟨found, -, rfl⟩ := List.mem_map.1 hframe
        rfl
      · cases hframe
    · exact List.mem_singleton.1 (List.mem_filter.1 hself).1 ▸ h
  have hself : (withoutFrames [instruction]).filterMap frame? = [] := by
    cases instruction <;> rfl
  rw [placeFrames_cons, hafter, ← List.append_assoc, frameAt, entriesAt_append hentries,
    List.filterMap_append, List.getLast?_append, ← frameAt]
  congr 1
  by_cases hplace : place = 0
  · rw [if_pos hplace, List.filterMap_append, hself, List.append_nil]
    cases framed isTarget afterTerminal instruction with
    | true => simp only [hplace, if_true, and_self, frames_frameOf]
    | false => simp
  · simp [hplace]

/-- What stands before a real instruction is its frame, if it gets one. -/
theorem entriesAt_cons_framed (h : instruction.isPseudo = false) (place : Nat) :
    entriesAt place (placeFrames isTarget afterTerminal ((instruction, state) :: rest)) =
      (if place = 0 then if afterTerminal then frameOf state else [] else []) ++
        entriesAt place (instruction ::
          placeFrames isTarget (instruction.opcode?.any Opcode.isTerminal) rest) := by
  have hplain : framed isTarget afterTerminal instruction = afterTerminal ∧
      withoutFrames [instruction] = [instruction] ∧ terminalAfter afterTerminal instruction =
        instruction.opcode?.any Opcode.isTerminal := by
    refine ⟨?_, ?_, if_neg (by rw [h]; exact Bool.false_ne_true)⟩
    · cases instruction <;> first | rfl | cases h
    · cases instruction <;> first | rfl | cases h
  have hentries : ∀ entry ∈ (if afterTerminal then frameOf state else []), entry.isPseudo = true := by
    intro entry hentry
    split at hentry
    · obtain ⟨found, -, rfl⟩ := List.mem_map.1 hentry
      rfl
    · cases hentry
  rw [placeFrames_cons, hplain.1, hplain.2.1, hplain.2.2, entriesAt_append hentries]
  rfl

theorem frameAt_zero_real (h : instruction.isPseudo = false) :
    frameAt 0 (placeFrames isTarget afterTerminal ((instruction, state) :: rest)) =
      if afterTerminal then state.map (·.toFrame) else none := by
  rw [frameAt, entriesAt_cons_framed h, entriesAt_zero_real h, if_pos rfl, List.append_nil]
  split
  · exact frames_frameOf state
  · rfl

theorem frameAt_cons_real (h : instruction.isPseudo = false) (place : Nat) :
    frameAt (place + 1) (placeFrames isTarget afterTerminal ((instruction, state) :: rest)) =
      frameAt place (placeFrames isTarget (instruction.opcode?.any Opcode.isTerminal) rest) := by
  rw [frameAt, entriesAt_cons_framed h, entriesAt_cons_real h, if_neg (Nat.succ_ne_zero place)]
  rfl

/-! ## Frames and states -/

/-- Whether no state changes from an entry that takes no room to the next one, unless that is a label to
which control jumps. -/
def Steady (isTarget : Label → Bool) (items : List (Instruction × Option Flow.State)) : Prop :=
  ∀ (i : Nat) (x y : Instruction) (s t : Option Flow.State), items[i]? = some (x, s) →
    items[i + 1]? = some (y, t) → x.isPseudo = true →
      (∀ label, y = .label label → isTarget label = false) → t = s

theorem Steady.tail {item : Instruction × Option Flow.State} (h : Steady isTarget (item :: rest)) :
    Steady isTarget rest := fun i => h (i + 1)

theorem labelsAt_zero_pseudo (h : instruction.isPseudo = true) (instructions : List Instruction) :
    labelsAt 0 (instruction :: instructions) =
      instruction.placed?.toList ++ labelsAt 0 instructions := by
  rw [labelsAt, entriesAt_cons_pseudo h, if_pos rfl, placed_append]
  cases instruction <;> rfl

/-- Where no label is a target the state does not change up to the real instruction. -/
theorem Steady.state_eq {entry instruction : Instruction} {s : Option Flow.State} {found : Flow.State}
    (hsteady : Steady isTarget ((entry, s) :: items)) (hentry : entry.isPseudo = true) {index : Nat}
    (hitem : items[index]? = some (instruction, some found)) (hreal : instruction.isPseudo = false)
    (hplace : placeAt (items.map (·.1)) index = 0)
    (hlabels : ∀ label ∈ labelsAt 0 (items.map (·.1)), isTarget label = false) : s = some found := by
  induction items generalizing entry s index with
  | nil => cases hitem
  | cons item rest ih =>
    obtain ⟨next, t⟩ := item
    cases index with
    | zero =>
      cases hitem
      refine (hsteady 0 _ _ _ _ rfl rfl hentry ?_).symm
      rintro label rfl
      cases hreal
    | succ index =>
      cases hnext : next.isPseudo with
      | false =>
        rw [List.map_cons, placeAt_cons_real hnext] at hplace
        cases hplace
      | true =>
        rw [List.map_cons, placeAt_cons_pseudo hnext] at hplace
        rw [List.map_cons, labelsAt_zero_pseudo hnext] at hlabels
        have hstate : t = s := by
          refine hsteady 0 _ _ _ _ rfl rfl hentry ?_
          rintro label rfl
          exact hlabels label (List.mem_append_left _ (List.mem_singleton.2 rfl))
        rw [← hstate]
        exact ih hsteady.tail hnext hitem hplace fun label hlabel =>
          hlabels label (List.mem_append_right _ hlabel)

/-- Whether a frame is put at a place: a target stands there, or the instruction before it does not
continue. -/
def Comes (isTarget : Label → Bool) (afterTerminal : Bool) (instructions : List Instruction)
    (place : Nat) : Prop :=
  (∃ label ∈ labelsAt place instructions, isTarget label = true) ∨
    (place = 0 ∧ afterTerminal = true) ∨ FollowsTerminal instructions place

theorem comes_zero_real (h : instruction.isPseudo = false) (instructions : List Instruction) :
    Comes isTarget afterTerminal (instruction :: instructions) 0 ↔ afterTerminal = true := by
  simp [Comes, labelsAt, entriesAt_zero_real h, placed, FollowsTerminal]

theorem comes_cons_real (h : instruction.isPseudo = false) (instructions : List Instruction)
    (place : Nat) : Comes isTarget afterTerminal (instruction :: instructions) (place + 1) ↔
      Comes isTarget (instruction.opcode?.any Opcode.isTerminal) instructions place := by
  have hreal : real (instruction :: instructions) = instruction :: real instructions := by
    simp [real, h]
  simp only [Comes, labelsAt, entriesAt_cons_real h, FollowsTerminal, hreal]
  cases place <;> simp

theorem comes_cons_pseudo (h : instruction.isPseudo = true) (instructions : List Instruction)
    (place : Nat) : Comes isTarget afterTerminal (instruction :: instructions) place ↔
      (place = 0 ∧ framed isTarget afterTerminal instruction = true) ∨
        Comes isTarget afterTerminal instructions place := by
  have hfollows : FollowsTerminal (instruction :: instructions) place ↔
      FollowsTerminal instructions place := by
    have hreal : real (instruction :: instructions) = real instructions := by
      simp [real, h]
    cases place with
    | zero => exact Iff.rfl
    | succ place => rw [FollowsTerminal, FollowsTerminal, hreal]
  have hlabels : (∃ label ∈ labelsAt place (instruction :: instructions), isTarget label = true) ↔
      (place = 0 ∧ framed isTarget afterTerminal instruction = true) ∨
        ∃ label ∈ labelsAt place instructions, isTarget label = true := by
    by_cases hplace : place = 0
    · subst hplace
      rw [labelsAt_zero_pseudo h]
      cases instruction with
      | label | line | frame => simp [placed?, framed, isPseudo]
      | _ => cases h
    · rw [labelsAt, entriesAt_cons_pseudo h, if_neg hplace, List.nil_append, ← labelsAt]
      simp [hplace]
  rw [Comes, Comes, hlabels, hfollows, or_assoc]

/-- The frame at the place of a real instruction: that of its state if a frame is put there, and none
otherwise. -/
theorem frameAt_placeFrames {x : Instruction} {found : Flow.State} (hsteady : Steady isTarget items)
    {index : Nat} (hitem : items[index]? = some (x, some found)) (hreal : x.isPseudo = false) :
    (Comes isTarget afterTerminal (items.map (·.1)) (placeAt (items.map (·.1)) index) →
      frameAt (placeAt (items.map (·.1)) index) (placeFrames isTarget afterTerminal items) =
        some found.toFrame) ∧
    (¬Comes isTarget afterTerminal (items.map (·.1)) (placeAt (items.map (·.1)) index) →
      frameAt (placeAt (items.map (·.1)) index) (placeFrames isTarget afterTerminal items) = none) := by
  induction items generalizing index afterTerminal with
  | nil => cases hitem
  | cons item rest ih =>
    obtain ⟨y, s⟩ := item
    rw [List.map_cons]
    cases index with
    | zero =>
      cases hitem
      have hzero : placeAt (x :: rest.map (·.1)) 0 = 0 := rfl
      rw [hzero, comes_zero_real hreal, frameAt_zero_real hreal]
      exact ⟨fun hafter => if_pos hafter, fun hafter => if_neg hafter⟩
    | succ index =>
      cases hy : y.isPseudo with
      | false =>
        rw [placeAt_cons_real hy, comes_cons_real hy, frameAt_cons_real hy]
        exact ih hsteady.tail hitem
      | true =>
        rw [placeAt_cons_pseudo hy, comes_cons_pseudo hy, frameAt_cons_pseudo hy]
        obtain ⟨hput, hnone⟩ := ih hsteady.tail hitem
        by_cases hrest : Comes isTarget afterTerminal (rest.map (·.1)) (placeAt (rest.map (·.1)) index)
        · rw [hput hrest, Option.some_or]
          exact ⟨fun _ => rfl, fun hnot => absurd (.inr hrest) hnot⟩
        · rw [hnone hrest, Option.none_or]
          refine ⟨fun hcomes => ?_, fun hnot => if_neg fun hhere => hnot (.inl hhere)⟩
          -- The last target before the instruction: nothing behind it changes the state.
          have hhere := hcomes.resolve_right hrest
          have hlabels : ∀ label ∈ labelsAt 0 (rest.map (·.1)), isTarget label = false := by
            intro label hlabel
            by_contra htarget
            rw [hhere.1] at hrest
            exact hrest (.inl ⟨label, hlabel, by simpa using htarget⟩)
          rw [if_pos hhere, hsteady.state_eq hy hitem hreal hhere.1 hlabels, Option.map_some]

/-- At the end stands no frame if nothing behind the last real instruction has a state. -/
theorem frameAt_end (h : ∀ (index : Nat) (x : Instruction) (s : Option Flow.State),
    items[index]? = some (x, s) → x.isPseudo = true →
      placeAt (items.map (·.1)) index = (real (items.map (·.1))).length → s = none) :
    frameAt (real (items.map (·.1))).length (placeFrames isTarget afterTerminal items) = none := by
  induction items generalizing afterTerminal with
  | nil => rfl
  | cons item rest ih =>
    obtain ⟨y, s⟩ := item
    cases hy : y.isPseudo with
    | false =>
      have hreal : real (y :: rest.map (·.1)) = y :: real (rest.map (·.1)) := by simp [real, hy]
      rw [List.map_cons, hreal, List.length_cons, frameAt_cons_real hy]
      refine ih fun index x state hitem hx hplace => h (index + 1) x state hitem hx ?_
      rw [List.map_cons, placeAt_cons_real hy, hplace, hreal, List.length_cons]
    | true =>
      have hreal : real (y :: rest.map (·.1)) = real (rest.map (·.1)) := by simp [real, hy]
      rw [List.map_cons, hreal, frameAt_cons_pseudo hy, ih, Option.none_or]
      · split
        next hhere =>
          have hend : placeAt (((y, s) :: rest).map (·.1)) 0 =
              (real (((y, s) :: rest).map (·.1))).length := by
            rw [List.map_cons, hreal, hhere.1]
            rfl
          rw [h 0 y s rfl hy hend]
          rfl
        next => rfl
      · intro index x state hitem hx hplace
        refine h (index + 1) x state hitem hx ?_
        rw [List.map_cons, placeAt_cons_pseudo hy, hplace, hreal]

theorem targets_labelSites (labelled : Bool) (next : UInt32) (instructions : List Instruction) :
    (labelSites labelled next instructions).flatMap Instruction.targets =
      instructions.flatMap Instruction.targets := by
  obtain ⟨seen, rfl⟩ : ∃ seen : Option Label, labelled = seen.isSome := by
    cases labelled
    · exact ⟨none, rfl⟩
    · exact ⟨some default, rfl⟩
  induction instructions generalizing seen next with
  | nil => rfl
  | cons x rest ih =>
    rcases labelSites_cons seen next x rest with ⟨hsites, -⟩ | ⟨-, rfl, hsites⟩
    · rw [hsites, List.flatMap_cons, ih, List.flatMap_cons]
    · rw [hsites, List.flatMap_cons, List.flatMap_cons, ih, List.flatMap_cons]
      rfl

end Encode
end JvmArchive
