import JvmArchive.Proofs.ClassFile.Code.Lines

/-!
# Frames read back

Each frame is stated as a change of the one before it, and read against what that one was read as.
-/
namespace JvmArchive

/-- Two types of frame entries say the same, given which labels do. -/
inductive VerificationType.Matches (same : Label → Label → Prop) :
    VerificationType → VerificationType → Prop
  | plain {type : VerificationType} (h : ∀ site, type ≠ .uninitialized site) : Matches same type type
  | uninitialized {site site' : Label} (h : same site site') :
    Matches same (.uninitialized site) (.uninitialized site')

/-- Two frames say the same. -/
structure StackFrame.Matches (same : Label → Label → Prop) (frame back : StackFrame) : Prop where
  locals : List.Forall₂ (VerificationType.Matches same) frame.locals back.locals
  stack : List.Forall₂ (VerificationType.Matches same) frame.stack back.stack

/-- The name of a class in a frame fits. -/
def VerificationType.Fits : VerificationType → Prop
  | .object name => TextFits name
  | _ => True

/-- The entries of a frame fit, and so do their numbers. -/
structure StackFrame.Fits (frame : StackFrame) : Prop where
  locals : frame.locals.length < 65536 ∧ ∀ type ∈ frame.locals, type.Fits
  stack : frame.stack.length < 65536 ∧ ∀ type ∈ frame.stack, type.Fits

namespace Encode
open PoolBuilder PoolWriter Reader Decode

variable {offset : Label → Except WriteError Nat} {places : List Nat} {isInstruction : Nat → Bool}
  {entryLocals : List VerificationType}

/-- The bytes of the type of a frame entry. -/
def ReadsType (offset : Label → Except WriteError Nat) (places : List Nat) (type : VerificationType)
    (final : PoolBuilder) (bytes : List UInt8) : Prop :=
  Mapped offset places → Asks places (Decode.verificationType final.toPool) bytes fun table back =>
    VerificationType.Matches (Meets offset table) type back

theorem readsType_object {name : String} {index : UInt16} {final : PoolBuilder}
    (h : final.toPool.className index = .ok name) :
    ReadsType offset places (.object name) final (7 :: Bytes.ofUInt16 index) := by
  intro _
  have hbytes : 7 :: Bytes.ofUInt16 index = [7] ++ (Bytes.ofUInt16 index ++ []) := rfl
  rw [hbytes]
  apply asks_read (reads_uint8 7)
  apply asks_read (reads_uint16 index)
  exact asks_lift h (asks_pure fun _ => .plain nofun)

theorem readsType_uninitialized {site : Label} {place : Nat} (h : offset site = .ok place)
    (final : PoolBuilder) :
    ReadsType offset places (.uninitialized site) final (8 :: Bytes.ofNat16 place) := by
  intro hmapped
  have hbytes : 8 :: Bytes.ofNat16 place = [8] ++ Bytes.ofNat16 place := rfl
  rw [hbytes]
  apply asks_read (reads_uint8 8)
  show Asks places (liftM Reader.uint16 >>= fun word => labelAt (UInt16.toNat word) >>= fun site =>
    pure (VerificationType.uninitialized site)) (Bytes.ofNat16 place) _
  rw [← bind_assoc]
  apply (asks_place hmapped h).bind_pure
  intro table site' hsite
  exact .uninitialized hsite

theorem yields_verificationType {type : VerificationType} (h : type.Fits) :
    Yields (Encode.verificationType offset type) (ReadsType offset places type) := by
  cases type with
  | object name =>
    apply (yields_classIndex h).bind_pure
    rintro final _ - ⟨index, rfl, -, hindex⟩
    exact readsType_object hindex
  | uninitialized site =>
    apply yields_lift_bind
    intro place hplace
    exact yields_pure fun final _ => readsType_uninitialized hplace final
  | _ =>
    apply yields_pure
    intro final _ _
    exact asks_read (reads_uint8 _) (asks_pure fun _ => .plain nofun)

/-- The types of frame entries, one after the other. -/
theorem asks_types {final : PoolBuilder} {types : List VerificationType} {bytes : List UInt8}
    (h : ReadsEach (ReadsType offset places) types final bytes) (hmapped : Mapped offset places) :
    Asks places (timesWithLabels types.length (Decode.verificationType final.toPool)) bytes
      fun table back => List.Forall₂ (VerificationType.Matches (Meets offset table)) types back := by
  obtain ⟨chunks, rfl, hchunks⟩ := h
  exact asks_times (hchunks.imp fun _ _ hchunk => hchunk hmapped)

/-- What a frame form says about the local variables before it and the frame. -/
theorem frameForm_spec (previous : List VerificationType) (frame : StackFrame) :
    match frameForm previous frame with
    | .same => frame.locals = previous ∧ frame.stack = []
    | .sameWith item => frame.locals = previous ∧ frame.stack = [item]
    | .chop count => 1 ≤ count ∧ count ≤ 3 ∧ count ≤ previous.length ∧
      frame.locals = previous.take (previous.length - count) ∧ frame.stack = []
    | .append added => 1 ≤ added.length ∧ added.length ≤ 3 ∧ frame.locals = previous ++ added ∧
      frame.stack = []
    | .full => True := by
  obtain ⟨locals, stack⟩ := frame
  unfold frameForm
  rcases stack with _ | ⟨item, _ | ⟨other, rest⟩⟩ <;> by_cases hsame : locals = previous
  · simp [hsame]
  · simp only [hsame, decide_false]
    by_cases happend : previous.length < locals.length ∧ locals.length - previous.length ≤ 3 ∧
        locals.take previous.length = previous
    · obtain ⟨hlt, hfew, htake⟩ := happend
      rw [if_pos ⟨hlt, hfew, htake⟩]
      simp only [List.length_drop]
      refine ⟨by omega, hfew, ?_, trivial⟩
      have hsplit := List.take_append_drop previous.length locals
      rw [htake] at hsplit
      exact hsplit.symm
    · rw [if_neg happend]
      by_cases hchop : locals.length < previous.length ∧ previous.length - locals.length ≤ 3 ∧
          previous.take locals.length = locals
      · obtain ⟨hlt, hfew, htake⟩ := hchop
        rw [if_pos ⟨hlt, hfew, htake⟩]
        have hkept : previous.length - (previous.length - locals.length) = locals.length := by omega
        simp only [hkept]
        exact ⟨by omega, hfew, by omega, htake.symm, trivial⟩
      · rw [if_neg hchop]
        trivial
  · simp [hsame]
  · simp [hsame]
  · simp
  · simp

/-- The distance and the entries of a frame, read on the local variables of the one before it. -/
def ReadsFrame (offset : Label → Except WriteError Nat) (places : List Nat)
    (previous : List VerificationType) (delta : UInt16) (frame : StackFrame) (final : PoolBuilder)
    (bytes : List UInt8) : Prop :=
  Mapped offset places → ∀ locals : List VerificationType,
    Asks places (frameAfter final.toPool locals) bytes fun table found =>
      found.1 = delta.toNat ∧
        (List.Forall₂ (VerificationType.Matches (Meets offset table)) previous locals →
          StackFrame.Matches (Meets offset table) frame found.2)

theorem distance_short {delta : UInt16} (h : delta < 64) (short : Nat) (hshort : short ≤ 64) :
    (short + delta.toNat).toUInt8.toNat = short + delta.toNat := by
  rw [UInt16.lt_iff_toNat_lt] at h
  have hlt : delta.toNat < 64 := h
  exact Bytes.toNat_toUInt8 (by omega)

/-- A frame with the same local variables and an empty stack. -/
theorem readsFrame_same {previous : List VerificationType} {delta : UInt16} {frame : StackFrame}
    {final : PoolBuilder} (hlocals : frame.locals = previous) (hstack : frame.stack = []) :
    ReadsFrame offset places previous delta frame final (distance 0 251 delta) := by
  intro hmapped locals
  have hframe : ∀ table : LabelTable,
      List.Forall₂ (VerificationType.Matches (Meets offset table)) previous locals →
        StackFrame.Matches (Meets offset table) frame { locals } := by
    intro table hprevious
    rw [← hlocals] at hprevious
    refine ⟨hprevious, ?_⟩
    rw [hstack]
    exact .nil
  unfold distance
  by_cases hshort : delta < 64
  · rw [if_pos hshort]
    have hnat := distance_short hshort 0 (by omega)
    have hkind : (0 + delta.toNat).toUInt8 ≤ 63 := by
      rw [UInt8.le_iff_toNat_le, hnat]
      rw [UInt16.lt_iff_toNat_lt] at hshort
      exact Nat.le_of_lt_succ (by simpa using hshort)
    unfold frameAfter
    have hread := reads_uint8 (0 + delta.toNat).toUInt8
    rw [← List.append_nil [(0 + delta.toNat).toUInt8]]
    apply asks_read hread
    rw [if_pos hkind]
    apply asks_pure
    intro table
    exact ⟨by rw [hnat, Nat.zero_add], hframe table⟩
  · rw [if_neg hshort]
    have hbytes : Nat.toUInt8 251 :: Bytes.ofUInt16 delta = [251] ++ (Bytes.ofUInt16 delta ++ []) :=
      rfl
    rw [hbytes]
    apply asks_read (reads_uint8 251)
    apply asks_read (reads_uint16 delta)
    apply asks_pure
    intro table
    exact ⟨rfl, hframe table⟩

/-- A frame with the same local variables and one value on the stack. -/
theorem readsFrame_sameWith {previous : List VerificationType} {delta : UInt16} {frame : StackFrame}
    {final : PoolBuilder} {item : VerificationType} {bytes : List UInt8}
    (hlocals : frame.locals = previous) (hstack : frame.stack = [item])
    (hitem : ReadsType offset places item final bytes) :
    ReadsFrame offset places previous delta frame final (distance 64 247 delta ++ bytes) := by
  intro hmapped locals
  have hframe : ∀ (table : LabelTable) (back : VerificationType),
      VerificationType.Matches (Meets offset table) item back →
        List.Forall₂ (VerificationType.Matches (Meets offset table)) previous locals →
          StackFrame.Matches (Meets offset table) frame { locals, stack := [back] } := by
    intro table back hback hprevious
    rw [← hlocals] at hprevious
    refine ⟨hprevious, ?_⟩
    rw [hstack]
    exact .cons hback .nil
  unfold distance
  by_cases hshort : delta < 64
  · rw [if_pos hshort]
    have hnat := distance_short hshort 64 (by omega)
    have hlt : delta.toNat < 64 := by simpa [UInt16.lt_iff_toNat_lt] using hshort
    have hkind : ¬(64 + delta.toNat).toUInt8 ≤ 63 := by
      rw [UInt8.le_iff_toNat_le, hnat]
      exact Nat.not_le.2 (Nat.lt_of_lt_of_le (by decide) (Nat.le_add_right 64 _))
    have hkind' : (64 + delta.toNat).toUInt8 ≤ 127 := by
      rw [UInt8.le_iff_toNat_le, hnat]
      exact Nat.add_le_add_left (Nat.le_of_lt_succ hlt) 64
    unfold frameAfter
    apply asks_read (reads_uint8 (64 + delta.toNat).toUInt8)
    rw [if_neg hkind, if_pos hkind']
    apply (hitem hmapped).bind_pure
    intro table back hback
    exact ⟨by rw [hnat, Nat.add_sub_cancel_left], hframe table back hback⟩
  · rw [if_neg hshort]
    have hbytes : Nat.toUInt8 247 :: Bytes.ofUInt16 delta ++ bytes =
        [247] ++ (Bytes.ofUInt16 delta ++ bytes) := rfl
    rw [hbytes]
    apply asks_read (reads_uint8 247)
    apply asks_read (reads_uint16 delta)
    apply (hitem hmapped).bind_pure
    intro table back hback
    exact ⟨rfl, hframe table back hback⟩

/-- A frame with some local variables less. -/
theorem readsFrame_chop {previous : List VerificationType} {delta : UInt16} {frame : StackFrame}
    {final : PoolBuilder} {count : Nat} (hpos : 1 ≤ count) (hfew : count ≤ 3)
    (hlocals : frame.locals = previous.take (previous.length - count)) (hstack : frame.stack = []) :
    ReadsFrame offset places previous delta frame final
      ((251 - count).toUInt8 :: Bytes.ofUInt16 delta) := by
  intro hmapped locals
  have hbytes : (251 - count).toUInt8 :: Bytes.ofUInt16 delta =
      [(251 - count).toUInt8] ++ (Bytes.ofUInt16 delta ++ []) := by simp
  have hframe : ∀ table : LabelTable,
      List.Forall₂ (VerificationType.Matches (Meets offset table)) previous locals →
        StackFrame.Matches (Meets offset table) frame
          { locals := locals.take (locals.length - count) } := by
    intro table hprevious
    constructor
    · rw [hlocals, ← hprevious.length_eq]
      exact List.forall₂_take _ hprevious
    · rw [hstack]
      exact .nil
  rw [hbytes]
  apply asks_read (reads_uint8 _)
  have hcases : count = 1 ∨ count = 2 ∨ count = 3 := by omega
  rcases hcases with rfl | rfl | rfl
  all_goals
    apply asks_read (reads_uint16 delta)
    apply asks_pure
    intro table
    exact ⟨rfl, hframe table⟩

/-- A frame with some local variables more. -/
theorem readsFrame_append {previous : List VerificationType} {delta : UInt16} {frame : StackFrame}
    {final : PoolBuilder} {added : List VerificationType} {bytes : List UInt8}
    (hpos : 1 ≤ added.length) (hfew : added.length ≤ 3) (hlocals : frame.locals = previous ++ added)
    (hstack : frame.stack = [])
    (hadded : ReadsEach (ReadsType offset places) added final bytes) :
    ReadsFrame offset places previous delta frame final
      ((251 + added.length).toUInt8 :: (Bytes.ofUInt16 delta ++ bytes)) := by
  intro hmapped locals
  have hbytes : (251 + added.length).toUInt8 :: (Bytes.ofUInt16 delta ++ bytes) =
      [(251 + added.length).toUInt8] ++ (Bytes.ofUInt16 delta ++ bytes) := rfl
  have hframe : ∀ (table : LabelTable) (back : List VerificationType),
      List.Forall₂ (VerificationType.Matches (Meets offset table)) added back →
        List.Forall₂ (VerificationType.Matches (Meets offset table)) previous locals →
          StackFrame.Matches (Meets offset table) frame { locals := locals ++ back } := by
    intro table back hback hprevious
    constructor
    · rw [hlocals]
      exact List.rel_append hprevious hback
    · rw [hstack]
      exact .nil
  have hasks := asks_types hadded hmapped
  rw [hbytes]
  apply asks_read (reads_uint8 _)
  have hcases : added.length = 1 ∨ added.length = 2 ∨ added.length = 3 := by omega
  rcases hcases with hlength | hlength | hlength
  all_goals
    rw [hlength] at hasks ⊢
    apply asks_read (reads_uint16 delta)
    apply hasks.bind_pure
    intro table back hback
    exact ⟨rfl, hframe table back hback⟩

/-- A frame that is stated in full. -/
theorem readsFrame_full {previous : List VerificationType} {delta : UInt16} {frame : StackFrame}
    {final : PoolBuilder} {locals stack : List UInt8} (hlocalCount : frame.locals.length < 65536)
    (hstackCount : frame.stack.length < 65536)
    (hlocals : ReadsCounted (ReadsType offset places) frame.locals final locals)
    (hstack : ReadsCounted (ReadsType offset places) frame.stack final stack) :
    ReadsFrame offset places previous delta frame final
      (255 :: (Bytes.ofUInt16 delta ++ (locals ++ stack))) := by
  intro hmapped before
  obtain ⟨first, rfl, hfirst⟩ := hlocals
  obtain ⟨second, rfl, hsecond⟩ := hstack
  have hbytes : (255 : UInt8) :: (Bytes.ofUInt16 delta ++
      (Bytes.ofNat16 frame.locals.length ++ first ++ (Bytes.ofNat16 frame.stack.length ++ second))) =
        [255] ++ (Bytes.ofUInt16 delta ++ (Bytes.ofNat16 frame.locals.length ++
          (first ++ (Bytes.ofNat16 frame.stack.length ++ second)))) := by simp
  have hasks := asks_types hfirst hmapped
  have hasks' := asks_types hsecond hmapped
  rw [hbytes]
  apply asks_read (reads_uint8 255)
  apply asks_read (reads_uint16 delta)
  apply asks_read (reads_uint16 _)
  rw [Bytes.toNat_toUInt16 hlocalCount]
  apply hasks.bind
  intro locals
  apply asks_read (reads_uint16 _)
  rw [Bytes.toNat_toUInt16 hstackCount]
  apply hasks'.bind_pure
  intro table stack hstack hlocals
  exact ⟨rfl, fun _ => ⟨hlocals, hstack⟩⟩

theorem yields_frameBytes {previous : List VerificationType} {delta : UInt16} {frame : StackFrame}
    (h : frame.Fits) :
    Yields (frameBytes offset previous delta frame)
      (ReadsFrame offset places previous delta frame) := by
  have hform := frameForm_spec previous frame
  unfold frameBytes
  cases hcase : frameForm previous frame with
  | same =>
    rw [hcase] at hform
    exact yields_pure fun _ _ => readsFrame_same hform.1 hform.2
  | sameWith item =>
    rw [hcase] at hform
    have hitem : item.Fits := h.stack.2 item (by rw [hform.2]; exact List.mem_cons_self)
    apply (yields_verificationType hitem).bind_pure
    intro final bytes _ hbytes
    exact readsFrame_sameWith hform.1 hform.2 hbytes
  | chop count =>
    rw [hcase] at hform
    obtain ⟨hpos, hfew, -, hlocals, hstack⟩ := hform
    exact yields_pure fun _ _ => readsFrame_chop hpos hfew hlocals hstack
  | append added =>
    rw [hcase] at hform
    obtain ⟨hpos, hfew, hlocals, hstack⟩ := hform
    have hadded : ∀ type ∈ added, Yields (Encode.verificationType offset type)
        (ReadsType offset places type) := by
      intro type htype
      apply yields_verificationType
      apply h.locals.2
      rw [hlocals]
      exact List.mem_append_right _ htype
    apply (yields_concatM hadded).bind_pure
    intro final bytes _ hbytes
    exact readsFrame_append hpos hfew hlocals hstack hbytes
  | full =>
    apply (yields_countedEach fun type htype => yields_verificationType (h.locals.2 type htype)).bind
    intro locals
    apply (yields_countedEach fun type htype =>
      yields_verificationType (h.stack.2 type htype)).bind_pure
    intro final stack _ hstack hlocals
    exact readsFrame_full h.locals.1 h.stack.1 hlocals hstack

/-- Frames at ascending places, the first of them not before a base. -/
def Ascends : Nat → List (Nat × StackFrame) → Prop
  | _, [] => True
  | base, (place, _) :: rest => base ≤ place ∧ Ascends (place + 1) rest

/-- A frame at the same place that says the same. -/
def FrameAt (offset : Label → Except WriteError Nat) (table : LabelTable)
    (written found : Nat × StackFrame) : Prop :=
  found.1 = written.1 ∧ StackFrame.Matches (Meets offset table) written.2 found.2

/-- The chunks of frames, read on local variables that say the same as those before. -/
def ReadsFrames (offset : Label → Except WriteError Nat) (places : List Nat)
    (previous : List VerificationType) (base : Nat) (frames : List (Nat × StackFrame))
    (final : PoolBuilder) (chunks : List (List UInt8)) : Prop :=
  Mapped offset places → Ascends base frames → (∀ frame ∈ frames, frame.1 ∈ places) →
    ∀ (locals : List VerificationType) (read : List (Nat × StackFrame)),
      Asks places (Decode.framesFrom final.toPool frames.length locals base read) chunks.flatten
        fun table found =>
          List.Forall₂ (VerificationType.Matches (Meets offset table)) previous locals →
            ∃ more, found = read.reverse ++ more ∧
              List.Forall₂ (FrameAt offset table) frames more

theorem readsFrames_cons {previous : List VerificationType} {base place : Nat} {frame : StackFrame}
    {frames : List (Nat × StackFrame)} {final : PoolBuilder} {first : List UInt8}
    {rest : List (List UInt8)}
    (hfirst : ReadsFrame offset places previous (place - base).toUInt16 frame final first)
    (hrest : ReadsFrames offset places frame.locals (place + 1) frames final rest) :
    ReadsFrames offset places previous base ((place, frame) :: frames) final (first :: rest) := by
  intro hmapped hascends hplaces locals read
  obtain ⟨hle, hascends⟩ := hascends
  have hplace := hplaces _ List.mem_cons_self
  have hlt := hmapped.lt place hplace
  have hdelta : (place - base).toUInt16.toNat = place - base := Bytes.toNat_toUInt16 (by omega)
  have hrest' := hrest hmapped hascends fun other hother => hplaces other (List.mem_cons_of_mem _ hother)
  rw [List.length_cons, List.flatten_cons]
  unfold Decode.framesFrom
  apply (hfirst hmapped locals).bind_of (fun _ _ h => h.1)
  intro found hfound
  have hoffset : base + found.1 = place := by omega
  rw [← List.nil_append rest.flatten]
  dsimp only
  rw [hoffset]
  apply (asks_labelAt hplace).bind
  intro label
  apply (hrest' found.2.locals ((place, found.2) :: read)).mono
  intro table result hresult hlabel hframe hprevious
  have hmatches := hframe.2 hprevious
  obtain ⟨more, rfl, hmore⟩ := hresult hmatches.locals
  refine ⟨(place, found.2) :: more, ?_, .cons ⟨rfl, hmatches⟩ hmore⟩
  rw [List.reverse_cons, List.append_assoc]
  rfl

theorem yields_framesFrom {frames : List (Nat × StackFrame)} (h : ∀ frame ∈ frames, frame.2.Fits)
    (previous : List VerificationType) (base : Nat) :
    Yields (Encode.framesFrom offset previous base frames)
      (ReadsFrames offset places previous base frames) := by
  induction frames generalizing previous base with
  | nil =>
    apply yields_pure
    intro final _ _ _ _ locals read
    exact asks_pure fun _ _ => ⟨[], by simp, .nil⟩
  | cons frame frames ih =>
    obtain ⟨place, frame⟩ := frame
    apply (yields_frameBytes (h _ List.mem_cons_self)).bind
    intro first
    apply (ih (fun other hother => h other (List.mem_cons_of_mem _ hother)) _ _).bind_pure
    intro final rest _ hrest hfirst
    exact readsFrames_cons hfirst hrest

/-- A stack map gives the frames at their places. -/
theorem yields_stackMap {frames : List (Nat × StackFrame)} (h : ∀ frame ∈ frames, frame.2.Fits) :
    Yields (Encode.stackMap offset entryLocals frames) fun final bytes =>
      Mapped offset places → frames.length < 65536 → Ascends 0 frames →
        (∀ frame ∈ frames, frame.1 ∈ places) → ∀ locals : List VerificationType,
          Asks places (Decode.stackMap final.toPool locals) bytes fun table found =>
            List.Forall₂ (VerificationType.Matches (Meets offset table)) entryLocals locals →
              List.Forall₂ (FrameAt offset table) frames found := by
  apply (yields_framesFrom h entryLocals 0).bind_pure
  intro final chunks _ hchunks hmapped hcount hascends hplaces locals
  unfold Decode.stackMap
  apply asks_read (reads_uint16 _)
  rw [Bytes.toNat_toUInt16 hcount]
  apply (hchunks hmapped hascends hplaces locals []).mono
  intro table found hfound hlocals
  obtain ⟨more, rfl, hmore⟩ := hfound hlocals
  exact hmore

variable (offset places isInstruction) in
/-- The frames of a method are put to the tables, in place of those that are there. -/
theorem yields_stackMaps {version : UInt16} {frames : List (Nat × StackFrame)}
    (h : ∀ frame ∈ frames, frame.2.Fits) :
    Yields (stackMaps offset version entryLocals frames) fun final written =>
      written.length ≤ min 1 frames.length ∧
      (Mapped offset places → frames.length < 65536 → Ascends 0 frames →
        (∀ frame ∈ frames, frame.1 ∈ places) →
          Adds places isInstruction entryLocals
            (fun _ before after => after = { before with frames := after.frames }) final written) := by
  unfold stackMaps
  by_cases hnone : (frames.isEmpty || decide (version < stackMapVersion)) = true
  · rw [if_pos hnone]
    apply yields_pure
    intro final _
    refine ⟨by simp, fun _ _ _ _ => (adds_nil final).mono ?_⟩
    rintro table before after rfl
    rfl
  · rw [if_neg hnone]
    apply (yields_stackMap h).bind
    intro bytes
    apply (yields_named (by decide) bytes).bind_pure
    intro final written _ hspells hasks
    have hpos : 0 < frames.length := by
      rw [Bool.or_eq_true, not_or] at hnone
      exact List.length_pos_iff.2 fun hnil => hnone.1 (List.isEmpty_iff.2 hnil)
    refine ⟨by simpa using Nat.succ_le_of_lt hpos, fun hmapped hcount hascends hplaces => adds_one hspells ?_⟩
    intro tables
    apply (hasks hmapped hcount hascends hplaces entryLocals).onBytes.bind
    intro found
    exact marks_pure fun _ _ => rfl

/-- The frames that are left of those among cells, the last one first. -/
def framesOf (cells : List (Instruction × Nat × Bool)) (found : List (Nat × StackFrame)) :
    List (Nat × StackFrame) :=
  cells.foldl (fun found cell =>
    match cell.1 with
    | .frame frame => addFrame cell.2.1 frame found
    | _ => found) found

theorem frames_of_codeParts {cells : List (Instruction × Nat × Bool)} {parts later : CodeParts}
    {builder builder' : PoolBuilder}
    (h : codeParts offset cells parts builder = .ok (later, builder')) :
    later.frames = framesOf cells parts.frames := by
  induction cells generalizing parts builder with
  | nil =>
    cases h
    rfl
  | cons cell rest ih =>
    obtain ⟨next, pc, wide⟩ := cell
    cases next with
    | frame frame => exact ih h
    | _ =>
      obtain ⟨_, middle, -, hrest⟩ := bind_ok h
      have hframes := ih hrest
      exact hframes

theorem addFrame_cons (place last : Nat) (frame old : StackFrame) (rest : List (Nat × StackFrame)) :
    addFrame place frame ((last, old) :: rest) =
      if last = place then (place, frame) :: rest else (place, frame) :: (last, old) :: rest := rfl

theorem mem_addFrame {place : Nat} {frame : StackFrame} {found : List (Nat × StackFrame)}
    {item : Nat × StackFrame} (h : item ∈ addFrame place frame found) :
    item = (place, frame) ∨ item ∈ found := by
  cases found with
  | nil => exact .inl (List.mem_singleton.1 h)
  | cons last rest =>
    obtain ⟨last, old⟩ := last
    rw [addFrame_cons] at h
    split at h <;> rcases List.mem_cons.1 h with rfl | hmem
    · exact .inl rfl
    · exact .inr (List.mem_cons_of_mem _ hmem)
    · exact .inl rfl
    · exact .inr hmem

theorem mem_framesOf {cells : List (Instruction × Nat × Bool)} {found : List (Nat × StackFrame)}
    {frame : Nat × StackFrame} (h : frame ∈ framesOf cells found) :
    frame ∈ found ∨ ∃ wide, (.frame frame.2, frame.1, wide) ∈ cells := by
  induction cells generalizing found with
  | nil => exact .inl h
  | cons cell rest ih =>
    obtain ⟨next, pc, wide⟩ := cell
    rcases ih h with hmem | ⟨wide', hmem⟩
    · cases next with
      | frame other =>
        rcases mem_addFrame hmem with rfl | hfound
        · exact .inr ⟨wide, List.mem_cons_self⟩
        · exact .inl hfound
      | _ => exact .inl hmem
    · exact .inr ⟨wide', List.mem_cons_of_mem _ hmem⟩

/-- There are not more frames than entries. -/
theorem length_framesOf_le (cells : List (Instruction × Nat × Bool)) (found : List (Nat × StackFrame)) :
    (framesOf cells found).length ≤ found.length + cells.countP fun cell => cell.1.isFrame := by
  induction cells generalizing found with
  | nil => exact Nat.le_refl _
  | cons cell rest ih =>
    obtain ⟨next, pc, wide⟩ := cell
    cases next with
    | frame frame =>
      have hle := ih (addFrame pc frame found)
      have hone : (addFrame pc frame found).length ≤ found.length + 1 := by
        cases found with
        | nil => exact Nat.le_refl _
        | cons last rest =>
          rw [addFrame_cons]
          split <;> simp
      rw [List.countP_cons_of_pos (by rfl)]
      exact Nat.le_trans hle (by omega)
    | _ =>
      rw [List.countP_cons_of_neg (by simp [Instruction.isFrame])]
      exact ih found

/-- Frames that were found with the last one first, none of them behind an offset. -/
def Descends (pc : Nat) (found : List (Nat × StackFrame)) : Prop :=
  found.Pairwise (fun a b => b.1 < a.1) ∧ ∀ frame ∈ found, frame.1 ≤ pc

theorem Descends.addFrame {pc : Nat} {found : List (Nat × StackFrame)} (h : Descends pc found)
    (frame : StackFrame) : Descends pc (addFrame pc frame found) := by
  obtain ⟨hpairwise, hle⟩ := h
  refine ⟨?_, ?_⟩
  · cases found with
    | nil => exact List.pairwise_singleton _ _
    | cons last rest =>
      obtain ⟨last, old⟩ := last
      obtain ⟨hlast, hrest⟩ := List.pairwise_cons.1 hpairwise
      rw [addFrame_cons]
      split
      next heq =>
        subst heq
        exact List.pairwise_cons.2 ⟨hlast, hrest⟩
      next hne =>
        have hlt : last < pc := Nat.lt_of_le_of_ne (hle _ List.mem_cons_self) hne
        refine List.pairwise_cons.2 ⟨?_, hpairwise⟩
        intro other hother
        rcases List.mem_cons.1 hother with rfl | hmem
        · exact hlt
        · exact Nat.lt_trans (hlast other hmem) hlt
  · intro other hother
    rcases mem_addFrame hother with rfl | hmem
    · exact Nat.le_refl _
    · exact hle other hmem

theorem descends_framesOf {final : PoolBuilder} {pc stop : Nat}
    {cells : List (Instruction × Nat × Bool)} (hfills : Fills final pc cells stop)
    {found : List (Nat × StackFrame)} (h : Descends pc found) :
    Descends stop (framesOf cells found) := by
  induction hfills generalizing found with
  | nil => exact h
  | @cons pc size stop wide next rest hsize hrest ih =>
    have hbeyond : ∀ {found : List (Nat × StackFrame)}, Descends pc found →
        Descends (pc + size) found := by
      intro found hfound
      exact ⟨hfound.1, fun frame hframe => Nat.le_add_right_of_le (hfound.2 frame hframe)⟩
    cases next with
    | frame frame => exact ih (hbeyond (h.addFrame frame))
    | _ => exact ih (hbeyond h)

theorem ascends_of_pairwise {frames : List (Nat × StackFrame)} {base : Nat}
    (h : frames.Pairwise fun a b => a.1 < b.1) (hbase : ∀ frame ∈ frames, base ≤ frame.1) :
    Ascends base frames := by
  induction frames generalizing base with
  | nil => trivial
  | cons frame rest ih =>
    obtain ⟨place, frame⟩ := frame
    obtain ⟨hfirst, hrest⟩ := List.pairwise_cons.1 h
    exact ⟨hbase _ List.mem_cons_self, ih hrest fun other hother => hfirst other hother⟩

/-- The frames of a method that fills its code ascend. -/
theorem ascends_framesOf {final : PoolBuilder} {stop : Nat} {cells : List (Instruction × Nat × Bool)}
    (hfills : Fills final 0 cells stop) : Ascends 0 (framesOf cells []).reverse := by
  have hdescends := descends_framesOf hfills ⟨List.Pairwise.nil, by simp⟩
  apply ascends_of_pairwise
  · rw [List.pairwise_reverse]
    exact hdescends.1
  · intro frame _
    exact Nat.zero_le _

end Encode
end JvmArchive
