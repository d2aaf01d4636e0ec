import JvmArchive.ClassFile.Encode.Class
import JvmArchive.Proofs.ClassFile.Code.Closed
import JvmArchive.Proofs.ClassFile.Code.Frames
import JvmArchive.Proofs.ClassFile.Code.Prepared
import JvmArchive.Proofs.ClassFile.Counts
import JvmArchive.Proofs.ClassFile.Refusals

/-!
# Labels that are found

The layout of a method knows every label that the method places. So a class is refused for want of a
label only if one of its methods refers to a label that it does not place, which no method does that has
been read.
-/
namespace JvmArchive

variable {missing : String} {number : UInt32}

/-- The labels whose offsets are looked up when an entry of a list is written. The allocations of a frame
are looked up with the stack map. -/
def Instruction.sought : Instruction → List Label
  | .line _ start => [start]
  | instruction => instruction.targets

theorem Instruction.sought_subset (instruction : Instruction) :
    instruction.sought ⊆ instruction.references := by
  cases instruction with
  | frame frame => exact List.nil_subset _
  | _ => exact List.Subset.refl _

namespace Encode
open Instruction PoolBuilder PoolWriter

theorem unknownLabel_ne_overflow : WriteError.unknownLabel missing number ≠ .constantPoolOverflow :=
  nofun

/-! ## Layout -/

theorem avoids_instructionSize (pc : Nat) (wide : Bool) (next : Instruction) :
    Avoids (.unknownLabel missing number) (instructionSize pc wide next) := by
  cases next with
  | ldc constant =>
    rw [instructionSize]
    split
    · exact avoids_pure _
    · exact (avoids_constant unknownLabel_ne_overflow constant).bind fun _ => avoids_pure _
  | _ => exact avoids_pure _

theorem avoids_place (entries : List (Instruction × Bool)) (pc : Nat) (offsets : List Nat)
    (labels : Std.HashMap Label Nat) :
    Avoids (.unknownLabel missing number) (place entries pc offsets labels) := by
  induction entries generalizing pc offsets labels with
  | nil => exact avoids_pure _
  | cons entry rest ih =>
    obtain ⟨next, wide⟩ := entry
    exact (avoids_instructionSize pc wide next).bind fun _ => ih _ _ _

/-- A label has a last place exactly if it is placed. -/
theorem isSome_lastPlaced_iff {cells : List (Instruction × Nat × Bool)} {label : Label} :
    (lastPlaced cells label).isSome ↔ label ∈ placed (cells.map (·.1)) := by
  have hplaced : ∀ next : Instruction, placed? next = some label ↔ next = .label label := by
    intro next
    cases next <;> simp [placed?]
  simp [lastPlaced, placed, hplaced, List.find?_isSome]

/-- Every label that is placed gets an offset. -/
theorem isSome_of_place {instructions : List Instruction} {wide : List Bool}
    (hlength : wide.length = instructions.length) {builder later : PoolBuilder}
    {found : List Nat × Std.HashMap Label Nat × Nat}
    (h : place (instructions.zip wide) 0 [] ∅ builder = .ok (found, later)) {label : Label}
    (hlabel : label ∈ placed instructions) : (found.2.1[label]?).isSome := by
  obtain ⟨-, hfinal⟩ := lasts_place _ _ _ _ builder later found h
  obtain ⟨more, -, hmore, hfills, hlabels⟩ := hfinal later (.refl later)
  have hentries : (cells (instructions.zip wide) more).map (·.1) = instructions := by
    rw [cells_zip]
    exact List.map_fst_zip (by simp [hmore, hlength])
  rwa [hlabels.last_eq hfills, isSome_lastPlaced_iff, hentries]

theorem mustWiden_ne_error {method : String} {labels : Std.HashMap Label Nat}
    {entry : (Instruction × Bool) × Nat}
    (h : ∀ target ∈ entry.1.1.targets, (labels[target]?).isSome) :
    mustWiden method labels entry ≠ .error (.unknownLabel missing number) := by
  obtain ⟨⟨next, wide⟩, pc⟩ := entry
  cases next with
  | jump op target =>
    obtain ⟨destination, hdestination⟩ := Option.isSome_iff_exists.1 (h target List.mem_cons_self)
    simp only [mustWiden, hdestination]
    repeat' split
    all_goals simp
  | _ => simp [mustWiden]

/-- A pass is not missing a label if all targets are placed. -/
theorem avoids_pass (method : String) {instructions : List Instruction} {wide : List Bool}
    (hlength : wide.length = instructions.length)
    (h : ∀ target ∈ instructions.flatMap targets, target ∈ placed instructions) :
    Avoids (.unknownLabel missing number) (pass method instructions wide) := by
  refine Avoids.bind_of (avoids_place _ _ _ _) fun builder found middle hplace => ?_
  obtain ⟨offsets, labels, size⟩ := found
  have hround : ∀ entry ∈ (instructions.zip wide).zip offsets,
      mustWiden method labels entry ≠ .error (.unknownLabel missing number) := by
    intro entry hentry
    refine mustWiden_ne_error fun target htarget =>
      isSome_of_place hlength hplace (h target ?_)
    have hmem := (List.of_mem_zip (List.of_mem_zip hentry).1).1
    exact List.mem_flatMap.2 ⟨_, hmem, htarget⟩
  dsimp only
  split
  · exact avoids_throw (by simp) middle
  · exact (avoids_lift (mapM_ne_error hround)).bind (fun _ => avoids_pure _) middle

/-- A layout is not missing a label if all targets are placed. -/
theorem avoids_layoutFrom (method : String) {instructions : List Instruction} {wide : List Bool}
    (hwide : Widens instructions wide)
    (h : ∀ target ∈ instructions.flatMap targets, target ∈ placed instructions) :
    Avoids (.unknownLabel missing number) (layoutFrom method instructions wide) := by
  induction hn : wide.count false using Nat.strong_induction_on generalizing wide with
  | h n ih =>
    rw [layoutFrom_eq]
    refine (avoids_pass method hwide.length_eq h).bind_of fun builder found middle hrun => ?_
    split
    next hfewer =>
      obtain ⟨heq, hpassed⟩ :=
        (lasts_pass method hwide.length_eq builder middle found hrun).2 middle (.refl middle)
      exact ih _ (hn ▸ hfewer) (hpassed.widens (heq ▸ hwide)).1 rfl middle
    next => exact avoids_pure _ middle

/-- A layout knows every label that is placed. -/
theorem knows_layout (method : String) {instructions : List Instruction} {builder later : PoolBuilder}
    {layout : Layout} (hrun : Encode.layout method instructions builder = .ok (layout, later))
    {label : Label} (hlabel : label ∈ placed instructions) : (layout.labels[label]?).isSome := by
  obtain ⟨hwide, hpassed⟩ :=
    (lasts_layoutFrom method (widens_none instructions) builder later layout hrun).2 later (.refl later)
  have hlaid := hpassed.laidOut hwide
  rwa [hlaid.labels.last_eq hlaid.fills, isSome_lastPlaced_iff, hlaid.entries]

/-! ## Instructions -/

variable {offset : Label → Except WriteError Nat} {error : WriteError}

theorem farTarget_ne_error {pc : Nat} {target : Label} (h : offset target ≠ .error error) :
    farTarget offset pc target ≠ .error error :=
  bind_ne_error h nofun

theorem nearTarget_ne_error {pc : Nat} {target : Label} (h : offset target ≠ .error error) :
    nearTarget offset pc target ≠ .error error :=
  bind_ne_error h nofun

/-- What keeps an instruction from being written is that the pool has no room or that a target has no
offset. -/
theorem avoids_instruction (hpool : error ≠ .constantPoolOverflow) {next : Instruction}
    (pc written : Nat) (wide : Bool) (h : ∀ target ∈ next.targets, offset target ≠ .error error) :
    Avoids error (instruction offset pc written wide next) := by
  cases next with
  | type op name => exact (avoids_classIndex hpool name).bind fun _ => avoids_pure _
  | field op owner name desc => exact (avoids_fieldRef hpool owner name desc).bind fun _ => avoids_pure _
  | method op owner name desc interface =>
    exact (avoids_methodRef hpool owner name desc interface).bind fun _ => avoids_pure _
  | invokeDynamic name desc bootstrap arguments =>
    exact (avoids_invokeDynamic hpool name desc bootstrap arguments).bind fun _ => avoids_pure _
  | jump op target =>
    have htarget := h target List.mem_cons_self
    rw [instruction]
    split
    · exact (avoids_lift (farTarget_ne_error htarget)).bind fun _ => avoids_pure _
    · exact (avoids_lift (nearTarget_ne_error htarget)).bind fun _ => avoids_pure _
  | ldc constant =>
    refine (avoids_constant hpool constant).bind fun index => ?_
    repeat' split
    all_goals exact avoids_pure _
  | tableSwitch low high default targets =>
    obtain ⟨hdefault, htargets⟩ := List.forall_mem_cons.1 h
    refine (avoids_lift (farTarget_ne_error hdefault)).bind fun _ => ?_
    refine (avoids_lift (mapM_ne_error fun target htarget => ?_)).bind fun _ => avoids_pure _
    exact farTarget_ne_error (htargets target htarget)
  | lookupSwitch default keys targets =>
    obtain ⟨hdefault, htargets⟩ := List.forall_mem_cons.1 h
    refine (avoids_lift (farTarget_ne_error hdefault)).bind fun _ => ?_
    refine (avoids_lift (mapM_ne_error fun row hrow => ?_)).bind fun _ => avoids_pure _
    exact bind_ne_error (farTarget_ne_error (htargets row.2 (List.of_mem_zip hrow).2)) fun _ h => by cases h
  | multiANewArray desc dimensions =>
    exact (avoids_classIndex hpool desc).bind fun _ => avoids_pure _
  | _ => exact avoids_pure _

theorem avoids_codeParts (hpool : error ≠ .constantPoolOverflow)
    {cells : List (Instruction × Nat × Bool)}
    (h : ∀ cell ∈ cells, ∀ label ∈ cell.1.sought, offset label ≠ .error error) (parts : CodeParts) :
    Avoids error (codeParts offset cells parts) := by
  induction cells generalizing parts with
  | nil => exact avoids_pure _
  | cons cell rest ih =>
    obtain ⟨next, pc, wide⟩ := cell
    obtain ⟨hnext, hrest⟩ := List.forall_mem_cons.1 h
    cases next with
    | line line start =>
      exact (avoids_lift (hnext start List.mem_cons_self)).bind fun _ => ih hrest _
    | frame frame => exact ih hrest _
    | _ =>
      refine Avoids.bind (avoids_instruction hpool pc _ wide fun target htarget => ?_)
        fun _ => ih hrest _
      exact hnext target htarget

theorem mem_of_mem_addFrame {place : Nat} {frame : StackFrame} {frames : List (Nat × StackFrame)}
    {item : Nat × StackFrame} (h : item ∈ addFrame place frame frames) :
    item ∈ frames ∨ item.2 = frame := by
  cases frames with
  | nil => exact .inr (congrArg Prod.snd (List.mem_singleton.1 h))
  | cons last rest =>
    obtain ⟨before, old⟩ := last
    rw [addFrame] at h
    split at h
    · rcases List.mem_cons.1 h with rfl | hold
      · exact .inr rfl
      · exact .inl (List.mem_cons_of_mem _ hold)
    · rcases List.mem_cons.1 h with rfl | hold
      · exact .inr rfl
      · exact .inl hold

/-- Every frame that is left to write stands in the list. -/
theorem mem_frames_of_codeParts {cells : List (Instruction × Nat × Bool)} {parts result : CodeParts}
    {builder later : PoolBuilder} (h : codeParts offset cells parts builder = .ok (result, later))
    {item : Nat × StackFrame} (hitem : item ∈ result.frames) :
    item ∈ parts.frames ∨ .frame item.2 ∈ cells.map (·.1) := by
  induction cells generalizing parts builder with
  | nil =>
    cases h
    exact .inl hitem
  | cons cell rest ih =>
    obtain ⟨next, pc, wide⟩ := cell
    have hskip : item ∈ parts.frames ∨ .frame item.2 ∈ rest.map (·.1) →
        item ∈ parts.frames ∨ .frame item.2 ∈ ((next, pc, wide) :: rest).map (·.1) :=
      fun hor => hor.imp_right (List.mem_cons_of_mem _)
    cases next with
    | line line start =>
      obtain ⟨place, middle, -, hrest⟩ := bind_ok h
      have hfound := ih hrest
      exact hskip hfound
    | frame frame =>
      rcases ih h with hmem | hlater
      · rcases mem_of_mem_addFrame hmem with hold | hsame
        · exact .inl hold
        · exact .inr (by simp [hsame])
      · exact hskip (.inr hlater)
    | _ =>
      obtain ⟨bytes, middle, -, hrest⟩ := bind_ok h
      have hfound := ih hrest
      exact hskip hfound

/-! ## Tables -/

theorem avoids_handlers {blocks : List TryCatch}
    (h : ∀ label ∈ blocks.flatMap TryCatch.labels,
      offset label ≠ .error (.unknownLabel missing number)) :
    Avoids (.unknownLabel missing number) (handlers offset blocks) := by
  refine Avoids.bind (avoids_mapM fun block hblock => ?_) fun _ => avoids_pure _
  have hlabels : ∀ label ∈ block.labels, offset label ≠ .error (.unknownLabel missing number) :=
    fun label hlabel => h label (List.mem_flatMap.2 ⟨block, hblock, hlabel⟩)
  refine (avoids_lift (hlabels block.start (by simp [TryCatch.labels]))).bind fun start => ?_
  refine (avoids_lift (hlabels block.stop (by simp [TryCatch.labels]))).bind fun stop => ?_
  split
  · exact avoids_pure _
  · refine (avoids_lift (hlabels block.handler (by simp [TryCatch.labels]))).bind fun _ => ?_
    exact (avoids_optional (avoids_classIndex unknownLabel_ne_overflow) _).bind fun _ =>
      avoids_pure _

theorem avoids_lineNumbers (lines : List (Nat × UInt16)) :
    Avoids (.unknownLabel missing number) (lineNumbers lines) := by
  unfold lineNumbers
  split
  · exact avoids_pure _
  · exact (avoids_named unknownLabel_ne_overflow _ _).bind fun _ => avoids_pure _

theorem avoids_localRows {declared : LocalVariable}
    (h : ∀ label ∈ declared.labels, offset label ≠ .error (.unknownLabel missing number)) :
    Avoids (.unknownLabel missing number) (localRows offset declared) := by
  have htext : ∀ text, Avoids (.unknownLabel missing number) (textIndex text) :=
    avoids_textIndex unknownLabel_ne_overflow
  refine (avoids_lift (h declared.start (by simp [LocalVariable.labels]))).bind fun _ => ?_
  refine (avoids_lift (h declared.stop (by simp [LocalVariable.labels]))).bind fun _ => ?_
  refine (htext _).bind fun _ => (htext _).bind fun _ => ?_
  dsimp only
  split
  · exact avoids_pure _
  · exact (htext _).bind fun _ => (htext _).bind fun _ => avoids_pure _

theorem avoids_localVariables {found : List LocalVariable}
    (h : ∀ label ∈ found.flatMap LocalVariable.labels,
      offset label ≠ .error (.unknownLabel missing number)) :
    Avoids (.unknownLabel missing number) (localVariables offset found) := by
  unfold localVariables
  split
  · exact avoids_pure _
  refine Avoids.bind (avoids_mapM fun declared hdeclared => avoids_localRows fun label hlabel =>
    h label (List.mem_flatMap.2 ⟨declared, hdeclared, hlabel⟩)) fun rows => ?_
  refine (avoids_named unknownLabel_ne_overflow _ _).bind fun _ => ?_
  split
  · exact avoids_pure _
  · exact (avoids_named unknownLabel_ne_overflow _ _).bind fun _ => avoids_pure _

section
variable {error : WriteError} (hpool : error ≠ .constantPoolOverflow)
include hpool

theorem avoids_verificationType {type : VerificationType}
    (h : ∀ site ∈ type.site?, offset site ≠ .error error) :
    Avoids error (verificationType offset type) := by
  cases type with
  | object name => exact (avoids_classIndex hpool name).bind fun _ => avoids_pure _
  | uninitialized site => exact (avoids_lift (h site rfl)).bind fun _ => avoids_pure _
  | _ => exact avoids_pure _

/-- A frame is stated by types that stand in it. -/
theorem avoids_frameBytes (previous : List VerificationType) (delta : UInt16) {frame : StackFrame}
    (h : ∀ site ∈ frame.sites, offset site ≠ .error error) :
    Avoids error (frameBytes offset previous delta frame) := by
  have htype : ∀ type ∈ frame.locals ++ frame.stack, Avoids error (verificationType offset type) :=
    fun type htype => avoids_verificationType hpool fun site hsite =>
      h site (List.mem_filterMap.2 ⟨type, htype, Option.mem_def.1 hsite⟩)
  have hspec := frameForm_spec previous frame
  unfold frameBytes
  cases hform : frameForm previous frame with
  | same => exact avoids_pure _
  | sameWith item =>
    rw [hform] at hspec
    refine (htype item ?_).bind fun _ => avoids_pure _
    simp [hspec.2]
  | chop count => exact avoids_pure _
  | append added =>
    rw [hform] at hspec
    refine (avoids_concatM fun type hmem => htype type ?_).bind fun _ => avoids_pure _
    simp [hspec.2.2.1, hmem]
  | full =>
    refine (avoids_counted fun type hmem => htype type (by simp [hmem])).bind fun _ => ?_
    exact (avoids_counted fun type hmem => htype type (by simp [hmem])).bind fun _ => avoids_pure _

theorem avoids_framesFrom (previous : List VerificationType) (base : Nat)
    {frames : List (Nat × StackFrame)}
    (h : ∀ item ∈ frames, ∀ site ∈ item.2.sites, offset site ≠ .error error) :
    Avoids error (framesFrom offset previous base frames) := by
  induction frames generalizing previous base with
  | nil => exact avoids_pure _
  | cons item rest ih =>
    obtain ⟨place, frame⟩ := item
    obtain ⟨hfirst, hrest⟩ := List.forall_mem_cons.1 h
    exact (avoids_frameBytes hpool previous _ hfirst).bind fun _ => (ih _ _ hrest).bind fun _ =>
      avoids_pure _

theorem avoids_stackMap (initial : List VerificationType) {frames : List (Nat × StackFrame)}
    (h : ∀ item ∈ frames, ∀ site ∈ item.2.sites, offset site ≠ .error error) :
    Avoids error (stackMap offset initial frames) :=
  (avoids_framesFrom hpool initial 0 h).bind fun _ => avoids_pure _

end

theorem avoids_stackMaps (version : UInt16) (entryLocals : List VerificationType)
    {frames : List (Nat × StackFrame)}
    (h : ∀ item ∈ frames, ∀ site ∈ item.2.sites, offset site ≠ .error (.unknownLabel missing number)) :
    Avoids (.unknownLabel missing number) (stackMaps offset version entryLocals frames) := by
  unfold stackMaps
  split
  · exact avoids_pure _
  · exact (avoids_stackMap unknownLabel_ne_overflow entryLocals h).bind fun _ =>
      (avoids_named unknownLabel_ne_overflow _ _).bind fun _ => avoids_pure _

/-! ## Methods and classes -/

theorem prepare_preserve_ne_error (version : UInt16) (owner : String) (method : MethodNode)
    (common : Flow.CommonSuper) :
    prepare .preserve version owner method common ≠ .error (.unknownLabel missing number) := by
  simp only [prepare, reduceCtorEq, false_and, if_false]
  split <;> simp

/-- Code that keeps its frames is missing no label if all that it refers to are placed. -/
theorem avoids_code {settings : Settings} {keepAll : Bool} {version : UInt16} {owner : String}
    {method : MethodNode} (hframes : settings.frames = .preserve)
    (h : ∀ label ∈ method.references, label ∈ placed method.instructions) :
    Avoids (.unknownLabel missing number) (code settings keepAll version owner method) := by
  have hpool := @unknownLabel_ne_overflow missing number
  have htargets : ∀ target ∈ method.instructions.flatMap targets,
      target ∈ placed method.instructions := by
    intro target htarget
    obtain ⟨next, hnext, hmem⟩ := List.mem_flatMap.1 htarget
    refine h target (List.mem_append_left _ (List.mem_flatMap.2 ⟨next, hnext, ?_⟩))
    cases next <;> first | exact hmem | cases hmem
  unfold code
  rw [hframes]
  refine Avoids.bind_of (avoids_lift (prepare_preserve_ne_error version owner method _)) ?_
  intro builder prepared middle hprepared
  have hsame : prepared.instructions = method.instructions := by
    rw [eq_preserveFrames_of_prepare (by simp) (ok_of_lift hprepared), preserveFrames_instructions]
  dsimp only
  rw [hsame]
  have hlayout : Avoids (.unknownLabel missing number)
      (layout (methodText owner method) method.instructions) :=
    avoids_layoutFrom _ (widens_none _) htargets
  refine Avoids.bind_of hlayout (fun builder layout later hrun => ?_) middle
  have hoffset : ∀ label ∈ method.references,
      offsetOf (methodText owner method) layout.labels label ≠ .error (.unknownLabel missing number) := by
    intro label hlabel
    obtain ⟨place, hplace⟩ :=
      Option.isSome_iff_exists.1 (knows_layout _ hrun (h label hlabel))
    simp [offsetOf, hplace]
  have hinside : ∀ next ∈ method.instructions, ∀ label ∈ next.references,
      offsetOf (methodText owner method) layout.labels label ≠ .error (.unknownLabel missing number) :=
    fun next hnext label hlabel =>
      hoffset label (List.mem_append_left _ (List.mem_flatMap.2 ⟨next, hnext, hlabel⟩))
  have hcells : ∀ cell ∈ method.instructions.zip (layout.offsets.zip layout.wide),
      cell.1 ∈ method.instructions := fun cell hcell => (List.of_mem_zip hcell).1
  have hcode : Avoids (.unknownLabel missing number) (codeParts
      (offsetOf (methodText owner method) layout.labels)
      (method.instructions.zip (layout.offsets.zip layout.wide)) {}) :=
    avoids_codeParts unknownLabel_ne_overflow (fun cell hcell label hlabel =>
      hinside _ (hcells cell hcell) label (cell.1.sought_subset hlabel)) {}
  refine Avoids.bind_of hcode (fun builder parts later hparts => ?_) later
  have hframe : ∀ item ∈ parts.frames.reverse, ∀ site ∈ item.2.sites,
      offsetOf (methodText owner method) layout.labels site ≠ .error (.unknownLabel missing number) := by
    intro item hitem site hsite
    have hmem := (mem_frames_of_codeParts hparts (List.mem_reverse.1 hitem)).resolve_left List.not_mem_nil
    obtain ⟨cell, hcell, hnext⟩ := List.mem_map.1 hmem
    refine hinside _ (hcells cell hcell) site ?_
    rw [hnext]
    exact hsite
  have hblocks : ∀ label ∈ method.tryCatches.flatMap TryCatch.labels,
      offsetOf (methodText owner method) layout.labels label ≠ .error (.unknownLabel missing number) :=
    fun label hlabel => hoffset label (List.mem_append_right _ (List.mem_append_left _ hlabel))
  have hvariables : ∀ label ∈ method.localVariables.flatMap LocalVariable.labels,
      offsetOf (methodText owner method) layout.labels label ≠ .error (.unknownLabel missing number) :=
    fun label hlabel => hoffset label (List.mem_append_right _ (List.mem_append_right _ hlabel))
  refine Avoids.bind (avoids_handlers hblocks) (fun _ => ?_) later
  exact (avoids_lineNumbers _).bind fun _ => (avoids_localVariables hvariables).bind fun _ =>
    (avoids_stackMaps version _ hframe).bind fun _ => (avoids_rawAttributes hpool keepAll _).bind
      fun _ => avoids_pure _

theorem avoids_optionalText {error : WriteError} (h : error ≠ .constantPoolOverflow) (name : String)
    (text : Option String) : Avoids error (optionalText name text) := by
  cases text with
  | none => exact avoids_pure _
  | some text =>
    have hattribute : Avoids error (textAttribute name text) :=
      (avoids_textIndex h text).bind fun _ => avoids_named h name _
    exact hattribute.bind fun _ => avoids_pure _

theorem avoids_someClasses {error : WriteError} (h : error ≠ .constantPoolOverflow) (name : String)
    (classes : List String) : Avoids error (someClasses name classes) := by
  unfold someClasses
  split
  · exact avoids_pure _
  · have hattribute : Avoids error (classesAttribute name classes) :=
      (avoids_counted fun class_ _ => avoids_classIndex h class_).bind fun _ => avoids_named h name _
    exact hattribute.bind fun _ => avoids_pure _

theorem avoids_constantValue {error : WriteError} (h : error ≠ .constantPoolOverflow)
    (value : Option Constant) : Avoids error (constantValue value) := by
  cases value with
  | none => exact avoids_pure _
  | some value =>
    exact (avoids_constant h value).bind fun _ => (avoids_named h _ _).bind fun _ => avoids_pure _

theorem avoids_field {error : WriteError} (h : error ≠ .constantPoolOverflow) (keepAll : Bool)
    (declared : FieldNode) : Avoids error (field keepAll declared) :=
  (avoids_textIndex h _).bind fun _ => (avoids_textIndex h _).bind fun _ =>
  (avoids_constantValue h _).bind fun _ => (avoids_optionalText h _ _).bind fun _ =>
  (avoids_annotationAttributes h _ _).bind fun _ => (avoids_rawAttributes h _ _).bind fun _ =>
    avoids_pure _

theorem avoids_annotationDefault {error : WriteError} (h : error ≠ .constantPoolOverflow)
    (value : Option ElementValue) : Avoids error (annotationDefault value) := by
  cases value with
  | none => exact avoids_pure _
  | some value =>
    exact (avoids_elementValue h value).bind fun _ => (avoids_named h _ _).bind fun _ =>
      avoids_pure _

theorem avoids_parametersAttribute {error : WriteError} (h : error ≠ .constantPoolOverflow)
    (parameters : List ParameterNode) : Avoids error (parametersAttribute parameters) := by
  unfold parametersAttribute
  split
  · exact avoids_pure _
  · have hrow : ∀ row ∈ parameters, Avoids error (parameter row) := fun row _ =>
      (avoids_optional (avoids_textIndex h) row.name).bind fun _ => avoids_pure _
    exact (avoids_concatM hrow).bind fun _ => (avoids_named h _ _).bind fun _ => avoids_pure _

theorem avoids_method {settings : Settings} {keepAll : Bool} {version : UInt16} {owner : String}
    {declared : MethodNode} (hframes : settings.frames = .preserve)
    (h : ∀ label ∈ declared.references, label ∈ placed declared.instructions) :
    Avoids (.unknownLabel missing number) (method settings keepAll version owner declared) := by
  have hpool := @unknownLabel_ne_overflow missing number
  have hcode : Avoids (.unknownLabel missing number)
      (codeAttribute settings keepAll version owner declared) := by
    unfold codeAttribute
    split
    · exact avoids_pure _
    · exact (avoids_code hframes h).bind fun _ => (avoids_named hpool _ _).bind fun _ => avoids_pure _
  exact (avoids_textIndex hpool _).bind fun _ => (avoids_textIndex hpool _).bind fun _ =>
    hcode.bind fun _ => (avoids_someClasses hpool _ _).bind fun _ =>
    (avoids_optionalText hpool _ _).bind fun _ => (avoids_annotationAttributes hpool _ _).bind fun _ =>
    (avoids_parameterAnnotationsAttribute hpool _ _).bind fun _ =>
    (avoids_parameterAnnotationsAttribute hpool _ _).bind fun _ =>
    (avoids_annotationDefault hpool _).bind fun _ => (avoids_parametersAttribute hpool _).bind fun _ =>
    (avoids_rawAttributes hpool _ _).bind fun _ => avoids_pure _

theorem avoids_innerClasses {error : WriteError} (h : error ≠ .constantPoolOverflow)
    (rows : List InnerClass) : Avoids error (innerClasses rows) := by
  unfold innerClasses
  split
  · exact avoids_pure _
  · have hrow : ∀ row ∈ rows, Avoids error (innerClass row) := fun row _ =>
      (avoids_classIndex h _).bind fun _ => (avoids_optional (avoids_classIndex h) _).bind fun _ =>
        (avoids_optional (avoids_textIndex h) _).bind fun _ => avoids_pure _
    exact (avoids_counted hrow).bind fun _ => (avoids_named h _ _).bind fun _ => avoids_pure _

theorem avoids_enclosingMethod {error : WriteError} (h : error ≠ .constantPoolOverflow)
    (node : ClassNode) : Avoids error (enclosingMethod node) := by
  have hindex : ∀ name desc, Avoids error (enclosingMethodIndex name desc) := by
    intro name desc
    cases name <;> cases desc <;> first | exact avoids_pure _ | exact avoids_nameAndType h _ _
  unfold enclosingMethod
  split
  · exact avoids_pure _
  · exact (avoids_classIndex h _).bind fun _ => (hindex _ _).bind fun _ =>
      (avoids_named h _ _).bind fun _ => avoids_pure _

theorem avoids_nestHost {error : WriteError} (h : error ≠ .constantPoolOverflow)
    (host : Option String) : Avoids error (nestHost host) := by
  cases host with
  | none => exact avoids_pure _
  | some host =>
    exact (avoids_classIndex h host).bind fun _ => (avoids_named h _ _).bind fun _ => avoids_pure _

theorem avoids_classAttributes {error : WriteError} (h : error ≠ .constantPoolOverflow)
    (keepAll : Bool) (node : ClassNode) : Avoids error (classAttributes keepAll node) :=
  (avoids_optionalText h _ _).bind fun _ => (avoids_optionalText h _ _).bind fun _ =>
  (avoids_innerClasses h _).bind fun _ => (avoids_enclosingMethod h node).bind fun _ =>
  (avoids_nestHost h _).bind fun _ => (avoids_someClasses h _ _).bind fun _ =>
  (avoids_someClasses h _ _).bind fun _ => (avoids_annotationAttributes h _ _).bind fun _ =>
  (avoids_rawAttributes h _ _).bind fun _ => avoids_pure _

theorem avoids_bootstrapMethods {error : WriteError} (h : error ≠ .constantPoolOverflow) :
    Avoids error bootstrapMethods := by
  refine avoids_get.bind fun builder => ?_
  split
  · exact avoids_pure _
  · exact (avoids_add h _).bind fun _ => avoids_get.bind fun _ => avoids_pure _

end Encode
open Encode

/-- A class that keeps its frames is missing no label if its methods place all that they refer to. -/
theorem ClassNode.toBytes_ne_unknownLabel {settings : Settings} {node : ClassNode}
    (hframes : settings.frames = .preserve) (h : ∀ method ∈ node.methods, ∀ label ∈ method.references,
      label ∈ Instruction.placed method.instructions) (missing : String) (number : UInt32) :
    node.toBytes settings ≠ .error (.unknownLabel missing number) := by
  have hpool := @unknownLabel_ne_overflow missing number
  have hbody : Avoids (.unknownLabel missing number) (classBody settings node) :=
    (avoids_classIndex hpool _).bind fun _ =>
    (avoids_optional (avoids_classIndex hpool) _).bind fun _ =>
    (avoids_counted fun name _ => avoids_classIndex hpool name).bind fun _ =>
    (avoids_counted fun declared _ => avoids_field hpool _ declared).bind fun _ =>
    (avoids_counted fun declared hdeclared => avoids_method hframes (h declared hdeclared)).bind
      fun _ => (avoids_classAttributes hpool _ node).bind fun _ =>
    (avoids_bootstrapMethods hpool).bind fun _ => avoids_pure _
  exact bind_ne_error (hbody _) nofun

/-- A class that has been read places its labels, so that no label is missing when it is written
unchanged. -/
theorem ClassNode.labelClosed_of_ofBytes {bytes : List UInt8} {node : ClassNode}
    (h : ofBytes bytes = .ok node) :
    (∀ method ∈ node.methods, method.LabelClosed) ∧ ∀ common missing number,
      node.toBytes { frames := .preserve, common } ≠ .error (.unknownLabel missing number) := by
  have hclosed := methods_labelClosed h
  refine ⟨hclosed, fun common => toBytes_ne_unknownLabel rfl fun method hmethod label hlabel => ?_⟩
  have honce := (hclosed method hmethod).once label hlabel
  exact List.count_pos_iff.1 (by omega)

/-- The class with a loop, a line and a handler is read into code that places its labels. -/
theorem ClassNode.labelClosed_loop :
    ∃ bytes back, (ofMethod MethodNode.loop).toBytes {} = .ok bytes ∧ ofBytes bytes = .ok back ∧
      (∃ method ∈ back.methods, method.LabelClosed ∧ (Instruction.real method.instructions).length = 1) ∧
      ∀ common missing number,
        back.toBytes { frames := .preserve, common } ≠ .error (.unknownLabel missing number) := by
  obtain ⟨bytes, hbytes, hsize⟩ := toBytes_loop
  have hfits : (ofMethod MethodNode.loop).FitsWith {} :=
    fitsWith_ofMethod (fits_coded _ _) MethodNode.codeFits_loop
  have hcross : ∀ method ∈ (ofMethod MethodNode.loop).methods,
      ∀ instruction ∈ method.instructions, instruction.crosses = false := by
    intro method hmethod
    obtain rfl := List.mem_singleton.1 hmethod
    decide
  obtain ⟨back, hback, hsame⟩ := hfits.sameCounts_iff nofun hcross hbytes hsize
  have hmethods := (hsame.2 (by simp [ofMethod, MethodNode.loop])).methods
  obtain ⟨method, hmethod, hcounts⟩ :
      ∃ method ∈ back.methods, MethodNode.loop.SameCounts method := by
    obtain ⟨method, rest, hfirst, -, hall⟩ := List.forall₂_cons_left_iff.1 hmethods
    exact ⟨method, by rw [hall]; exact List.mem_cons_self, hfirst⟩
  obtain ⟨hclosed, hwritten⟩ := labelClosed_of_ofBytes hback
  exact ⟨bytes, back, hbytes, hback, ⟨method, hmethod, hclosed method hmethod, hcounts.instructions⟩,
    hwritten⟩

end JvmArchive
