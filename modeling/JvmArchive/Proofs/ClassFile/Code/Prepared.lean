import JvmArchive.ClassFile.Encode.Frames
import JvmArchive.Proofs.ClassFile.Code.Layout
import JvmArchive.Proofs.ClassFile.Code.Placed
import JvmArchive.Proofs.Flow.Faults

/-!
# Code as it is prepared for writing

Computing frames puts frames and labels into the code and takes frames out. The real instructions and
the lines stay as they are, and so do the places of all labels that the method has itself, provided that
the labels put in are new to it.
-/
namespace JvmArchive

namespace Instruction

/-- Whether an instruction allocates an object that is still to be initialised. -/
def isAllocation : Instruction → Bool
  | .type op _ => op = Opcode.new
  | _ => false

/-- Lists that hold the same real instructions and lines, and in which the known labels have the same
places. -/
structure Agrees (known : Label → Prop) (xs ys : List Instruction) : Prop where
  real : real ys = real xs
  lines : lines ys = lines xs
  places : ∀ label, known label → placeOf ys label = placeOf xs label

namespace Agrees

variable {known : Label → Prop} {xs ys zs : List Instruction}

theorem refl (xs : List Instruction) : Agrees known xs xs := ⟨rfl, rfl, fun _ _ => rfl⟩

theorem trans (hxy : Agrees known xs ys) (hyz : Agrees known ys zs) : Agrees known xs zs where
  real := hyz.real.trans hxy.real
  lines := hyz.lines.trans hxy.lines
  places label h := (hyz.places label h).trans (hxy.places label h)

theorem cons (h : Agrees known xs ys) (next : Instruction) : Agrees known (next :: xs) (next :: ys) where
  real := by
    have hreal := h.real
    unfold Instruction.real at hreal ⊢
    rw [List.filter_cons, List.filter_cons, hreal]
  lines := by
    have hlines := h.lines
    unfold Instruction.lines at hlines ⊢
    rw [List.filterMap_cons, List.filterMap_cons, hlines]
  places label hlabel := by
    have hplace := h.places label hlabel
    cases hpseudo : next.isPseudo with
    | false => rw [placeOf_real hpseudo, placeOf_real hpseudo, hplace]
    | true =>
      by_cases hother : ∃ other, next = .label other
      · obtain ⟨other, rfl⟩ := hother
        rw [placeOf_label, placeOf_label, hplace]
      · have hne : ∀ other, next ≠ .label other := fun other heq => hother ⟨other, heq⟩
        rw [placeOf_pseudo hpseudo hne, placeOf_pseudo hpseudo hne, hplace]

/-- A frame that is put in or taken out. -/
theorem frame_right (h : Agrees known xs ys) (frame : StackFrame) :
    Agrees known xs (.frame frame :: ys) := ⟨h.real, h.lines, h.places⟩

theorem frame_left (h : Agrees known xs ys) (frame : StackFrame) :
    Agrees known (.frame frame :: xs) ys := ⟨h.real, h.lines, h.places⟩

theorem frames_right (h : Agrees known xs ys) (frames : List StackFrame) :
    Agrees known xs (frames.map .frame ++ ys) := by
  induction frames with
  | nil => exact h
  | cons frame frames ih => exact ih.frame_right frame

/-- A label that is put in. -/
theorem label_right (h : Agrees known xs ys) {label : Label} (hnew : ¬known label) :
    Agrees known xs (.label label :: ys) where
  real := h.real
  lines := h.lines
  places other hother := by
    have hne : label ≠ other := by
      rintro rfl
      exact hnew hother
    rw [placeOf_label, if_neg hne, Option.or_none, h.places other hother]

end Agrees

end Instruction

namespace Encode
open Instruction

theorem preserveFrames_instructions (owner : String) (method : MethodNode)
    (common : Flow.CommonSuper) :
    (preserveFrames owner method common).instructions = method.instructions := by
  unfold preserveFrames
  split <;> rfl

/-- A method that loads no elements of arrays is always prepared with the frames it has. -/
theorem prepare_preserve (version : UInt16) (owner : String) {method : MethodNode}
    (common : Flow.CommonSuper) (h : .simple Opcode.aaload ∉ method.instructions) :
    prepare .preserve version owner method common = .ok (preserveFrames owner method common) := by
  simp only [prepare, reduceCtorEq, false_and, if_false]
  split
  · rename_i cause hfault
    exact absurd hfault (Flow.Analysis.ofMethod_ne_fault h cause)
  · rfl

theorem eq_preserveFrames_of_prepare {mode : FrameMode} {version : UInt16} {owner : String}
    {method : MethodNode} {common : Flow.CommonSuper} {prepared : PreparedCode}
    (hmode : ¬(mode = .compute ∧ stackMapVersion ≤ version))
    (h : prepare mode version owner method common = .ok prepared) :
    prepared = preserveFrames owner method common := by
  rw [prepare, if_neg hmode] at h
  split at h <;> cases h
  rfl

/-- What computing the frames of a method comes from: an analysis that reaches every instruction. -/
theorem exists_analysis_of_computeFrames {owner : String} {method : MethodNode}
    {common : Flow.CommonSuper} {prepared : PreparedCode}
    (h : computeFrames owner method common = .ok prepared) :
    ∃ instructions analysis, instructions = labelSites false method.nextLabel method.instructions ∧
      Flow.Analysis.ofMethod owner { method with instructions } common = .ok analysis ∧
      analysis.unreachable instructions = [] ∧
      prepared.instructions = placeFrames
        (Std.HashSet.ofList (jumpTargets instructions method.tryCatches)).contains false
          (instructions.zip analysis.states.toList) := by
  unfold computeFrames at h
  dsimp only at h
  split at h
  · cases h
  · cases h
  · rename_i analysis hanalysis
    split at h
    · cases h
    · rename_i hunreachable
      cases h
      exact ⟨_, analysis, rfl, hanalysis, hunreachable, rfl⟩

variable {known : Label → Prop}

/-- The labels before allocations change nothing if they are new. -/
theorem agrees_labelSites {instructions : List Instruction} {labelled : Bool} {next : UInt32}
    (hfresh : ∀ label, known label → label.number < next ∧
      next.toNat + instructions.countP isAllocation < 4294967296) :
    Agrees known instructions (labelSites labelled next instructions) := by
  induction instructions generalizing labelled next with
  | nil => exact .refl []
  | cons instruction rest ih =>
    have hrest : ∀ labelled, Agrees known rest (labelSites labelled next rest) := by
      intro labelled
      apply ih
      intro label hlabel
      obtain ⟨hlt, hroom⟩ := hfresh label hlabel
      rw [List.countP_cons] at hroom
      exact ⟨hlt, by omega⟩
    unfold labelSites
    split
    · exact (hrest true).cons _
    · exact (hrest labelled).cons _
    · exact (hrest labelled).cons _
    · rw [List.countP_cons_of_pos (by rfl)] at hfresh
      split
      · exact (hrest false).cons _
      · have hnew : ¬known ⟨next⟩ := fun hlabel => UInt32.lt_irrefl next (hfresh _ hlabel).1
        apply Agrees.label_right _ hnew
        apply Agrees.cons
        apply ih
        intro label hlabel
        obtain ⟨hlt, hroom⟩ := hfresh label hlabel
        have hsucc : (next + 1).toNat = next.toNat + 1 := by
          rw [UInt32.toNat_add]
          exact Nat.mod_eq_of_lt (by simp; omega)
        have hbelow := UInt32.lt_iff_toNat_lt.1 hlt
        exact ⟨UInt32.lt_iff_toNat_lt.2 (by omega), by omega⟩
    · exact (hrest false).cons _

variable (known) in
/-- Frames in other places change nothing. -/
theorem agrees_placeFrames (isTarget : Label → Bool) (afterTerminal : Bool)
    (items : List (Instruction × Option Flow.State)) :
    Agrees known (items.map (·.1)) (placeFrames isTarget afterTerminal items) := by
  induction items generalizing afterTerminal with
  | nil => exact .refl []
  | cons item rest ih =>
    obtain ⟨instruction, state⟩ := item
    have hframes : ∀ (wanted : Bool) {ys : List Instruction},
        Agrees known (instruction :: rest.map (·.1)) ys →
          Agrees known (instruction :: rest.map (·.1))
            ((if wanted then state.toList.map fun s => .frame s.toFrame else []) ++ ys) := by
      intro wanted ys h
      cases wanted with
      | false => exact h
      | true =>
        have hmap : (state.toList.map fun s => Instruction.frame s.toFrame) =
            (state.toList.map Flow.State.toFrame).map .frame := by rw [List.map_map]; rfl
        rw [if_pos rfl, hmap]
        exact h.frames_right _
    rw [List.map_cons]
    unfold placeFrames
    cases instruction with
    | label label => exact hframes _ ((ih afterTerminal).cons _)
    | line number start => exact (ih afterTerminal).cons _
    | frame frame => exact (ih afterTerminal).frame_left frame
    | _ => exact hframes _ ((ih _).cons _)

/-- A method with computed frames agrees with the method itself. -/
theorem agrees_computeFrames {owner : String} {method : MethodNode} {common : Flow.CommonSuper}
    {prepared : PreparedCode} (h : computeFrames owner method common = .ok prepared)
    (hfresh : ∀ label, known label → label.number < method.nextLabel ∧
      method.nextLabel.toNat + method.instructions.countP isAllocation < 4294967296) :
    Agrees known method.instructions prepared.instructions := by
  obtain ⟨instructions, analysis, rfl, hanalysis, -, hprepared⟩ := exists_analysis_of_computeFrames h
  have hsize := Flow.Analysis.size_states hanalysis
  have hzip : ((labelSites false method.nextLabel method.instructions).zip
      analysis.states.toList).map (·.1) = labelSites false method.nextLabel method.instructions := by
    have hlength : analysis.states.toList.length =
        (labelSites false method.nextLabel method.instructions).length := by
      rw [Array.length_toList]
      exact hsize
    exact List.map_fst_zip (Nat.le_of_eq hlength.symm)
  have hframes := agrees_placeFrames known
    (Std.HashSet.ofList (jumpTargets (labelSites false method.nextLabel method.instructions)
      method.tryCatches)).contains false
    ((labelSites false method.nextLabel method.instructions).zip analysis.states.toList)
  rw [hzip, ← hprepared] at hframes
  exact (agrees_labelSites hfresh).trans hframes

/-- Whatever is made of the frames of a method, its code agrees with what is written. -/
theorem agrees_prepare {mode : FrameMode} {version : UInt16} {owner : String} {method : MethodNode}
    {common : Flow.CommonSuper} {prepared : PreparedCode}
    (h : prepare mode version owner method common = .ok prepared)
    (hfresh : mode = .compute → ∀ label, known label → label.number < method.nextLabel ∧
      method.nextLabel.toNat + method.instructions.countP isAllocation < 4294967296) :
    Agrees known method.instructions prepared.instructions := by
  by_cases hmode : mode = .compute ∧ stackMapVersion ≤ version
  · rw [prepare, if_pos hmode] at h
    exact agrees_computeFrames h (hfresh hmode.1)
  · rw [eq_preserveFrames_of_prepare hmode h, preserveFrames_instructions]
    exact .refl _

/-- The real instructions are prepared as they are, whatever their labels. -/
theorem real_prepare {mode : FrameMode} {version : UInt16} {owner : String} {method : MethodNode}
    {common : Flow.CommonSuper} {prepared : PreparedCode}
    (h : prepare mode version owner method common = .ok prepared) :
    real prepared.instructions = real method.instructions := by
  have hagrees : Agrees (fun _ => False) method.instructions prepared.instructions :=
    agrees_prepare h fun _ _ hfalse => hfalse.elim
  exact hagrees.real

theorem exists_crosses_prepare {mode : FrameMode} {version : UInt16} {owner : String}
    {method : MethodNode} {common : Flow.CommonSuper} {prepared : PreparedCode}
    (h : prepare mode version owner method common = .ok prepared) :
    (∃ instruction ∈ prepared.instructions, instruction.crosses = true) ↔
      ∃ instruction ∈ method.instructions, instruction.crosses = true := by
  have hreal : ∀ instructions : List Instruction,
      (∃ instruction ∈ instructions, instruction.crosses = true) ↔
        ∃ instruction ∈ real instructions, instruction.crosses = true := by
    intro instructions
    refine exists_congr fun instruction => ?_
    rw [real, List.mem_filter, and_assoc]
    cases instruction <;> simp [crosses, isPseudo]
  rw [hreal, real_prepare h, ← hreal]

end Encode
end JvmArchive
