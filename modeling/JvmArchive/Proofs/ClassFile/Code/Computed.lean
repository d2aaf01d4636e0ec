import JvmArchive.Proofs.ClassFile.Code.Framing
import JvmArchive.Proofs.Flow.Trails

/-!
# Computed frames

The frames of a method that are computed from its data flow stand exactly where they have to, and each is
that of the state which the analysis has found for the real instruction at its place. Nothing else of the
method changes but for labels before allocations, by which the frames name them.
-/
namespace JvmArchive
open Instruction

namespace Encode

section
open JvmArchive.Flow

variable {owner : String} {method : MethodNode} {analysis : Analysis}

/-- No state changes up to a label that is jumped to or handles exceptions. -/
theorem steady_of_ofMethod (h : Analysis.ofMethod owner method rootOnly = .ok analysis) :
    Steady (Std.HashSet.ofList (jumpTargets method.instructions method.tryCatches)).contains
      (method.instructions.zip analysis.states.toList) := by
  intro i x y s t hx hy hpseudo hother
  obtain ⟨hx, hs⟩ := List.getElem?_zip_eq_some.1 hx
  obtain ⟨hy, ht⟩ := List.getElem?_zip_eq_some.1 hy
  rw [Array.getElem?_toList] at hs ht
  have hpasses : method.Passes i := by
    refine ⟨⟨x, hx, hpseudo⟩, ?_⟩
    rintro ⟨label, hlabel, hplace⟩
    rw [hy] at hplace
    have hnot := hother label (Option.some.inj hplace)
    rw [Std.HashSet.contains_ofList, List.contains_eq_mem, decide_eq_false_iff_not] at hnot
    exact hnot hlabel
  apply Option.ext
  intro state
  have hsame := Analysis.states_iff_of_passes h hpasses state
  rw [hs, ht, Option.some.injEq, Option.some.injEq] at hsame
  exact hsame

/-- Nothing behind the last real instruction is reached, or else control would fall off the end. -/
theorem state_none_of_end (h : Analysis.ofMethod owner method rootOnly = .ok analysis) {index : Nat}
    {x : Instruction} (hx : method.instructions[index]? = some x) (hpseudo : x.isPseudo = true)
    (hend : placeAt method.instructions index = (real method.instructions).length) (state : State) :
    analysis.states[index]? ≠ some (some state) := by
  intro hstate
  induction hleft : method.instructions.length - index generalizing index x state with
  | zero =>
    have hlt := (List.getElem?_eq_some_iff.1 hx).1
    omega
  | succ left ih =>
    obtain ⟨after, hafter, -⟩ := Analysis.reaches_next h hx hpseudo hstate
    have hlt := (Array.getElem?_eq_some_iff.1 hafter).1
    rw [Analysis.size_states h] at hlt
    have hnext := List.getElem?_eq_getElem hlt
    have hplace : placeAt method.instructions (index + 1) = (real method.instructions).length := by
      rw [← hend]
      refine placeAt_eq_of_pseudo (Nat.le_succ index) fun between hfrom hto => ?_
      obtain rfl : between = index := by omega
      exact ⟨x, hx, hpseudo⟩
    cases hreal : (method.instructions[index + 1]).isPseudo with
    | true => exact ih hnext hreal hplace after hafter (by omega)
    | false =>
      have hinside := (List.getElem?_eq_some_iff.1 (getElem?_real hnext hreal)).1
      omega

/-- Whatever no way reaches is not in the code. -/
theorem exists_state_of_unreachable {instructions : List Instruction}
    (h : analysis.unreachable instructions = []) {index : Nat} {x : Instruction}
    (hx : instructions[index]? = some x) (hreal : x.isPseudo = false) :
    ∃ state, analysis.states[index]? = some (some state) := by
  by_contra hnone
  have hjoin : (analysis.states[index]?.join).isNone = true := by
    cases hstate : analysis.states[index]? with
    | none => rfl
    | some found =>
      cases found with
      | none => rfl
      | some state => exact absurd ⟨state, hstate⟩ hnone
  have hmem : index ∈ analysis.unreachable instructions := by
    refine List.mem_map.2 ⟨(x, index), List.mem_filter.2 ⟨?_, ?_⟩, rfl⟩
    · exact List.mk_mem_zipIdx_iff_getElem?.2 hx
    · simp [hreal, hjoin]
  rw [h] at hmem
  cases hmem

end

/-- What a list of instructions says of the frames that have been computed for a method, given what has
been found for the list in which all its allocations have labels: but for its frames it is the list of
the method with labels put before allocations that have none, and these labels are new as long as the
numbers to hand out lie beyond those in the list and do not run out; a frame stands at the place of a
real instruction exactly if control comes from elsewhere, and it is that of the state found for the
instruction; there is none at the end; and the frames name allocations by labels that stand right before
them. -/
structure IsFramed (method : MethodNode) (labelled : List Instruction) (analysis : Flow.Analysis)
    (instructions : List Instruction) : Prop where
  labels : ∃ marks, Labels none method.nextLabel marks (withoutFrames method.instructions)
      (withoutFrames instructions) ∧
    ((∀ label ∈ placed method.instructions, label.number < method.nextLabel) →
      method.nextLabel.toNat + marks.reduceOption.length ≤ 4294967296 →
        marks.reduceOption.Nodup ∧ ∀ label ∈ marks.reduceOption, label ∉ placed method.instructions)
  frames : ∀ (place : Nat) (x : Instruction), (real instructions)[place]? = some x →
    ∃ (index : Nat) (state : Flow.State), labelled[index]? = some x ∧
      placeAt labelled index = place ∧ analysis.states[index]? = some (some state) ∧
      ((frameAt place instructions).isSome ↔
        NeedsFrame (jumpTargets method.instructions method.tryCatches) instructions place) ∧
      ∀ frame, frameAt place instructions = some frame → frame = state.toFrame
  ends : frameAt (real instructions).length instructions = none
  sites : ∀ (frame : StackFrame) (site : Label), .frame frame ∈ instructions →
    .uninitialized site ∈ frame.locals ++ frame.stack →
      ∃ (place : Nat) (class_ : String), site ∈ labelsAt place instructions ∧
        (real instructions)[place]? = some (.type Opcode.new class_)

/-- Frames do not change where frames have to stand. -/
theorem needsFrame_iff_comes {targets : List Label} {xs ys : List Instruction}
    (hentries : withoutFrames ys = withoutFrames xs) (hreal : real ys = real xs) (place : Nat) :
    NeedsFrame targets ys place ↔ Comes (Std.HashSet.ofList targets).contains false xs place := by
  have hfollows : FollowsTerminal ys place ↔ FollowsTerminal xs place := by
    cases place with
    | zero => exact Iff.rfl
    | succ place => rw [FollowsTerminal, FollowsTerminal, hreal]
  rw [NeedsFrame, Comes, labelsAt_congr hentries, hfollows]
  simp [Std.HashSet.contains_ofList]

/-- An allocation that the frame of a state names has a label, and this stands right before it. -/
theorem exists_place_of_site {owner : String} {method : MethodNode} {common : Flow.CommonSuper}
    {analysis : Flow.Analysis} {instructions : List Instruction} {next : UInt32}
    (hinstructions : method.instructions = labelSites false next instructions)
    (h : Flow.Analysis.ofMethod owner method common = .ok analysis) {index : Nat} {state : Flow.State}
    (hstate : analysis.states[index]? = some (some state)) {site : Label}
    (hsite : .uninitialized site ∈ state.toFrame.locals ++ state.toFrame.stack) :
    ∃ (place : Nat) (class_ : String), site ∈ labelsAt place method.instructions ∧
      (real method.instructions)[place]? = some (.type Opcode.new class_) := by
  obtain ⟨body, hbody, hnamed⟩ := Flow.Analysis.named_states h
  have hlabelled : body.instructions = (labelSites false next instructions).toArray := by
    rw [(Flow.Body.isOf_of_ofMethod hbody).instructions, hinstructions]
  have hnames := (hnamed index state hstate).toFrame site hsite
  obtain ⟨place, allocation, class_, hlt, hplace, hallocation, hbetween⟩ :=
    exists_label_of_isSite hlabelled hnames
  rw [hinstructions]
  have hsame : placeAt (labelSites false next instructions) allocation =
      placeAt (labelSites false next instructions) place := by
    refine placeAt_eq_of_pseudo (Nat.le_of_lt hlt) fun between hfrom hto => ?_
    rcases Nat.eq_or_lt_of_le hfrom with rfl | hfrom
    · exact ⟨_, hplace, rfl⟩
    · exact hbetween between hfrom hto
  refine ⟨_, class_, ?_, getElem?_real hallocation rfl⟩
  rw [hsame]
  exact List.mem_filterMap.2 ⟨_, mem_entriesAt hplace rfl, rfl⟩

theorem isSome_iff_of_cases {α : Type} {result : Option α} {a : α} {p : Prop}
    (hsome : p → result = some a) (hnone : ¬p → result = none) :
    (result.isSome ↔ p) ∧ ∀ b, result = some b → b = a := by
  by_cases hp : p
  · simp [hsome hp, hp, eq_comm]
  · simp [hnone hp, hp]

/-- What is put before the entries of a list in which the allocations have labels makes it framed. -/
theorem isFramed_placeFrames {owner : String} {method : MethodNode} {labelled : List Instruction}
    {analysis : Flow.Analysis} (hlabelled : labelled = labelSites false method.nextLabel method.instructions)
    (h : Flow.Analysis.ofMethod owner { method with instructions := labelled } Flow.rootOnly =
      .ok analysis) (hunreachable : analysis.unreachable labelled = []) :
    IsFramed method labelled analysis (placeFrames
      (Std.HashSet.ofList (jumpTargets labelled method.tryCatches)).contains false
        (labelled.zip analysis.states.toList)) := by
  have htargets : jumpTargets labelled method.tryCatches =
      jumpTargets method.instructions method.tryCatches := by
    rw [jumpTargets, hlabelled, targets_labelSites, jumpTargets]
  have hsize : analysis.states.toList.length = labelled.length := Flow.Analysis.size_states h
  have hzip : (labelled.zip analysis.states.toList).map (·.1) = labelled :=
    List.map_fst_zip (Nat.le_of_eq hsize.symm)
  have hsteady := steady_of_ofMethod h
  dsimp only at hsteady
  generalize hput : placeFrames (Std.HashSet.ofList (jumpTargets labelled method.tryCatches)).contains
    false (labelled.zip analysis.states.toList) = instructions
  have hentries : withoutFrames instructions = withoutFrames labelled := by
    rw [← hput, withoutFrames_placeFrames, hzip]
  have hreal : real instructions = real labelled := by
    have hagrees := agrees_placeFrames (fun _ => False)
      (Std.HashSet.ofList (jumpTargets labelled method.tryCatches)).contains false
      (labelled.zip analysis.states.toList)
    rw [← hput, hagrees.real, hzip]
  refine ⟨?_, fun place x hx => ?_, ?_, fun frame site hframe hsite => ?_⟩
  · obtain ⟨marks, hmarks⟩ := exists_labels_labelSites method.instructions none method.nextLabel
    rw [hentries, hlabelled]
    refine ⟨marks, hmarks, fun hbelow hroom => ?_⟩
    rw [← placed_withoutFrames] at hbelow ⊢
    exact hmarks.fresh hbelow hroom
  · rw [hreal] at hx
    obtain ⟨index, hindex, rfl, hplain⟩ := exists_of_real hx
    obtain ⟨state, hstate⟩ := exists_state_of_unreachable hunreachable hindex hplain
    have hitem : (labelled.zip analysis.states.toList)[index]? = some (x, some state) :=
      List.getElem?_zip_eq_some.2 ⟨hindex, by rw [Array.getElem?_toList, hstate]⟩
    obtain ⟨hsome, hnone⟩ := frameAt_placeFrames hsteady hitem hplain
    rw [hzip, hput, htargets, ← needsFrame_iff_comes hentries hreal] at hsome hnone
    exact ⟨index, state, hindex, rfl, hstate, isSome_iff_of_cases hsome hnone⟩
  · rw [hreal, ← hput, ← congrArg real hzip]
    refine frameAt_end fun index x s hitem hpseudo hplace => ?_
    rw [hzip] at hplace
    obtain ⟨hx, hs⟩ := List.getElem?_zip_eq_some.1 hitem
    rw [Array.getElem?_toList] at hs
    cases s with
    | none => rfl
    | some state => exact absurd hs (state_none_of_end h hx hpseudo hplace state)
  · rw [← hput] at hframe
    obtain ⟨item, hitem, state, hstate, rfl⟩ := exists_state_of_frame hframe
    obtain ⟨i, hi⟩ := List.getElem?_of_mem hitem
    obtain ⟨-, hi⟩ := List.getElem?_zip_eq_some.1 hi
    rw [Array.getElem?_toList, hstate] at hi
    obtain ⟨place, class_, hlabel, hallocation⟩ := exists_place_of_site hlabelled h hi hsite
    exact ⟨place, class_, by rwa [labelsAt_congr hentries], by rwa [hreal]⟩

/-- Frames that are computed for a method over the hierarchy of which nothing is known stand where they
have to, with what the analysis of the method has found there. -/
theorem exists_isFramed_of_prepare {version : UInt16} {owner : String} {method : MethodNode}
    {prepared : PreparedCode} (hversion : stackMapVersion ≤ version)
    (h : prepare .compute version owner method Flow.rootOnly = .ok prepared) :
    ∃ labelled analysis, labelled = labelSites false method.nextLabel method.instructions ∧
      Flow.Analysis.ofMethod owner { method with instructions := labelled } Flow.rootOnly =
        .ok analysis ∧ IsFramed method labelled analysis prepared.instructions := by
  rw [prepare, if_pos ⟨rfl, hversion⟩] at h
  obtain ⟨labelled, analysis, hlabelled, hanalysis, hunreachable, hprepared⟩ :=
    exists_analysis_of_computeFrames h
  rw [hprepared]
  exact ⟨labelled, analysis, hlabelled, hanalysis,
    isFramed_placeFrames hlabelled hanalysis hunreachable⟩

section
open JvmArchive.Flow

/-- A method that jumps with an object that it has allocated but not initialised. -/
def carrying : MethodNode where
  access := 8
  name := "m"
  desc := "()V"
  instructions := [.type Opcode.new "p/B", .jump Opcode.goto ⟨0⟩, .label ⟨0⟩, .simple Opcode.pop,
    .simple Opcode.returnVoid]

/-- Its instructions once the allocation has a label. -/
def carryingLabelled : List Instruction := .label ⟨1⟩ :: carrying.instructions

/-- The stack holds the object that is not initialised. -/
def carried : State := { stack := [.uninitialized ⟨1⟩] }

/-- What is known of every instruction in the end. -/
def carryingAnalysis : Analysis where
  states := #[some {}, some {}, some carried, some carried, some carried, some {}]
  maxStack := 1
  maxLocals := 0

/-- The method without handlers, given where its labels stand. -/
def carryingBody (places : Std.HashMap Label Nat) : Body :=
  ⟨"p/A", carryingLabelled.toArray, places, []⟩

/-- The jump is reached. -/
def carryingBefore : Progress where
  states := #[some {}, some {}, some carried, none, none, none]
  pending := [2]
  findings := { sites := (∅ : Std.HashMap Label String).insert ⟨1⟩ "p/B", maxStack := 1 }

/-- The jump has led to the label, whose place is the fourth. -/
def carryingBehind : Progress where
  states := #[some {}, some {}, some carried, some carried, none, none]
  pending := [3]
  findings := carryingBefore.findings

theorem exists_ofMethod_carrying : ∃ places : Std.HashMap Label Nat, places[(⟨0⟩ : Label)]? = some 3 ∧
    Body.ofMethod "p/A" { carrying with instructions := carryingLabelled } = .ok (carryingBody places) :=
  ⟨Body.placesOf carryingLabelled, by simp [Body.placesOf, carryingLabelled, carrying], rfl⟩

section
variable {places : Std.HashMap Label Nat}

theorem step_carryingBefore (hplace : places[(⟨0⟩ : Label)]? = some 3) :
    carryingBefore.step (carryingBody places) rootOnly = .ok carryingBehind := by
  have hsuccessors : (carryingBody places).successors 2 (.jump Opcode.goto ⟨0⟩) = .ok [3] := by
    simp only [Body.successors, Instruction.targets, List.mapM_cons, List.mapM_nil, Body.place,
      carryingBody, hplace]
    rfl
  change (do
    let successors ← (carryingBody places).successors 2 (.jump Opcode.goto ⟨0⟩)
    successors.foldlM _ _) = _
  rw [hsuccessors]
  rfl

theorem run_carrying (hplace : places[(⟨0⟩ : Label)]? = some 3) (limit : Nat) :
    (Progress.start (carryingBody places) { carrying with instructions := carryingLabelled }).run
        (carryingBody places) rootOnly (limit + 3 + 1 + 2) =
      .ok ⟨carryingAnalysis.states, [], carryingBefore.findings⟩ := by
  rw [Progress.start_of_static _ (by decide) rfl]
  calc Progress.run (carryingBody places) rootOnly (limit + 3 + 1 + 2)
        ⟨#[some {}, none, none, none, none, none], [0], {}⟩
      = carryingBefore.run (carryingBody places) rootOnly (limit + 3 + 1) := rfl
    _ = carryingBehind.run (carryingBody places) rootOnly (limit + 3) :=
      Progress.run_succ (step_carryingBefore hplace)
    _ = Progress.run (carryingBody places) rootOnly limit
        ⟨carryingAnalysis.states, [], carryingBefore.findings⟩ := rfl
    _ = .ok ⟨carryingAnalysis.states, [], carryingBefore.findings⟩ := Progress.run_of_idle rfl

end

theorem ofMethod_carrying :
    Analysis.ofMethod "p/A" { carrying with instructions := carryingLabelled } rootOnly =
      .ok carryingAnalysis := by
  obtain ⟨places, hplace, hbody⟩ := exists_ofMethod_carrying
  obtain ⟨rest, hrest⟩ : ∃ rest, Analysis.stepLimit (carryingBody places) = rest + 3 + 1 + 2 :=
    ⟨Analysis.stepLimit (carryingBody places) - 6, by unfold Analysis.stepLimit; omega⟩
  simp only [Analysis.ofMethod, hbody, bind, Except.bind, hrest, run_carrying hplace]
  rfl

theorem labelSites_carrying :
    labelSites false carrying.nextLabel carrying.instructions = carryingLabelled := by
  rfl

theorem computeFrames_carrying : computeFrames "p/A" carrying rootOnly = .ok
    { instructions := [.label ⟨1⟩, .type Opcode.new "p/B", .jump Opcode.goto ⟨0⟩,
        .frame { stack := [.uninitialized ⟨1⟩] }, .label ⟨0⟩,
        .frame { stack := [.uninitialized ⟨1⟩] }, .simple Opcode.pop, .simple Opcode.returnVoid]
      maxStack := 1
      maxLocals := 0 } := by
  have htarget : (Std.HashSet.ofList (jumpTargets carryingLabelled carrying.tryCatches)).contains ⟨0⟩ =
      true := by
    rw [Std.HashSet.contains_ofList]
    rfl
  have hother : (Std.HashSet.ofList (jumpTargets carryingLabelled carrying.tryCatches)).contains ⟨1⟩ =
      false := by
    rw [Std.HashSet.contains_ofList]
    rfl
  unfold computeFrames
  dsimp only
  rw [labelSites_carrying, ofMethod_carrying]
  generalize (Std.HashSet.ofList (jumpTargets carryingLabelled carrying.tryCatches)).contains = isTarget
    at htarget hother
  change Except.ok (PreparedCode.mk (placeFrames isTarget false _) 1 0) = _
  simp only [carryingLabelled, carrying, carryingAnalysis, List.zip_cons_cons, List.zip_nil_left,
    placeFrames, htarget, hother, if_true]
  rfl

/-- It is prepared with a frame at the place that it jumps to, which names the allocation by its label. -/
theorem exists_isFramed_carrying : ∃ prepared labelled analysis,
    prepare .compute 50 "p/A" carrying rootOnly = .ok prepared ∧
      frameAt 2 prepared.instructions = some { stack := [.uninitialized ⟨1⟩] } ∧
      labelled = labelSites false carrying.nextLabel carrying.instructions ∧
      Analysis.ofMethod "p/A" { carrying with instructions := labelled } rootOnly = .ok analysis ∧
      IsFramed carrying labelled analysis prepared.instructions := by
  have hprepare : prepare .compute 50 "p/A" carrying rootOnly = computeFrames "p/A" carrying rootOnly :=
    if_pos (by decide)
  have hprepared := hprepare.trans computeFrames_carrying
  obtain ⟨labelled, analysis, hframed⟩ := exists_isFramed_of_prepare (by decide) hprepared
  exact ⟨_, labelled, analysis, hprepared, rfl, hframed⟩

/-- A method whose labels are the last two numbers, and which allocates where no label stands. -/
def wrapping : MethodNode where
  access := 8
  name := "m"
  desc := "()V"
  instructions := [.label ⟨4294967294⟩, .label ⟨4294967295⟩, .line 5 ⟨4294967295⟩, .simple Opcode.nop,
    .type Opcode.new "p/B", .simple Opcode.pop, .simple Opcode.returnVoid]

/-- Its instructions once the allocation has a label. Counting on from the last number starts again with
the first, so the placed labels do not keep the last number from being handed out. -/
def wrappingLabelled : List Instruction :=
  [.label ⟨4294967294⟩, .label ⟨4294967295⟩, .line 5 ⟨4294967295⟩, .simple Opcode.nop,
    .label ⟨4294967295⟩, .type Opcode.new "p/B", .simple Opcode.pop, .simple Opcode.returnVoid]

theorem labelSites_wrapping :
    labelSites false wrapping.nextLabel wrapping.instructions = wrappingLabelled := by
  rfl

theorem ofMethod_wrapping :
    Analysis.ofMethod "p/A" { wrapping with instructions := wrappingLabelled } rootOnly =
      .ok
        { states :=
            #[some {}, some {}, some {}, some {}, some {}, some {},
              some { stack := [.uninitialized ⟨4294967295⟩] }, some {}]
          maxStack := 1
          maxLocals := 0 } := by
  -- Nothing jumps, so no place of a label is looked for.
  generalize hplaces : Body.placesOf wrappingLabelled = places
  let method : MethodNode := { wrapping with instructions := wrappingLabelled }
  let body : Body := ⟨"p/A", wrappingLabelled.toArray, places, []⟩
  have hbody : Body.ofMethod "p/A" method = .ok body := by
    rw [Body.ofMethod, show Body.placesOf method.instructions = places from hplaces]
    rfl
  let fresh : State := { stack := [.uninitialized ⟨4294967295⟩] }
  let found : Findings :=
    { sites := (∅ : Std.HashMap Label String).insert ⟨4294967295⟩ "p/B", maxStack := 1 }
  have hstart : Progress.start body method =
      ⟨#[some {}, none, none, none, none, none, none, none], [0], {}⟩ :=
    Progress.start_of_static body (by decide) rfl
  have hrun : (Progress.start body method).run body rootOnly (Analysis.stepLimit body) =
      .ok ⟨#[some {}, some {}, some {}, some {}, some {}, some {}, some fresh, some {}], [],
        found⟩ := by
    rw [hstart]
    rfl
  change Analysis.ofMethod "p/A" method rootOnly = _
  simp only [Analysis.ofMethod, hbody, bind, Except.bind, hrun]
  rfl

/-- The method places no label twice, and gets a label that it has. -/
theorem not_nodup_placed_wrapping :
    wrapping.nextLabel = (CodeList.ofList wrapping.instructions).nextLabel ∧
      (placed wrapping.instructions).Nodup ∧
      prepare .compute 50 "p/A" wrapping rootOnly =
        .ok { instructions := wrappingLabelled, maxStack := 1, maxLocals := 0 } ∧
      ¬(placed wrappingLabelled).Nodup := by
  have hprepare : prepare .compute 50 "p/A" wrapping rootOnly = computeFrames "p/A" wrapping rootOnly :=
    if_pos (by decide)
  have hnone : ∀ label, (Std.HashSet.ofList (jumpTargets wrappingLabelled
      wrapping.tryCatches)).contains label = false := by
    intro label
    rw [Std.HashSet.contains_ofList]
    rfl
  refine ⟨rfl, by decide, ?_, by decide⟩
  rw [hprepare]
  unfold computeFrames
  dsimp only
  rw [labelSites_wrapping, ofMethod_wrapping]
  generalize (Std.HashSet.ofList (jumpTargets wrappingLabelled wrapping.tryCatches)).contains = isTarget
    at hnone
  change Except.ok (PreparedCode.mk (placeFrames isTarget false _) 1 0) = _
  simp only [wrappingLabelled, List.zip_cons_cons, List.zip_nil_left, placeFrames, hnone,
    Bool.false_eq_true, if_false]
  rfl

end

end Encode
end JvmArchive
