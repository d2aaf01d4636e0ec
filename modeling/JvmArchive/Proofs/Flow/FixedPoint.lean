import JvmArchive.Proofs.Flow.Settling

/-!
# What an analysis ends with

When the queue of an analysis is empty, its states are a fixed point: every state can be executed, what
results has been absorbed by all successors and handlers, and the two sizes are large enough for every
state and for everything that happens in between.
-/
namespace JvmArchive.Flow

/-- The local variables up to the last one that an instruction names. -/
def slotsOf : Instruction → Nat
  | .var op slot => Execution.slotsUpTo op slot
  | .iinc slot _ => slot.toNat + 1
  | _ => 0

/-- Executing an instruction counts the local variables that it names. -/
theorem slotsOf_le {owner : String} {site : Label} {instruction : Instruction}
    {machine machine' : Machine}
    (h : Execution.instruction owner site instruction machine = .ok ((), machine')) :
    slotsOf instruction ≤ machine'.findings.maxLocals := by
  cases instruction
  case var op slot =>
    obtain ⟨middle, -, hreach⟩ := exists_of_bind_ok h
    cases hreach
    exact Nat.le_max_right _ _
  case iinc slot increment =>
    cases h
    exact Nat.le_max_right _ _
  all_goals exact Nat.zero_le _

namespace Analysis

/-- Whether an instruction has a state that has absorbed the given one. -/
def Reaches (analysis : Analysis) (index : Nat) (incoming : State) : Prop :=
  ∃ state, analysis.states[index]? = some (some state) ∧ state.Absorbs incoming

/-- Whether that is so of an instruction that places the label. -/
def ReachesLabel (method : MethodNode) (analysis : Analysis) (label : Label) (incoming : State) :
    Prop :=
  ∃ index, method.instructions[index]? = some (.label label) ∧ analysis.Reaches index incoming

/-- What has become of a state that an instruction is executed on: it has been absorbed by all
successors, and the two sizes are large enough for the state and for the execution. -/
structure Propagates (method : MethodNode) (analysis : Analysis) (index : Nat)
    (instruction : Instruction) (after : State) (found : Findings) : Prop where
  jumps : ∀ target ∈ instruction.targets, analysis.ReachesLabel method target after
  falls : instruction.opcode?.any Opcode.isTerminal = false → analysis.Reaches (index + 1) after
  stack : after.stack.length ≤ analysis.maxStack.toNat
  locals : after.locals.length ≤ analysis.maxLocals.toNat
  maxStack : found.maxStack ≤ analysis.maxStack.toNat
  maxLocals : found.maxLocals ≤ analysis.maxLocals.toNat

/-- Sound states of a method, given the allocation sites that each instruction knows: the first state
has absorbed the entry state, each state can be executed and what results has been propagated, the local
variables before a protected instruction have been absorbed by its handlers, and the two sizes are large
enough. -/
structure Sound (body : Body) (method : MethodNode) (known : Nat → Std.HashMap Label String)
    (analysis : Analysis) : Prop where
  entry : method.instructions ≠ [] →
    analysis.Reaches 0 { locals := expand (method.entryLocals body.owner), stack := [] }
  allocated : ∀ (index : Nat) (site : Label) (class_ : String),
    (known index)[site]? = some class_ → body.Allocates site class_
  executes : ∀ {index : Nat} {instruction : Instruction} {before : State},
    method.instructions[index]? = some instruction →
    analysis.states[index]? = some (some before) →
      ∃ after found, Execution.instruction body.owner (body.site index) instruction
          ⟨before, { sites := known index }⟩ = .ok ((), ⟨after, found⟩) ∧
        analysis.Propagates method index instruction after found
  handles : ∀ {index start stop : Nat} {instruction : Instruction} {before : State}
      {block : TryCatch},
    method.instructions[index]? = some instruction → instruction.isPseudo = false →
    analysis.states[index]? = some (some before) → block ∈ method.tryCatches →
    method.instructions[start]? = some (.label block.start) →
    method.instructions[stop]? = some (.label block.stop) → start ≤ index → index < stop →
      analysis.ReachesLabel method block.handler
        { locals := before.locals
          stack := [.object (block.catchType.getD "java/lang/Throwable")] }
  stack : ∀ {index : Nat} {state : State}, analysis.states[index]? = some (some state) →
    state.stack.length ≤ analysis.maxStack.toNat
  locals : ∀ {index : Nat} {state : State}, analysis.states[index]? = some (some state) →
    state.locals.length ≤ analysis.maxLocals.toNat
  slots : ∀ {index : Nat} {instruction : Instruction} {before : State},
    method.instructions[index]? = some instruction →
    analysis.states[index]? = some (some before) →
      slotsOf instruction ≤ analysis.maxLocals.toNat

variable {owner : String} {method : MethodNode} {analysis : Analysis}

/-- The progress in which an analysis has ended: nothing waits any more. -/
structure EndsIn (body : Body) (entry : State) (analysis : Analysis) (progress : Progress) : Prop where
  settling : progress.Settling body entry
  idle : progress.pending = []
  states : analysis.states = progress.states
  maxStack : analysis.maxStack.toNat = progress.findings.maxStack
  maxLocals : analysis.maxLocals.toNat = progress.findings.maxLocals

theorem exists_endsIn_of_ofMethod (h : ofMethod owner method rootOnly = .ok analysis) :
    ∃ body progress, Body.ofMethod owner method = .ok body ∧
      EndsIn body { locals := expand (method.entryLocals body.owner), stack := [] } analysis
        progress := by
  obtain ⟨body, hbody, hrun⟩ := exists_of_bind_ok h
  obtain ⟨progress, hprogress, hrest⟩ := exists_of_bind_ok hrun
  obtain ⟨hsettling, hidle⟩ := Progress.settling_run (Body.isOf_of_ofMethod hbody)
    (Progress.settling_start body method) hprogress
  refine ⟨body, progress, hbody, ?_⟩
  dsimp only at hrest
  split at hrest
  · cases hrest
  · split at hrest
    · cases hrest
    · cases hrest
      refine ⟨hsettling, hidle, rfl, ?_, ?_⟩ <;>
      · simp only [Nat.toUInt16, UInt16.toNat_ofNat']
        omega

namespace EndsIn

variable {body : Body} {progress : Progress} {entry : State} {index : Nat} {instruction : Instruction}
  {before : State}

theorem visited (h : EndsIn body entry analysis progress) (hof : body.IsOf owner method)
    (hinstruction : method.instructions[index]? = some instruction)
    (hbefore : analysis.states[index]? = some (some before)) :
    progress.Visited body index instruction before := by
  have hinstruction' : body.instructions[index]? = some instruction := by
    rw [hof.instructions, List.getElem?_toArray, hinstruction]
  rw [h.states] at hbefore
  exact (h.settling.visited hinstruction' hbefore).resolve_left (by simp [h.idle])

theorem reaches (h : EndsIn body entry analysis progress) {incoming : State}
    (hreaches : progress.Reaches index incoming) : analysis.Reaches index incoming := by
  obtain ⟨state, hstate, habsorbs⟩ := hreaches
  exact ⟨state, h.states ▸ hstate, habsorbs⟩

/-- Each instruction that has a state can be executed on it, whatever sites are known beyond those that
its last visit knew, and what results has been propagated. -/
theorem exists_propagates (h : EndsIn body entry analysis progress) (hof : body.IsOf owner method)
    (hinstruction : method.instructions[index]? = some instruction)
    (hbefore : analysis.states[index]? = some (some before)) :
    ∃ findings, findings.Allocated body ∧ progress.findings.Follows body.Allocates findings ∧
      ∀ sites : Std.HashMap Label String,
        (∀ (site : Label) (class_ : String),
          findings.sites[site]? = some class_ → sites[site]? = some class_) →
        ∃ after found, Execution.instruction body.owner (body.site index) instruction
            ⟨before, { sites }⟩ = .ok ((), ⟨after, found⟩) ∧
          analysis.Propagates method index instruction after found := by
  obtain ⟨findings, after, found, hallocated, hrun, hcounted, hknown, hfound, successors,
    hsuccessors, hreaches⟩ := (h.visited hof hinstruction hbefore).executed
  refine ⟨findings, hallocated, hknown, fun sites hsites => ?_⟩
  have hregular : Execution.Regular body.Allocates
      (Execution.instruction body.owner (body.site index) instruction) := by
    refine Execution.regular_instruction _ _ fun class_ hnew => ⟨index, ?_, rfl⟩
    rw [hof.instructions, List.getElem?_toArray, hinstruction, hnew]
  have hserves : Findings.Serves { sites } findings := ⟨hsites, Nat.zero_le _, Nat.zero_le _⟩
  obtain ⟨found', hrun', hserves'⟩ := hregular.served hrun hserves
  obtain ⟨htargets, hfalls, -⟩ := hof.successors_spec hsuccessors
  refine ⟨after, found', hrun', ?_, fun hfall => h.reaches (hreaches _ (hfalls hfall)), ?_, ?_, ?_, ?_⟩
  · intro target htarget
    obtain ⟨next, hnext, hplace⟩ := htargets target htarget
    exact ⟨next, hplace, h.reaches (hreaches next hnext)⟩
  · rw [h.maxStack]
    exact hcounted.stack.trans hfound.maxStack
  · rw [h.maxLocals]
    exact hcounted.locals.trans hfound.maxLocals
  · rw [h.maxStack]
    exact hserves'.maxStack.trans hfound.maxStack
  · rw [h.maxLocals]
    exact hserves'.maxLocals.trans hfound.maxLocals

/-- The handlers of a protected instruction have absorbed the local variables before it. -/
theorem reachesLabel_handler (h : EndsIn body entry analysis progress) (hof : body.IsOf owner method)
    (hplaced : PlacedOnce method.instructions) {start stop : Nat} {block : TryCatch}
    (hinstruction : method.instructions[index]? = some instruction)
    (hreal : instruction.isPseudo = false) (hbefore : analysis.states[index]? = some (some before))
    (hblock : block ∈ method.tryCatches)
    (hstart : method.instructions[start]? = some (.label block.start))
    (hstop : method.instructions[stop]? = some (.label block.stop)) (hfrom : start ≤ index)
    (hto : index < stop) :
    analysis.ReachesLabel method block.handler
      { locals := before.locals
        stack := [.object (block.catchType.getD "java/lang/Throwable")] } := by
  obtain ⟨i, hi, rfl⟩ := List.getElem_of_mem hblock
  have hhandler : i < body.handlers.length := hof.handlers.length_eq ▸ hi
  have hhandles : Body.Handles method.instructions method.tryCatches[i] body.handlers[i] :=
    hof.handles.get hi hhandler
  have hreaches := (h.visited hof hinstruction hbefore).handled hreal body.handlers[i]
    (List.getElem_mem _) (hplaced.once hhandles.start hstart ▸ hfrom)
    (hplaced.once hhandles.stop hstop ▸ hto)
  rw [Progress.caught, hhandles.catchType] at hreaches
  exact ⟨_, hhandles.target, h.reaches hreaches⟩

theorem slotsOf_le (h : EndsIn body entry analysis progress) (hof : body.IsOf owner method)
    (hinstruction : method.instructions[index]? = some instruction)
    (hbefore : analysis.states[index]? = some (some before)) :
    slotsOf instruction ≤ analysis.maxLocals.toNat := by
  obtain ⟨findings, after, found, -, hrun, -, -, hfound, -⟩ :=
    (h.visited hof hinstruction hbefore).executed
  rw [h.maxLocals]
  exact (Flow.slotsOf_le hrun).trans hfound.maxLocals

/-- The states in which an analysis ends are sound under the sites that each last visit knew. -/
theorem sound (h : EndsIn body entry analysis progress) (hof : body.IsOf owner method)
    (hentry : entry = { locals := expand (method.entryLocals body.owner), stack := [] })
    (hplaced : PlacedOnce method.instructions) {known : Nat → Std.HashMap Label String}
    (hallocated : ∀ (index : Nat) (site : Label) (class_ : String),
      (known index)[site]? = some class_ → body.Allocates site class_)
    (hexecutes : ∀ {index : Nat} {instruction : Instruction} {before : State},
      method.instructions[index]? = some instruction →
      analysis.states[index]? = some (some before) →
        ∃ after found, Execution.instruction body.owner (body.site index) instruction
            ⟨before, { sites := known index }⟩ = .ok ((), ⟨after, found⟩) ∧
          analysis.Propagates method index instruction after found) :
    analysis.Sound body method known where
  entry hne := by
    have hpos : 0 < body.instructions.size := by
      rw [hof.instructions]
      simpa using List.length_pos_iff.2 hne
    exact hentry ▸ h.reaches (h.settling.entry hpos)
  allocated := hallocated
  executes := hexecutes
  handles := h.reachesLabel_handler hof hplaced
  stack hstate := by
    rw [h.states] at hstate
    exact h.maxStack ▸ (h.settling.sound.counted hstate).stack
  locals hstate := by
    rw [h.states] at hstate
    exact h.maxLocals ▸ (h.settling.sound.counted hstate).locals
  slots := h.slotsOf_le hof

end EndsIn

/-- An analysis that succeeds ends in sound states. All instructions know the same allocation sites
unless the method is so long that two of its allocations may share a name. -/
theorem exists_sound_of_ofMethod (hplaced : PlacedOnce method.instructions)
    (h : ofMethod owner method rootOnly = .ok analysis) :
    ∃ body known, Body.ofMethod owner method = .ok body ∧ analysis.Sound body method known ∧
      (method.instructions.length ≤ 2147483648 → ∀ index, known index = known 0) := by
  obtain ⟨body, progress, hbody, hends⟩ := exists_endsIn_of_ofMethod h
  have hof := Body.isOf_of_ofMethod hbody
  by_cases hlength : method.instructions.length ≤ 2147483648
  · refine ⟨body, fun _ => progress.findings.sites, hbody, ?_, fun _ _ => rfl⟩
    refine hends.sound hof rfl hplaced (fun _ => hends.settling.sound.allocated) ?_
    intro index instruction before hinstruction hbefore
    obtain ⟨findings, hallocated, hknown, hpropagates⟩ :=
      hends.exists_propagates hof hinstruction hbefore
    -- A site that was known has a class in the end, and only one class is allocated there.
    refine hpropagates _ fun site class_ hsite => ?_
    obtain ⟨now, hnow⟩ := hknown.kept site class_ hsite
    rw [hnow, Body.class_of_allocates hof.instructions hplaced hlength
      (hallocated site class_ hsite) (hends.settling.sound.allocated site now hnow)]
  · have hsites : ∀ index, ∃ sites : Std.HashMap Label String,
        (∀ (site : Label) (class_ : String),
          sites[site]? = some class_ → body.Allocates site class_) ∧
        ∀ {instruction : Instruction} {before : State},
          method.instructions[index]? = some instruction →
          analysis.states[index]? = some (some before) →
            ∃ after found, Execution.instruction body.owner (body.site index) instruction
                ⟨before, { sites }⟩ = .ok ((), ⟨after, found⟩) ∧
              analysis.Propagates method index instruction after found := by
      intro index
      by_cases hboth : ∃ instruction before, method.instructions[index]? = some instruction ∧
          analysis.states[index]? = some (some before)
      · obtain ⟨instruction, before, hinstruction, hbefore⟩ := hboth
        obtain ⟨findings, hallocated, -, hpropagates⟩ :=
          hends.exists_propagates hof hinstruction hbefore
        refine ⟨findings.sites, hallocated, ?_⟩
        intro instruction' before' hinstruction' hbefore'
        rw [hinstruction] at hinstruction'
        rw [hbefore] at hbefore'
        cases hinstruction'
        cases hbefore'
        exact hpropagates _ fun _ _ => id
      · refine ⟨∅, by simp, ?_⟩
        intro instruction before hinstruction hbefore
        exact absurd ⟨instruction, before, hinstruction, hbefore⟩ hboth
    choose known hallocated hexecutes using hsites
    exact ⟨body, known, hbody, hends.sound hof rfl hplaced hallocated (hexecutes _),
      fun hshort => absurd hshort hlength⟩

/-- A loop that puts the second argument in the place of the first one. A handler protects it and throws
what it has caught on. -/
def joining : MethodNode where
  access := 8
  name := "m"
  desc := "(Lp/B;Lp/C;)V"
  instructions :=
    [.label ⟨0⟩, .var Opcode.aload 1, .var Opcode.astore 0, .jump Opcode.goto ⟨0⟩, .label ⟨1⟩,
      .simple Opcode.athrow]
  tryCatches := [{ start := ⟨0⟩, stop := ⟨1⟩, handler := ⟨1⟩, catchType := none }]

/-- The state in which the local variables and the stack hold objects of these classes. -/
def objects (locals stack : List String) : Option State :=
  some ⟨locals.map .object, stack.map .object⟩

/-- At the head of the loop and before the handler the first local variable is of either class, so that
what is known of it is the superclass that both share. -/
def joiningAnalysis : Analysis where
  states :=
    #[objects [rootClass, "p/C"] [], objects [rootClass, "p/C"] [], objects [rootClass, "p/C"] ["p/C"],
      objects ["p/C", "p/C"] [], objects [rootClass, "p/C"] [Body.anyThrowable],
      objects [rootClass, "p/C"] [Body.anyThrowable]]
  maxStack := 1
  maxLocals := 2

/-- The loop with its only handler, given where its labels stand. -/
def joiningBody (places : Std.HashMap Label Nat) : Body :=
  ⟨"p/A", joining.instructions.toArray, places, [⟨0, 4, 4, Body.anyThrowable⟩]⟩

/-- When the jump is reached for the first time, only the store has changed the first argument. -/
def joiningForth : Progress where
  states :=
    #[objects ["p/B", "p/C"] [], objects ["p/B", "p/C"] [], objects ["p/B", "p/C"] ["p/C"],
      objects ["p/C", "p/C"] [], objects ["p/B", "p/C"] [Body.anyThrowable],
      objects ["p/B", "p/C"] [Body.anyThrowable]]
  pending := [3]
  findings := { maxStack := 1, maxLocals := 2 }

/-- The handler of the jump joins the new first argument with the old one. -/
def joiningCaught : Progress where
  states := joiningForth.states.set 4 (objects [rootClass, "p/C"] [Body.anyThrowable])
  pending := [4]
  findings := joiningForth.findings

/-- So does the head of the loop. -/
def joiningBack : Progress where
  states := joiningCaught.states.set 0 (objects [rootClass, "p/C"] [])
  pending := [4, 0]
  findings := joiningForth.findings

theorem exists_ofMethod_joining : ∃ places : Std.HashMap Label Nat, places[(⟨0⟩ : Label)]? = some 0 ∧
    Body.ofMethod "p/A" joining = .ok (joiningBody places) := by
  have hhead : (Body.placesOf joining.instructions)[(⟨0⟩ : Label)]? = some 0 := by
    simp [Body.placesOf, joining, Std.HashMap.getElem_insert]
  have hhandler : (Body.placesOf joining.instructions)[(⟨1⟩ : Label)]? = some 4 := by
    simp [Body.placesOf, joining]
  refine ⟨Body.placesOf joining.instructions, hhead, ?_⟩
  generalize hplaces : Body.placesOf joining.instructions = places at hhead hhandler
  rw [Body.ofMethod, hplaces]
  simp only [joining, List.mapM_cons, List.mapM_nil, Body.handler, Body.place, hhead, hhandler]
  rfl

section
variable {places : Std.HashMap Label Nat}

theorem run_start_joining (limit : Nat) :
    (Progress.start (joiningBody places) joining).run (joiningBody places) rootOnly (limit + 5) =
      joiningForth.run (joiningBody places) rootOnly limit := by
  have hstart : Progress.start (joiningBody places) joining =
      ⟨#[objects ["p/B", "p/C"] [], none, none, none, none, none], [0], { maxLocals := 2 }⟩ := by
    with_unfolding_all rfl
  rw [hstart]
  with_unfolding_all rfl

theorem step_joiningForth (hhead : places[(⟨0⟩ : Label)]? = some 0) :
    joiningForth.step (joiningBody places) rootOnly = .ok joiningBack := by
  have hsuccessors : (joiningBody places).successors 3 (.jump Opcode.goto ⟨0⟩) = .ok [0] := by
    simp only [Body.successors, Instruction.targets, List.mapM_cons, List.mapM_nil, Body.place,
      joiningBody, hhead]
    rfl
  have hcaught : joiningForth.step (joiningBody places) rootOnly =
      ((joiningBody places).successors 3 (.jump Opcode.goto ⟨0⟩)).bind fun successors =>
        successors.foldlM (Progress.flowTo rootOnly ⟨[.object "p/C", .object "p/C"], []⟩) joiningCaught := by
    with_unfolding_all rfl
  rw [hcaught, hsuccessors]
  with_unfolding_all rfl

theorem run_joiningBack (limit : Nat) : joiningBack.run (joiningBody places) rootOnly (limit + 5) =
    .ok ⟨joiningAnalysis.states, [], joiningBack.findings⟩ := by
  have hlast : joiningBack.run (joiningBody places) rootOnly (limit + 5) =
      Progress.run (joiningBody places) rootOnly limit
        ⟨joiningAnalysis.states, [], joiningBack.findings⟩ := by
    with_unfolding_all rfl
  rw [hlast]
  exact Progress.run_of_idle rfl

end

theorem ofMethod_joining : ofMethod "p/A" joining rootOnly = .ok joiningAnalysis := by
  obtain ⟨places, hhead, hbody⟩ := exists_ofMethod_joining
  have hrun : (Progress.start (joiningBody places) joining).run (joiningBody places) rootOnly
      (stepLimit (joiningBody places)) = .ok ⟨joiningAnalysis.states, [], joiningBack.findings⟩ := by
    obtain ⟨rest, hrest⟩ : ∃ rest, stepLimit (joiningBody places) = rest + 5 + 1 + 5 :=
      ⟨stepLimit (joiningBody places) - 11, by unfold stepLimit; omega⟩
    rw [hrest, run_start_joining, Progress.run_succ (step_joiningForth hhead), run_joiningBack]
  simp only [ofMethod, hbody, bind, Except.bind, hrun]
  rfl

theorem placedOnce_joining : PlacedOnce joining.instructions := by
  have hplaces : ∀ (i : Nat) (label : Label), joining.instructions[i]? = some (.label label) →
      i = 0 ∧ label = ⟨0⟩ ∨ i = 4 ∧ label = ⟨1⟩ := by
    intro i label hi
    rcases i with _ | _ | _ | _ | _ | _ | i
    · exact .inl ⟨rfl, by simpa [joining, eq_comm] using hi⟩
    all_goals simp [joining] at hi
    exact .inr ⟨rfl, hi.symm⟩
  constructor
  · intro i j label hi hj
    rcases hplaces i label hi with ⟨rfl, rfl⟩ | ⟨rfl, rfl⟩ <;>
      rcases hplaces j _ hj with ⟨rfl, hlabel⟩ | ⟨rfl, hlabel⟩ <;> simp_all
  · intro label hlabel
    have hplaced : label = ⟨0⟩ ∨ label = ⟨1⟩ := by simpa [joining] using hlabel
    rcases hplaced with rfl | rfl <;> decide

/-- The states of the loop are sound, and all instructions know the same allocation sites. -/
theorem exists_sound_joining : PlacedOnce joining.instructions ∧
    ofMethod "p/A" joining rootOnly = .ok joiningAnalysis ∧
    ∃ body known, Body.ofMethod "p/A" joining = .ok body ∧ joiningAnalysis.Sound body joining known ∧
      ∀ index, known index = known 0 := by
  obtain ⟨body, known, hbody, hsound, hknown⟩ :=
    exists_sound_of_ofMethod placedOnce_joining ofMethod_joining
  exact ⟨placedOnce_joining, ofMethod_joining, body, known, hbody, hsound, hknown (by decide)⟩

end Analysis
end JvmArchive.Flow
