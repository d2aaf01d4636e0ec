import JvmArchive.Proofs.Flow.Accesses
import JvmArchive.Proofs.Flow.Bodies
import JvmArchive.Proofs.Flow.Steps

/-!
# Where an analysis stops the program

Whatever waits for a visit is an instruction of the method, and so is everything to which a state flows,
so no step looks for a state or an instruction that is not there. What remains is the loading of an
element from an array whose name does not begin with a character of one byte. An analysis that comes to
one stops the program; every other analysis that ends tells its result or an error.
-/
namespace JvmArchive.Flow

namespace Progress

variable {body : Body} {common : CommonSuper} {owner : String} {method : MethodNode}

/-- Whether there is one state for each instruction, and only instructions wait. -/
structure InRange (body : Body) (progress : Progress) : Prop where
  size : progress.states.size = body.instructions.size
  waiting : ∀ index ∈ progress.pending, index < body.instructions.size

/-- Whether something that is done with a progress does not stop the program and leaves a progress in
range. -/
structure Stays (body : Body) (result : Except AnalysisError Progress) : Prop where
  faultless : ∀ cause, result ≠ .error (.fault cause)
  inRange : ∀ {next}, result = .ok next → next.InRange body

/-! ## Flows -/

theorem inRange_enqueue {progress : Progress} {index : Nat} (h : progress.InRange body)
    (hindex : index < body.instructions.size) : (progress.enqueue index).InRange body where
  size := by rw [states_enqueue, h.size]
  waiting := by
    unfold enqueue
    split
    · exact h.waiting
    · intro other hother
      rcases List.mem_append.1 hother with hwaits | hlast
      · exact h.waiting other hwaits
      · rw [List.mem_singleton.1 hlast]
        exact hindex

/-- A state flows to an instruction that is there. -/
theorem stays_flowTo {progress : Progress} {index : Nat} (h : progress.InRange body)
    (hindex : index < body.instructions.size) (incoming : State) :
    Stays body (flowTo common incoming progress index) := by
  have hset : ∀ state, InRange body (enqueue { progress with
      states := progress.states.setIfInBounds index (some state) } index) := fun state =>
    inRange_enqueue ⟨by rw [Array.size_setIfInBounds, h.size], h.waiting⟩ hindex
  unfold flowTo
  split
  · rename_i hnone
    have hbeyond := Array.getElem?_eq_none_iff.1 hnone
    rw [h.size] at hbeyond
    omega
  · exact ⟨by simp, fun hnext => Except.ok.inj hnext ▸ hset _⟩
  · split
    · exact ⟨by simp, by simp⟩
    · split
      · exact ⟨by simp, fun hnext => Except.ok.inj hnext ▸ h⟩
      · exact ⟨by simp, fun hnext => Except.ok.inj hnext ▸ hset _⟩

/-- Flows to several places, one after the other. -/
theorem stays_foldlM {α : Type} {flow : Progress → α → Except AnalysisError Progress}
    {places : List α} (hflow : ∀ place ∈ places, ∀ {progress : Progress}, progress.InRange body →
      Stays body (flow progress place)) {progress : Progress} (h : progress.InRange body) :
    Stays body (places.foldlM flow progress) := by
  induction places generalizing progress with
  | nil =>
    constructor
    · intro cause hfault
      cases hfault
    · intro next hnext
      cases hnext
      exact h
  | cons place places ih =>
    have hfirst := hflow place List.mem_cons_self h
    have hrest := fun {next : Progress} (h : next.InRange body) =>
      ih (fun other hother => hflow other (List.mem_cons_of_mem _ hother)) h
    rw [List.foldlM_cons]
    constructor
    · intro cause hfault
      rcases bind_eq_error_iff.1 hfault with hnow | ⟨next, hnext, hlater⟩
      · exact hfirst.faultless cause hnow
      · exact (hrest (hfirst.inRange hnext)).faultless cause hlater
    · intro last hlast
      obtain ⟨next, hnext, hlater⟩ := exists_of_bind_ok hlast
      exact (hrest (hfirst.inRange hnext)).inRange hlater

theorem successors_ne_fault (index : Nat) (instruction : Instruction) (cause : Fault) :
    body.successors index instruction ≠ .error (.fault cause) := by
  refine bind_ne_error (mapM_ne_error fun label _ => ?_) fun targets => ?_
  · unfold Body.place
    split <;> simp
  · split
    · exact fun h => by cases h
    · split
      · exact fun h => by cases h
      · exact fun h => by cases h

/-! ## Steps -/

variable {progress next : Progress} {cause : Fault} {index : Nat} {instruction : Instruction}
  {before : State}

/-- The flows to the handlers that protect an instruction. -/
theorem stays_handlers (hbody : body.IsOf owner method) (h : progress.InRange body) :
    Stays body ((if instruction.isPseudo then []
      else body.handlers.filter fun h => h.start ≤ index && index < h.stop).foldlM
        (flowToHandler common before) progress) := by
  refine stays_foldlM (fun handler hhandler progress h => ?_) h
  have hmem : handler ∈ body.handlers := by
    split at hhandler
    · cases hhandler
    · exact List.mem_of_mem_filter hhandler
  unfold flowToHandler
  refine stays_flowTo ?_ (hbody.target_lt hmem) _
  exact ⟨h.size, h.waiting⟩

/-- The flows to the successors of an instruction. -/
theorem stays_successors (hbody : body.IsOf owner method) (h : progress.InRange body)
    (after : Machine) : Stays body (body.successors index instruction >>= fun successors =>
      successors.foldlM (flowTo common after.state) { progress with findings := after.findings }) := by
  have hflow : ∀ {successors}, body.successors index instruction = .ok successors →
      Stays body (successors.foldlM (flowTo common after.state)
        { progress with findings := after.findings }) := by
    intro successors hsuccessors
    have hinside := (hbody.successors_spec hsuccessors).2.2
    exact stays_foldlM (fun next hnext _ h => stays_flowTo h (hinside next hnext) _)
      ⟨h.size, h.waiting⟩
  constructor
  · intro cause hfault
    rcases bind_eq_error_iff.1 hfault with hnow | ⟨successors, hsuccessors, hlater⟩
    · exact successors_ne_fault index instruction cause hnow
    · exact (hflow hsuccessors).faultless cause hlater
  · intro last hlast
    obtain ⟨successors, hsuccessors, hlater⟩ := exists_of_bind_ok hlast
    exact (hflow hsuccessors).inRange hlater

/-- A visit stops the program exactly if its instruction does, once the handlers that protect it have
been given their states. -/
theorem visit_eq_fault_iff (hbody : body.IsOf owner method) (h : progress.InRange body) :
    visit body common progress index instruction before = .error (.fault cause) ↔
      ∃ middle, (if instruction.isPseudo then []
        else body.handlers.filter fun h => h.start ≤ index && index < h.stop).foldlM
          (flowToHandler common before) progress = .ok middle ∧
        Execution.instruction body.owner (body.site index) instruction ⟨before, middle.findings⟩ =
          .error (.fault cause) := by
  have hhandlers : Stays body ((if instruction.isPseudo then []
      else body.handlers.filter fun h => h.start ≤ index && index < h.stop).foldlM
        (flowToHandler common before) progress) := stays_handlers hbody h
  unfold visit
  dsimp only
  rw [bind_eq_error_iff, or_iff_right (hhandlers.faultless cause)]
  refine exists_congr fun middle => and_congr_right fun hrun => ?_
  rw [StateT.run]
  cases Execution.instruction body.owner (body.site index) instruction ⟨before, middle.findings⟩ with
  | error error => cases error <;> simp [AnalysisError.ofExecution]
  | ok result =>
    have hmiddle := hhandlers.inRange hrun
    exact iff_of_false ((stays_successors hbody hmiddle result.2).faultless cause) (by simp)

theorem inRange_visit (hbody : body.IsOf owner method) (h : progress.InRange body)
    (hvisit : visit body common progress index instruction before = .ok next) :
    next.InRange body := by
  obtain ⟨middle, hhandlers, hrest⟩ := exists_of_bind_ok hvisit
  have hmiddle := (stays_handlers hbody h).inRange hhandlers
  split at hrest
  · cases hrest
  · exact (stays_successors hbody hmiddle _).inRange hrest

/-- Whether the next instruction loads an element from an array with the given name, which does not begin
with a character of one byte, after the handlers that protect the instruction have been given their
states. -/
def Cuts (body : Body) (common : CommonSuper) (progress : Progress) (name : String) : Prop :=
  ∃ index pending before handled, progress.pending = index :: pending ∧
    body.instructions[index]? = some (.simple Opcode.aaload) ∧
    progress.states[index]? = some (some before) ∧ before.stack[1]? = some (.object name) ∧
    startsWithByte name = false ∧
    (body.handlers.filter fun h => h.start ≤ index && index < h.stop).foldlM
      (flowToHandler common before) { progress with pending } = .ok handled

/-- A step stops the program exactly if it would cut the name of an array. -/
theorem step_eq_fault_iff (hbody : body.IsOf owner method) (h : progress.InRange body) :
    progress.step body common = .error (.fault cause) ↔
      ∃ name, cause = .cut name ∧ progress.Cuts body common name := by
  unfold step
  split
  · rename_i hpending
    refine iff_of_false (by simp) ?_
    rintro ⟨name, -, index, pending, before, handled, hqueue, -⟩
    rw [hpending] at hqueue
    cases hqueue
  · rename_i index pending hpending
    have hindex : index < body.instructions.size := h.waiting index (hpending ▸ List.mem_cons_self)
    have htaken : InRange body { progress with pending } :=
      ⟨h.size, fun other hother => h.waiting other (hpending ▸ List.mem_cons_of_mem _ hother)⟩
    dsimp only
    split
    · rename_i before instruction hbefore hinstruction
      rw [visit_eq_fault_iff hbody htaken]
      constructor
      · rintro ⟨handled, hhandlers, hfault⟩
        by_cases hload : instruction = .simple Opcode.aaload
        · subst hload
          obtain ⟨name, hname, hbyte, rfl⟩ := (Execution.aaload_eq_fault_iff _ _).1 hfault
          exact ⟨name, rfl, index, pending, before, handled, hpending, hinstruction, hbefore, hname,
            hbyte, hhandlers⟩
        · exact absurd hfault (Execution.faultless_instruction _ _ hload _ _)
      · rintro ⟨name, rfl, index', pending', before', handled, hqueue, hload, hstate, hname, hbyte,
          hhandlers⟩
        rw [hpending] at hqueue
        cases hqueue
        rw [hinstruction] at hload
        cases hload
        rw [hbefore] at hstate
        cases hstate
        exact ⟨handled, hhandlers, (Execution.aaload_eq_fault_iff _ _).2 ⟨name, hname, hbyte, rfl⟩⟩
    · rename_i hunreached
      refine iff_of_false (by simp) ?_
      rintro ⟨name, -, index', pending', before', handled, hqueue, -, hstate, -⟩
      rw [hpending] at hqueue
      cases hqueue
      rw [hunreached] at hstate
      cases hstate
    · rename_i hnone
      rw [Array.getElem?_eq_none_iff, h.size] at hnone
      omega
    · rename_i hnone
      rw [Array.getElem?_eq_none_iff] at hnone
      omega

theorem inRange_step (hbody : body.IsOf owner method) (h : progress.InRange body)
    (hstep : progress.step body common = .ok next) : next.InRange body := by
  unfold step at hstep
  split at hstep
  · cases hstep
    exact h
  · rename_i index pending hpending
    have htaken : InRange body { progress with pending } :=
      ⟨h.size, fun other hother => h.waiting other (hpending ▸ List.mem_cons_of_mem _ hother)⟩
    dsimp only at hstep
    split at hstep
    · exact inRange_visit hbody htaken hstep
    · cases hstep
      exact htaken
    · cases hstep
    · cases hstep

/-! ## Runs -/

/-- Whether so many steps lead from one progress to another. -/
inductive Comes (body : Body) (common : CommonSuper) : Nat → Progress → Progress → Prop
  | refl (progress : Progress) : Comes body common 0 progress progress
  | step {steps : Nat} {progress next last : Progress} (hstep : progress.step body common = .ok next)
    (h : Comes body common steps next last) : Comes body common (steps + 1) progress last

theorem inRange_start (body : Body) (method : MethodNode) : (start body method).InRange body where
  size := by simp [start]
  waiting := by
    intro index hindex
    unfold start at hindex
    dsimp only at hindex
    split at hindex
    · cases hindex
    · rename_i hne
      rw [List.mem_singleton.1 hindex]
      exact Nat.pos_of_ne_zero fun hzero => hne (by simpa using Array.eq_empty_of_size_eq_zero hzero)

theorem inRange_of_comes (hbody : body.IsOf owner method) {steps : Nat} {last : Progress}
    (hcomes : Comes body common steps progress last) (h : progress.InRange body) :
    last.InRange body := by
  induction hcomes with
  | refl => exact h
  | step hstep _ ih => exact ih (inRange_step hbody h hstep)

/-- A run stops the program exactly if it comes to a step that does. -/
theorem run_eq_fault_iff {limit : Nat} :
    run body common limit progress = .error (.fault cause) ↔
      ∃ steps < limit, ∃ last, Comes body common steps progress last ∧
        last.step body common = .error (.fault cause) := by
  constructor
  · intro h
    induction limit generalizing progress with
    | zero =>
      unfold run at h
      split at h <;> cases h
    | succ limit ih =>
      cases hstep : progress.step body common with
      | error error =>
        unfold run at h
        split at h
        · cases h
        · rw [hstep] at h
          exact ⟨0, Nat.succ_pos _, progress, .refl _, hstep.trans h⟩
      | ok next =>
        rw [run_succ hstep] at h
        obtain ⟨steps, hlt, last, hcomes, hfault⟩ := ih h
        exact ⟨steps + 1, Nat.succ_lt_succ hlt, last, .step hstep hcomes, hfault⟩
  · rintro ⟨steps, hlt, last, hcomes, hfault⟩
    obtain ⟨limit, rfl⟩ := Nat.exists_eq_succ_of_ne_zero (Nat.ne_zero_of_lt hlt)
    induction hcomes generalizing limit with
    | refl progress =>
      unfold run
      split
      · rename_i hempty
        have hidle : progress.pending = [] := by simpa using hempty
        simp [step, hidle] at hfault
      · rw [hfault]
    | step hstep _ ih =>
      obtain ⟨limit, rfl⟩ : ∃ rest, limit = rest + 1 :=
        Nat.exists_eq_succ_of_ne_zero (Nat.ne_zero_of_lt (Nat.lt_of_succ_lt_succ hlt))
      rw [run_succ hstep]
      exact ih hfault limit (Nat.lt_of_succ_lt_succ hlt)

end Progress

namespace Analysis

variable {owner : String} {method : MethodNode} {common : CommonSuper}

/-- Making a method ready for analysis does not stop the program. -/
theorem body_ne_fault (cause : Fault) : Body.ofMethod owner method ≠ .error (.fault cause) := by
  have hplace : ∀ places label, Body.place places label ≠ .error (.fault cause) := by
    intro places label
    unfold Body.place
    split <;> simp
  refine bind_ne_error (mapM_ne_error fun block _ => ?_) fun handlers h => by cases h
  exact bind_ne_error (hplace _ _) fun start => bind_ne_error (hplace _ _) fun stop =>
    bind_ne_error (hplace _ _) fun target h => by cases h

theorem ofMethod_eq_fault_iff_run {cause : Fault} :
    ofMethod owner method common = .error (.fault cause) ↔
      ∃ body, Body.ofMethod owner method = .ok body ∧
        (Progress.start body method).run body common (stepLimit body) = .error (.fault cause) := by
  have hrest : ∀ progress : Progress, (do
      if 65535 < progress.findings.maxStack then throw .stackTooDeep
      if 65535 < progress.findings.maxLocals then throw .tooManyLocals
      return { states := progress.states, maxStack := progress.findings.maxStack.toUInt16,
               maxLocals := progress.findings.maxLocals.toUInt16 } :
        Except AnalysisError Analysis) ≠ .error (.fault cause) := by
    intro progress h
    dsimp only at h
    split at h
    · cases h
    · split at h <;> cases h
  unfold ofMethod
  rw [bind_eq_error_iff, or_iff_right (body_ne_fault cause)]
  refine exists_congr fun body => and_congr_right fun _ => ?_
  rw [bind_eq_error_iff, or_iff_left]
  rintro ⟨progress, -, hlater⟩
  exact hrest progress hlater

/-- What an analysis comes to when it stops the program. -/
theorem run_start_eq_fault_iff {body : Body} {cause : Fault} (hbody : body.IsOf owner method)
    (limit : Nat) : (Progress.start body method).run body common limit = .error (.fault cause) ↔
      ∃ name, cause = .cut name ∧ ∃ steps < limit, ∃ progress,
        (Progress.start body method).Comes body common steps progress ∧
          progress.Cuts body common name := by
  have hstep : ∀ {steps last}, (Progress.start body method).Comes body common steps last →
      (last.step body common = .error (.fault cause) ↔
        ∃ name, cause = .cut name ∧ last.Cuts body common name) := fun hcomes =>
    Progress.step_eq_fault_iff hbody
      (Progress.inRange_of_comes hbody hcomes (Progress.inRange_start body method))
  rw [Progress.run_eq_fault_iff]
  constructor
  · rintro ⟨steps, hlt, last, hcomes, hfault⟩
    obtain ⟨name, hcause, hcuts⟩ := (hstep hcomes).1 hfault
    exact ⟨name, hcause, steps, hlt, last, hcomes, hcuts⟩
  · rintro ⟨name, hcause, steps, hlt, last, hcomes, hcuts⟩
    exact ⟨steps, hlt, last, hcomes, (hstep hcomes).2 ⟨name, hcause, hcuts⟩⟩

/-- A method that loads no elements of arrays does not stop the program. -/
theorem ofMethod_ne_fault (h : .simple Opcode.aaload ∉ method.instructions) (cause : Fault) :
    ofMethod owner method common ≠ .error (.fault cause) := by
  intro hfault
  obtain ⟨body, hbody, hrun⟩ := ofMethod_eq_fault_iff_run.1 hfault
  have hof := Body.isOf_of_ofMethod hbody
  obtain ⟨name, -, steps, -, progress, -, index, pending, before, handled, -, hload, -⟩ :=
    (run_start_eq_fault_iff hof _).1 hrun
  rw [hof.instructions, List.getElem?_toArray] at hload
  exact h (List.mem_of_getElem? hload)

/-- An analysis accesses only states, instructions, stack slots and local variables that are there. It
stops the program exactly if it comes to an instruction that loads an element from an array whose name
does not begin with a character of one byte; any other analysis tells its result or an error. -/
theorem ofMethod_eq_fault_iff {cause : Fault} :
    ofMethod owner method common = .error (.fault cause) ↔
      ∃ body name, Body.ofMethod owner method = .ok body ∧ cause = .cut name ∧
        ∃ steps < stepLimit body, ∃ progress,
          (Progress.start body method).Comes body common steps progress ∧
            progress.Cuts body common name := by
  rw [ofMethod_eq_fault_iff_run]
  refine exists_congr fun body => ?_
  rw [exists_and_left]
  exact and_congr_right fun hbody => run_start_eq_fault_iff (Body.isOf_of_ofMethod hbody) _

/-- Loads an element from an array that is cast to a class without a name. -/
def unnamedArray : MethodNode where
  access := 8
  name := "m"
  desc := "()V"
  instructions :=
    [.simple Opcode.aconstNull, .type Opcode.checkcast "", .simple Opcode.iconst0,
      .simple Opcode.aaload, .simple Opcode.pop, .simple Opcode.returnVoid]

/-- The analysis of a method that has no error of its own stops the program. -/
theorem ofMethod_unnamedArray :
    ofMethod "p/A" unnamedArray rootOnly = .error (.fault (.cut "")) := by
  obtain ⟨body, hbody, hinstructions, hhandlers⟩ : ∃ body, Body.ofMethod "p/A" unnamedArray = .ok body ∧
      body.instructions = unnamedArray.instructions.toArray ∧ body.handlers = [] := ⟨_, rfl, rfl, rfl⟩
  obtain ⟨owner, instructions, places, handlers⟩ := body
  obtain rfl : instructions = unnamedArray.instructions.toArray := hinstructions
  obtain rfl : handlers = [] := hhandlers
  refine ofMethod_eq_fault_iff_run.2 ⟨_, hbody, ?_⟩
  let body : Body := ⟨owner, unnamedArray.instructions.toArray, places, []⟩
  have hstart : Progress.start body unnamedArray =
      ⟨#[some {}, none, none, none, none, none], [0], {}⟩ :=
    Progress.start_of_static body (by decide) rfl
  have hnull : Progress.step body rootOnly ⟨#[some {}, none, none, none, none, none], [0], {}⟩ =
      .ok ⟨#[some {}, some ⟨[], [.null]⟩, none, none, none, none], [1], { maxStack := 1 }⟩ := rfl
  have hcast : Progress.step body rootOnly
      ⟨#[some {}, some ⟨[], [.null]⟩, none, none, none, none], [1], { maxStack := 1 }⟩ =
      .ok ⟨#[some {}, some ⟨[], [.null]⟩, some ⟨[], [.object ""]⟩, none, none, none], [2],
        { maxStack := 1 }⟩ := rfl
  have hindex : Progress.step body rootOnly
      ⟨#[some {}, some ⟨[], [.null]⟩, some ⟨[], [.object ""]⟩, none, none, none], [2],
        { maxStack := 1 }⟩ =
      .ok ⟨#[some {}, some ⟨[], [.null]⟩, some ⟨[], [.object ""]⟩, some ⟨[], [.integer, .object ""]⟩,
        none, none], [3], { maxStack := 2 }⟩ := rfl
  have hload : Progress.step body rootOnly
      ⟨#[some {}, some ⟨[], [.null]⟩, some ⟨[], [.object ""]⟩, some ⟨[], [.integer, .object ""]⟩,
        none, none], [3], { maxStack := 2 }⟩ = .error (.fault (.cut "")) := rfl
  have hcomes := Progress.Comes.step hnull (.step hcast (.step hindex (.refl _)))
  rw [← hstart] at hcomes
  exact Progress.run_eq_fault_iff.2 ⟨3, by unfold stepLimit; omega, _, hcomes, hload⟩

end Analysis
end JvmArchive.Flow
