import JvmArchive.Flow.Analysis
import JvmArchive.Proofs.Results

/-!
# Steps of the analysis

What no step of the analysis changes. An analysis that succeeds states something for every instruction
of the method, whether it is reached or not.
-/
namespace JvmArchive.Flow

namespace Progress

variable {common : CommonSuper} {body : Body}

@[simp]
theorem states_enqueue (progress : Progress) (index : Nat) :
    (progress.enqueue index).states = progress.states := by
  unfold enqueue
  split <;> rfl

theorem size_flowTo {incoming : State} {progress next : Progress} {index : Nat}
    (h : flowTo common incoming progress index = .ok next) :
    next.states.size = progress.states.size := by
  unfold flowTo at h
  split at h
  · cases h
  · cases h
    rw [states_enqueue, Array.size_setIfInBounds]
  · split at h
    · cases h
    · split at h
      · cases h
        rfl
      · cases h
        rw [states_enqueue, Array.size_setIfInBounds]

/-- The states after a flow: those before it, or with another state where it goes, the one that comes or
what it merges to with the one that is there. -/
theorem states_flowTo {incoming : State} {progress next : Progress} {index : Nat}
    (h : flowTo common incoming progress index = .ok next) :
    next.states = progress.states ∨
      ∃ state, index < progress.states.size ∧
        next.states = progress.states.setIfInBounds index (some state) ∧
        (progress.states[index]? = some none ∧ state = incoming ∨
          ∃ existing, progress.states[index]? = some (some existing) ∧
            merge? common existing incoming = some state) := by
  unfold flowTo at h
  split at h
  · cases h
  next hfresh =>
    cases h
    exact .inr ⟨incoming, (Array.getElem?_eq_some_iff.1 hfresh).1, states_enqueue _ _,
      .inl ⟨hfresh, rfl⟩⟩
  next existing hexisting =>
    split at h
    · cases h
    next merged hmerged =>
      split at h
      · cases h
        exact .inl rfl
      · cases h
        exact .inr ⟨merged, (Array.getElem?_eq_some_iff.1 hexisting).1, states_enqueue _ _,
          .inr ⟨existing, hexisting, hmerged⟩⟩

/-- A flow changes no state but that where it goes. -/
theorem getElem?_flowTo_of_ne {incoming : State} {progress next : Progress} {index other : Nat}
    (h : flowTo common incoming progress index = .ok next) (hne : index ≠ other) :
    next.states[other]? = progress.states[other]? := by
  rcases states_flowTo h with hsame | ⟨state, -, hset, -⟩
  · rw [hsame]
  · rw [hset, Array.getElem?_setIfInBounds_ne hne]

/-- Whatever flows to a list of places, what every flow keeps is kept. -/
theorem keeps_foldlM {α : Type} {flow : Progress → α → Except AnalysisError Progress}
    {holds : Progress → Prop} {places : List α}
    (hflow : ∀ {progress next : Progress} {place : α}, place ∈ places → holds progress →
      flow progress place = .ok next → holds next) {progress last : Progress}
    (hstart : holds progress) (h : places.foldlM flow progress = .ok last) : holds last := by
  induction places generalizing progress with
  | nil =>
    cases h
    exact hstart
  | cons place places ih =>
    rw [List.foldlM_cons] at h
    obtain ⟨next, hplace, hplaces⟩ := exists_of_bind_ok h
    exact ih (fun hmem => hflow (List.mem_cons_of_mem _ hmem)) (hflow List.mem_cons_self hstart hplace)
      hplaces

/-- What all flows of a visit keep of the states, the visit keeps. -/
theorem keeps_visit {holds : Array (Option State) → Prop} {progress last : Progress} {index : Nat}
    {instruction : Instruction} {before : State}
    (hhandler : ∀ {now next : Progress} {handler : Handler}, handler ∈ body.handlers →
      instruction.isPseudo = false → holds now.states →
        flowTo common { locals := before.locals, stack := [.object handler.catchType] } now
          handler.target = .ok next → holds next.states)
    (hsuccessor : ∀ {findings : Findings} {after : Machine} {successors : List Nat},
      (Execution.instruction body.owner (body.site index) instruction).run ⟨before, findings⟩ =
          .ok ((), after) →
        body.successors index instruction = .ok successors →
          ∀ {now next : Progress} {place : Nat}, place ∈ successors → holds now.states →
            flowTo common after.state now place = .ok next → holds next.states)
    (hstart : holds progress.states)
    (h : visit body common progress index instruction before = .ok last) : holds last.states := by
  obtain ⟨middle, hhandlers, hrest⟩ := exists_of_bind_ok h
  have hmiddle : holds middle.states := by
    refine @keeps_foldlM _ _ (fun now => holds now.states) _ ?_ _ _ hstart hhandlers
    intro now next handler hmem hholds hflow
    have hcounted : holds { now with
      findings := { now.findings with maxStack := max now.findings.maxStack 1 } : Progress }.states := hholds
    split at hmem
    · cases hmem
    next hreal =>
      exact hhandler (List.mem_of_mem_filter hmem) (Bool.eq_false_iff.2 hreal) hcounted hflow
  split at hrest
  · cases hrest
  next machine hrun =>
    obtain ⟨successors, hsuccessors, hflow⟩ := exists_of_bind_ok hrest
    have hfound : holds { middle with findings := machine.findings : Progress }.states := hmiddle
    exact @keeps_foldlM _ _ (fun now => holds now.states) _ (hsuccessor hrun hsuccessors) _ _ hfound hflow

/-- What every visit keeps of the states, a step keeps. -/
theorem keeps_step {holds : Array (Option State) → Prop}
    (hvisit : ∀ {progress next : Progress} {index : Nat} {instruction : Instruction} {before : State},
      body.instructions[index]? = some instruction → progress.states[index]? = some (some before) →
        holds progress.states → visit body common progress index instruction before = .ok next →
          holds next.states)
    {progress next : Progress} (hstart : holds progress.states)
    (h : step body common progress = .ok next) : holds next.states := by
  unfold step at h
  split at h
  · cases h
    exact hstart
  next index pending _ =>
    dsimp only at h
    split at h
    next before instruction hbefore hinstruction =>
      exact @hvisit { progress with pending } _ _ _ _ hinstruction hbefore hstart h
    · cases h
      exact hstart
    · cases h
    · cases h

/-- A step leaves as many states as there were. -/
theorem size_step {progress next : Progress} (h : step body common progress = .ok next) :
    next.states.size = progress.states.size := by
  refine @keeps_step _ _ (fun states => states.size = progress.states.size) ?_ _ _ rfl h
  intro now next index instruction before _ _ hsize hvisit
  refine @keeps_visit _ _ (fun states => states.size = progress.states.size) _ _ _ _ _ ?_ ?_ hsize hvisit
  · exact fun _ _ hsize hflow => (size_flowTo hflow).trans hsize
  · exact fun _ _ _ _ _ _ hsize hflow => (size_flowTo hflow).trans hsize

/-- What every step keeps, a run keeps. -/
theorem keeps_run {holds : Progress → Prop}
    (hstep : ∀ {progress next : Progress}, holds progress → step body common progress = .ok next →
      holds next) {limit : Nat} {progress last : Progress} (hstart : holds progress)
    (h : run body common limit progress = .ok last) : holds last := by
  induction limit generalizing progress with
  | zero =>
    unfold run at h
    split at h <;> cases h
    exact hstart
  | succ limit ih =>
    unfold run at h
    split at h
    · cases h
      exact hstart
    · split at h
      · cases h
      next next hnext => exact ih (hstep hstart hnext) h

/-- At the start only the first instruction has a state, the entry state. -/
theorem states_start {method : MethodNode} {index : Nat} {state : State}
    (h : (start body method).states[index]? = some (some state)) :
    index = 0 ∧ state = { locals := expand (method.entryLocals body.owner), stack := [] } := by
  simp only [start, Array.getElem?_setIfInBounds] at h
  split at h
  · rename_i hfirst
    split at h
    · cases h
      exact ⟨hfirst.symm, rfl⟩
    · cases h
  · simp [Array.getElem?_replicate] at h

/-- A static method without arguments is entered with no local variables. -/
theorem start_of_static (body : Body) {method : MethodNode} (hstatic : method.access.isStatic = true)
    (hdesc : method.desc = "()V") : start body method =
      { states := (Array.replicate body.instructions.size none).setIfInBounds 0 (some {})
        pending := if body.instructions.isEmpty then [] else [0]
        findings := {} } := by
  have htype : MethodType.ofDescriptor? method.desc = some ⟨[], .void⟩ := by
    rw [hdesc]
    simp [MethodType.ofDescriptor?, MethodType.parse?, MethodType.parseArguments?, FieldType.parse?]
  have hentry : method.entryLocals body.owner = [] := by
    simp [MethodNode.entryLocals, MethodNode.receiver?, MethodNode.argumentTypes, hstatic, htype]
  rw [start, hentry]
  rfl

/-- A run has as many states in the end as at its start. -/
theorem size_run {limit : Nat} {progress last : Progress}
    (h : run body common limit progress = .ok last) :
    last.states.size = progress.states.size := by
  have hkeeps : ∀ {now next : Progress}, now.states.size = progress.states.size →
      step body common now = .ok next → next.states.size = progress.states.size :=
    fun hsize hstep => (size_step hstep).trans hsize
  exact @keeps_run _ _ (fun later => later.states.size = progress.states.size) hkeeps _ _ _ rfl h

theorem run_of_idle {limit : Nat} {progress : Progress} (h : progress.pending = []) :
    run body common limit progress = .ok progress := by
  cases limit <;> simp [run, h]

/-- A run goes on with what the next step leaves to do. -/
theorem run_succ {limit : Nat} {progress next : Progress} (h : progress.step body common = .ok next) :
    run body common (limit + 1) progress = run body common limit next := by
  by_cases hidle : progress.pending = []
  · have hsame : next = progress := by
      simp only [step, hidle, Except.ok.injEq] at h
      exact h.symm
    rw [hsame, run_of_idle hidle, run_of_idle hidle]
  · have hbusy : progress.pending.isEmpty = false := by simpa using hidle
    rw [run, hbusy, if_neg Bool.false_ne_true, h]

end Progress

namespace Analysis

variable {owner : String} {method : MethodNode} {common : CommonSuper} {analysis : Analysis}

/-- The states of an analysis that succeeds are those in which its run ends. -/
theorem exists_run_of_ofMethod (h : ofMethod owner method common = .ok analysis) :
    ∃ body progress, Body.ofMethod owner method = .ok body ∧
      (Progress.start body method).run body common (stepLimit body) = .ok progress ∧
        analysis.states = progress.states := by
  obtain ⟨body, hbody, hrun⟩ := exists_of_bind_ok h
  obtain ⟨progress, hprogress, hrest⟩ := exists_of_bind_ok hrun
  refine ⟨body, progress, hbody, hprogress, ?_⟩
  dsimp only at hrest
  split at hrest
  · cases hrest
  · split at hrest
    · cases hrest
    · cases hrest
      rfl

/-- There is one state for each instruction. -/
theorem size_states (h : ofMethod owner method common = .ok analysis) :
    analysis.states.size = method.instructions.length := by
  obtain ⟨body, progress, hbody, hprogress, hstates⟩ := exists_run_of_ofMethod h
  have hinstructions : body.instructions = method.instructions.toArray := by
    obtain ⟨handlers, -, hmade⟩ := exists_of_bind_ok hbody
    cases hmade
    rfl
  rw [hstates, Progress.size_run hprogress]
  simp [Progress.start, hinstructions]

end Analysis
end JvmArchive.Flow
