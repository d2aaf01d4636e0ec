import JvmArchive.Proofs.Flow.Executions
import JvmArchive.Proofs.Flow.Steps
import JvmArchive.Proofs.Flow.Weights

/-!
# The analysis comes to an end

Every step takes an instruction from the queue. If it puts others there, an instruction has been reached
for the first time or a state has changed and become lighter, and over a hierarchy whose answers climb
neither goes on for ever.
-/
namespace JvmArchive.Flow.Progress

variable {body : Body} {common : CommonSuper}

/-! ## Steps that fail -/

theorem flowTo_ne_unsettled (incoming : State) (progress : Progress) (index : Nat) :
    flowTo common incoming progress index ≠ .error .unsettled := by
  unfold flowTo
  split
  · simp
  · simp
  · split
    · simp
    · split <;> simp

theorem successors_ne_unsettled (index : Nat) (instruction : Instruction) :
    body.successors index instruction ≠ .error .unsettled := by
  refine bind_ne_error (mapM_ne_error fun label _ => ?_) fun targets => ?_
  · unfold Body.place
    split <;> simp
  · split
    · exact fun h => by cases h
    · split
      · exact fun h => by cases h
      · exact fun h => by cases h

/-- A step that fails says why. -/
theorem step_ne_unsettled (progress : Progress) :
    progress.step body common ≠ .error .unsettled := by
  unfold step
  split
  · simp
  · dsimp only
    split
    · refine bind_ne_error (foldlM_ne_error (fun progress handler => ?_) _ _) fun middle => ?_
      · exact flowTo_ne_unsettled _ _ _
      · split
        · rename_i cause _
          cases cause <;> simp [AnalysisError.ofExecution]
        · exact bind_ne_error (successors_ne_unsettled _ _) fun successors =>
            foldlM_ne_error (flowTo_ne_unsettled _) _ _
    · simp
    · simp
    · simp

/-! ## The measure -/

section
variable (rank : String → Nat) (height limit : Nat)

/-- How many instructions have not been reached. -/
def unreached (progress : Progress) : Nat :=
  (progress.states.toList.map fun state => if state.isNone then 1 else 0).sum

/-- The weight of all states together. -/
def weight (progress : Progress) : Nat :=
  (progress.states.toList.map fun state =>
    (state.map (stateWeight rank height limit)).getD 0).sum

/-- Whether fewer instructions are unreached, or as many are and the states are lighter. -/
def Lighter (next progress : Progress) : Prop :=
  next.unreached < progress.unreached ∨
    next.unreached = progress.unreached ∧
      next.weight rank height limit < progress.weight rank height limit

/-- Whether a progress has the states and the queue of another one, or is lighter. -/
def Descends (next progress : Progress) : Prop :=
  next.states = progress.states ∧ next.pending = progress.pending ∨
    next.Lighter rank height limit progress

end

/-- Whether no state has more local variables than the limit. -/
def Bounded (limit : Nat) (progress : Progress) : Prop :=
  ∀ {index : Nat} {state : State}, progress.states[index]? = some (some state) →
    state.locals.length ≤ limit

variable {rank : String → Nat} {height limit : Nat}

theorem Lighter.of_states_eq {next progress after before : Progress}
    (h : next.Lighter rank height limit progress) (hafter : after.states = next.states)
    (hbefore : before.states = progress.states) : after.Lighter rank height limit before := by
  simp only [Lighter, unreached, weight, hafter, hbefore] at h ⊢
  exact h

theorem Descends.trans {last next progress : Progress} (h : last.Descends rank height limit next)
    (h' : next.Descends rank height limit progress) : last.Descends rank height limit progress := by
  rcases h with ⟨hstates, hpending⟩ | hlighter
  · rcases h' with ⟨hstates', hpending'⟩ | hlighter'
    · exact .inl ⟨hstates.trans hstates', hpending.trans hpending'⟩
    · exact .inr (hlighter'.of_states_eq hstates rfl)
  · rcases h' with ⟨hstates', -⟩ | hlighter'
    · exact .inr (hlighter.of_states_eq rfl hstates'.symm)
    · refine .inr ?_
      unfold Lighter at hlighter hlighter' ⊢
      omega

/-- Exchanging one item of a list exchanges its value in the sum. -/
theorem sum_map_set {α : Type} (f : α → Nat) {items : List α} {index : Nat} {old : α}
    (h : items[index]? = some old) (new : α) :
    ((items.set index new).map f).sum + f old = (items.map f).sum + f new := by
  induction items generalizing index with
  | nil => simp at h
  | cons item items ih =>
    cases index with
    | zero =>
      cases h
      simp only [List.set_cons_zero, List.map_cons, List.sum_cons]
      omega
    | succ index =>
      rw [List.getElem?_cons_succ] at h
      have hrest := ih h
      simp only [List.set_cons_succ, List.map_cons, List.sum_cons]
      omega

/-- A state that another one makes room for is a new one, or a lighter one. -/
theorem lighter_setIfInBounds {progress next : Progress} {index : Nat} {old : Option State}
    {state : State} (hold : progress.states[index]? = some old)
    (hstates : next.states = progress.states.setIfInBounds index (some state))
    (hlighter : ∀ existing, old = some existing →
      stateWeight rank height limit state < stateWeight rank height limit existing) :
    next.Lighter rank height limit progress := by
  have hget : progress.states.toList[index]? = some old := by rwa [Array.getElem?_toList]
  have hunreached := sum_map_set (fun state : Option State => if state.isNone then 1 else 0) hget
    (some state)
  have hweight := sum_map_set
    (fun state : Option State => (state.map (stateWeight rank height limit)).getD 0) hget (some state)
  simp only [Lighter, unreached, weight, hstates, Array.toList_setIfInBounds]
  cases old with
  | none =>
    simp only [Option.isNone_none, Option.isNone_some, if_true, Bool.false_eq_true, if_false]
      at hunreached
    exact .inl (by omega)
  | some existing =>
    have hstate := hlighter existing rfl
    simp only [Option.map_some, Option.getD_some] at hweight
    exact .inr ⟨by simpa using hunreached, by omega⟩

/-! ## Flows -/

theorem bounded_setIfInBounds {progress next : Progress} {index : Nat} {state : State}
    (hbounded : progress.Bounded limit) (hstate : state.locals.length ≤ limit)
    (hstates : next.states = progress.states.setIfInBounds index (some state)) :
    next.Bounded limit := by
  intro other existing hexisting
  rw [hstates, Array.getElem?_setIfInBounds] at hexisting
  split at hexisting
  · split at hexisting
    · cases hexisting
      exact hstate
    · cases hexisting
  · exact hbounded hexisting

/-- A flow changes nothing, or it makes the states lighter. -/
theorem descends_flowTo (h : Climbs common rank height) {incoming : State}
    {progress next : Progress} {index : Nat} (hbounded : progress.Bounded limit)
    (hincoming : incoming.locals.length ≤ limit) (hflow : flowTo common incoming progress index = .ok next) :
    next.Descends rank height limit progress ∧ next.Bounded limit := by
  unfold flowTo at hflow
  split at hflow
  · cases hflow
  · rename_i hfresh
    cases hflow
    exact ⟨.inr (lighter_setIfInBounds hfresh (states_enqueue _ _) fun _ hsome => by cases hsome),
      bounded_setIfInBounds hbounded hincoming (states_enqueue _ _)⟩
  · rename_i existing hexisting
    split at hflow
    · cases hflow
    · rename_i merged hmerged
      split at hflow
      · cases hflow
        exact ⟨.inl ⟨rfl, rfl⟩, hbounded⟩
      · rename_i hne
        cases hflow
        have hlength : merged.locals.length ≤ limit := by
          have hlocals := hbounded hexisting
          unfold merge? at hmerged
          split at hmerged
          · cases hmerged
            rw [length_mergeLocals]
            exact Nat.max_le.2 ⟨hlocals, hincoming⟩
          · cases hmerged
        refine ⟨.inr (lighter_setIfInBounds hexisting (states_enqueue _ _) fun found hfound => ?_),
          bounded_setIfInBounds hbounded hlength (states_enqueue _ _)⟩
        cases hfound
        exact stateWeight_merge? h hincoming hmerged hne

/-- Flows one after the other change nothing, or they make the states lighter. -/
theorem descends_foldlM {α : Type} {flow : Progress → α → Except AnalysisError Progress}
    (hflow : ∀ {progress next : Progress} {place : α}, progress.Bounded limit →
      flow progress place = .ok next →
        next.Descends rank height limit progress ∧ next.Bounded limit)
    {places : List α} {progress last : Progress} (hbounded : progress.Bounded limit)
    (hlast : places.foldlM flow progress = .ok last) :
    last.Descends rank height limit progress ∧ last.Bounded limit := by
  induction places generalizing progress with
  | nil =>
    cases hlast
    exact ⟨.inl ⟨rfl, rfl⟩, hbounded⟩
  | cons place places ih =>
    rw [List.foldlM_cons] at hlast
    obtain ⟨next, hplace, hplaces⟩ := exists_of_bind_ok hlast
    obtain ⟨hdescends, hnext⟩ := hflow hbounded hplace
    obtain ⟨hrest, hlast⟩ := ih hnext hplaces
    exact ⟨hrest.trans hdescends, hlast⟩

section
variable (h : Climbs common rank height) (hslots : Execution.slotLimit ≤ limit)
include h hslots

theorem descends_visit {progress last : Progress} {index : Nat} {instruction : Instruction}
    {before : State} (hbounded : progress.Bounded limit) (hbefore : before.locals.length ≤ limit)
    (hvisit : visit body common progress index instruction before = .ok last) :
    last.Descends rank height limit progress ∧ last.Bounded limit := by
  obtain ⟨middle, hhandlers, hrest⟩ := exists_of_bind_ok hvisit
  have hhandler : ∀ {progress next : Progress} {handler : Handler}, progress.Bounded limit →
      flowToHandler common before progress handler = .ok next →
        next.Descends rank height limit progress ∧ next.Bounded limit := by
    intro progress next handler hbounded hflow
    have hcounted : Bounded limit { progress with
        findings := { progress.findings with maxStack := max progress.findings.maxStack 1 } } := hbounded
    have hcaught : (State.mk before.locals [.object handler.catchType]).locals.length ≤ limit := hbefore
    obtain ⟨hdescends, hnext⟩ := descends_flowTo h hcounted hcaught hflow
    exact ⟨hdescends.trans (.inl ⟨rfl, rfl⟩), hnext⟩
  obtain ⟨hmiddle, hbounded⟩ := descends_foldlM hhandler hbounded hhandlers
  split at hrest
  · cases hrest
  · rename_i machine hrun
    obtain ⟨successors, -, hflow⟩ := exists_of_bind_ok hrest
    have hregular : Execution.Regular (fun _ _ => True)
        (Execution.instruction body.owner (body.site index) instruction) :=
      Execution.regular_instruction _ _ fun _ _ => trivial
    have hfound : Bounded limit { middle with findings := machine.findings } := hbounded
    have hafter : machine.state.locals.length ≤ limit :=
      (hregular.bounded hrun).trans (Nat.max_le.2 ⟨hbefore, hslots⟩)
    obtain ⟨hlast, hbounded'⟩ := descends_foldlM
      (fun hbounded hflow => descends_flowTo h hbounded hafter hflow) hfound hflow
    exact ⟨hlast.trans (.trans (.inl ⟨rfl, rfl⟩) hmiddle), hbounded'⟩

/-- A step with something to do makes the states lighter, or shortens the queue and leaves the states
alone. -/
theorem lighter_step {progress next : Progress} (hbounded : progress.Bounded limit)
    (hpending : progress.pending ≠ []) (hstep : progress.step body common = .ok next) :
    (next.Lighter rank height limit progress ∨
        next.states = progress.states ∧ next.pending.length < progress.pending.length) ∧
      next.Bounded limit := by
  unfold step at hstep
  split at hstep
  · contradiction
  · rename_i index pending hqueue
    have hshorter : pending.length < progress.pending.length := by simp [hqueue]
    dsimp only at hstep
    split at hstep
    · rename_i before instruction hbefore hinstruction
      have htaken : Bounded limit { progress with pending } := hbounded
      obtain ⟨hdescends, hnext⟩ := descends_visit h hslots htaken (hbounded hbefore) hstep
      refine ⟨?_, hnext⟩
      rcases hdescends with ⟨hstates, hsame⟩ | hlighter
      · exact .inr ⟨hstates, hsame ▸ hshorter⟩
      · exact .inl (hlighter.of_states_eq rfl rfl)
    · cases hstep
      exact ⟨.inr ⟨rfl, hshorter⟩, hbounded⟩
    · cases hstep
    · cases hstep

end

/-! ## Runs -/

/-- Whether the queue is empty, or a step fails, after finitely many steps. -/
def Settles (body : Body) (common : CommonSuper) (progress : Progress) : Prop :=
  ∃ limit, progress.run body common limit ≠ .error .unsettled

theorem settles_of_idle {progress : Progress} (h : progress.pending = []) :
    progress.Settles body common :=
  ⟨0, by simp [run_of_idle h]⟩

theorem settles_of_step {progress : Progress}
    (h : ∀ next, progress.step body common = .ok next → next.Settles body common) :
    progress.Settles body common := by
  by_cases hpending : progress.pending = []
  · exact settles_of_idle hpending
  · have hbusy : progress.pending.isEmpty = false := by simpa using hpending
    cases hstep : progress.step body common with
    | error error =>
      refine ⟨1, ?_⟩
      rw [run, hbusy, if_neg Bool.false_ne_true, hstep, Ne, Except.error.injEq]
      rintro rfl
      exact step_ne_unsettled progress hstep
    | ok next =>
      obtain ⟨limit, hlimit⟩ := h next hstep
      refine ⟨limit + 1, ?_⟩
      rw [run, hbusy, if_neg Bool.false_ne_true, hstep]
      exact hlimit

/-- A run that always has something left to do does not come to an end. -/
theorem not_settles_of_invariant {holds : Progress → Prop}
    (hstep : ∀ progress, holds progress →
      progress.pending ≠ [] ∧ ∃ next, progress.step body common = .ok next ∧ holds next)
    {progress : Progress} (h : holds progress) : ¬progress.Settles body common := by
  rintro ⟨limit, hlimit⟩
  refine hlimit ?_
  induction limit generalizing progress with
  | zero =>
    have hbusy : progress.pending.isEmpty = false := by simpa using (hstep progress h).1
    rw [run, hbusy, if_neg Bool.false_ne_true]
  | succ limit ih =>
    obtain ⟨hpending, next, hnext, hholds⟩ := hstep progress h
    have hbusy : progress.pending.isEmpty = false := by simpa using hpending
    rw [run, hbusy, if_neg Bool.false_ne_true, hnext]
    rw [run, hbusy, if_neg Bool.false_ne_true, hnext] at hlimit
    exact ih hholds hlimit

/-- Over a hierarchy whose answers climb, every run comes to an end. -/
theorem settles_of_climbs (h : Climbs common rank height) (hslots : Execution.slotLimit ≤ limit)
    (progress : Progress) (hbounded : progress.Bounded limit) : progress.Settles body common := by
  by_cases hpending : progress.pending = []
  · exact settles_of_idle hpending
  · refine settles_of_step fun next hstep => ?_
    obtain ⟨hlighter, hnext⟩ := lighter_step h hslots hbounded hpending hstep
    exact settles_of_climbs h hslots next hnext
termination_by (progress.unreached, progress.weight rank height limit, progress.pending.length)
decreasing_by
  rcases hlighter with (hunreached | ⟨hunreached, hweight⟩) | ⟨hstates, hshorter⟩
  · exact .left _ _ hunreached
  · rw [hunreached]
    exact .right _ (.left _ _ hweight)
  · have hunreached : next.unreached = progress.unreached := by rw [unreached, unreached, hstates]
    have hweight : next.weight rank height limit = progress.weight rank height limit := by
      rw [weight, weight, hstates]
    rw [hunreached, hweight]
    exact .right _ (.right _ hshorter)

/-- The analysis of any method comes to an end. -/
theorem settles_start_of_climbs (h : Climbs common rank height) (body : Body) (method : MethodNode) :
    (start body method).Settles body common := by
  refine settles_of_climbs h (Nat.le_max_left Execution.slotLimit
    (expand (method.entryLocals body.owner)).length) _ ?_
  intro index state hstate
  simp only [start, Array.getElem?_setIfInBounds] at hstate
  split at hstate
  · split at hstate
    · cases hstate
      exact Nat.le_max_right _ _
    · cases hstate
  · simp [Array.getElem?_replicate] at hstate

end JvmArchive.Flow.Progress
