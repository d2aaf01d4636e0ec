import JvmArchive.Proofs.Flow.Absorption
import JvmArchive.Proofs.Flow.Bodies
import JvmArchive.Proofs.Flow.Executions
import JvmArchive.Proofs.Flow.Sites
import JvmArchive.Proofs.Flow.Steps

/-!
# How an analysis settles

Every instruction that does not wait for a visit has been visited with the state that it has now:
whatever that visit let flow to other instructions has been absorbed there, and stays so while the
analysis goes on. A step keeps this, and so does a run, which ends with an empty queue.
-/
namespace JvmArchive.Flow

/-- Whether the findings know no sites but those of allocations. -/
def Findings.Allocated (body : Body) (findings : Findings) : Prop :=
  ∀ (site : Label) (class_ : String), findings.sites[site]? = some class_ → body.Allocates site class_

theorem Findings.Allocated.of_follows {body : Body} {before after : Findings}
    (h : before.Allocated body) (hfollows : after.Follows body.Allocates before) :
    after.Allocated body := fun site class_ hsite =>
  (hfollows.allocated site class_ hsite).elim (h site class_) id

namespace Progress

/-- Whether an instruction has a state that has absorbed the given one. -/
def Reaches (progress : Progress) (index : Nat) (incoming : State) : Prop :=
  ∃ state, progress.states[index]? = some (some state) ∧ state.Absorbs incoming

/-- Progress that came from an earlier one: what has been absorbed is absorbed, what waited still waits,
and so does every instruction that has another state now. -/
structure Advances (body : Body) (after before : Progress) : Prop where
  absorbed : ∀ {index incoming}, before.Reaches index incoming → after.Reaches index incoming
  waiting : ∀ {index}, index ∈ before.pending → index ∈ after.pending
  changed : ∀ index, after.states[index]? = before.states[index]? ∨ index ∈ after.pending
  follows : after.findings.Follows body.Allocates before.findings

/-- Whether the stacks and the local variables of all states have been counted. -/
def Counted (progress : Progress) : Prop :=
  ∀ {index : Nat} {state : State}, progress.states[index]? = some (some state) →
    (Machine.mk state progress.findings).Counted

variable {body : Body} {progress next last : Progress} {index : Nat} {incoming before : State}

namespace Advances

theorem refl (progress : Progress) : Advances body progress progress where
  absorbed := id
  waiting := id
  changed _ := .inl rfl
  follows := .refl _

theorem trans (h : Advances body last next) (h' : Advances body next progress) :
    Advances body last progress where
  absorbed hreach := h.absorbed (h'.absorbed hreach)
  waiting hwait := h.waiting (h'.waiting hwait)
  changed index := by
    rcases h'.changed index with hsame | hwaits
    · rw [← hsame]
      exact h.changed index
    · exact .inr (h.waiting hwaits)
  follows := h.follows.trans h'.follows

end Advances

/-! ## Flows -/

theorem mem_pending_enqueue (progress : Progress) (index : Nat) :
    index ∈ (progress.enqueue index).pending := by
  unfold enqueue
  split
  · rename_i hcontains
    simpa using hcontains
  · simp

theorem mem_pending_enqueue_of_mem {other : Nat} (h : other ∈ progress.pending) :
    other ∈ (progress.enqueue index).pending := by
  unfold enqueue
  split
  · exact h
  · exact List.mem_append_left _ h

@[simp]
theorem findings_enqueue (progress : Progress) (index : Nat) :
    (progress.enqueue index).findings = progress.findings := by
  unfold enqueue
  split <;> rfl

/-- What a flow does: nothing if the instruction has absorbed the state already, and otherwise it puts a
state there that has absorbed it, and everything that was absorbed before. -/
theorem flowTo_cases (h : flowTo rootOnly incoming progress index = .ok next) :
    (next = progress ∧ (index < progress.states.size → progress.Reaches index incoming)) ∨
    ∃ state, index < progress.states.size ∧
      next = ({ progress with
        states := progress.states.setIfInBounds index (some state) }).enqueue index ∧
      state.Absorbs incoming ∧
      (∀ earlier, progress.Reaches index earlier → state.Absorbs earlier) ∧
      ((Machine.mk incoming progress.findings).Counted → progress.Counted →
        (Machine.mk state progress.findings).Counted) := by
  unfold flowTo at h
  split at h
  · cases h
  · rename_i hfresh
    cases h
    refine .inr ⟨incoming, (Array.getElem?_eq_some_iff.1 hfresh).1, rfl, incoming.absorbs_refl, ?_,
      fun hcounted _ => hcounted⟩
    rintro earlier ⟨state, hstate, -⟩
    rw [hfresh] at hstate
    cases hstate
  · rename_i existing hexisting
    split at h
    · cases h
    · rename_i merged hmerged
      split at h
      · rename_i hsame
        cases h
        exact .inl ⟨rfl, fun _ => ⟨existing, hexisting, by rw [State.Absorbs, hmerged, hsame]⟩⟩
      · cases h
        refine .inr ⟨merged, (Array.getElem?_eq_some_iff.1 hexisting).1, rfl,
          State.absorbs_of_merge? hmerged, ?_, fun hincoming hcounted => ?_⟩
        · rintro earlier ⟨state, hstate, habsorbs⟩
          rw [hexisting] at hstate
          cases hstate
          exact habsorbs.of_merge? hmerged
        · have hbefore := hcounted hexisting
          have hstack := hbefore.stack
          have hlocals := hbefore.locals
          have hincoming := hincoming.locals
          unfold merge? at hmerged
          split at hmerged
          · cases hmerged
            refine ⟨?_, ?_⟩
            · simp only [List.length_zipWith]
              exact (Nat.min_le_left _ _).trans hstack
            · simp only [length_mergeLocals]
              exact Nat.max_le.2 ⟨hlocals, hincoming⟩
          · cases hmerged

theorem advances_flowTo (h : flowTo rootOnly incoming progress index = .ok next) :
    Advances body next progress := by
  rcases flowTo_cases h with ⟨rfl, -⟩ | ⟨state, hlt, rfl, -, hearlier, -⟩
  · exact .refl _
  · constructor
    · rintro other earlier ⟨existing, hexisting, habsorbs⟩
      by_cases hother : index = other
      · subst hother
        exact ⟨state, by simp [hlt], hearlier earlier ⟨existing, hexisting, habsorbs⟩⟩
      · refine ⟨existing, ?_, habsorbs⟩
        rw [states_enqueue, Array.getElem?_setIfInBounds_ne hother]
        exact hexisting
    · exact fun hwaits => mem_pending_enqueue_of_mem hwaits
    · intro other
      by_cases hother : index = other
      · subst hother
        exact .inr (mem_pending_enqueue _ _)
      · refine .inl ?_
        rw [states_enqueue, Array.getElem?_setIfInBounds_ne hother]
    · rw [findings_enqueue]
      exact .refl _

theorem findings_flowTo (h : flowTo rootOnly incoming progress index = .ok next) :
    next.findings = progress.findings := by
  rcases flowTo_cases h with ⟨rfl, -⟩ | ⟨state, -, rfl, -⟩
  · rfl
  · exact findings_enqueue _ _

theorem reaches_flowTo (h : flowTo rootOnly incoming progress index = .ok next)
    (hlt : index < progress.states.size) : next.Reaches index incoming := by
  rcases flowTo_cases h with ⟨rfl, hreaches⟩ | ⟨state, -, rfl, habsorbs, -⟩
  · exact hreaches hlt
  · exact ⟨state, by simp [hlt], habsorbs⟩

theorem counted_flowTo (h : flowTo rootOnly incoming progress index = .ok next)
    (hincoming : (Machine.mk incoming progress.findings).Counted) (hcounted : progress.Counted) :
    next.Counted := by
  rcases flowTo_cases h with ⟨rfl, -⟩ | ⟨state, hlt, rfl, -, -, hstate⟩
  · exact hcounted
  · intro other existing hexisting
    rw [findings_enqueue]
    rw [states_enqueue] at hexisting
    by_cases hother : index = other
    · subst hother
      rw [Array.getElem?_setIfInBounds_self_of_lt hlt] at hexisting
      cases hexisting
      exact hstate hincoming hcounted
    · rw [Array.getElem?_setIfInBounds_ne hother] at hexisting
      exact hcounted hexisting

/-- The progress that counts a stack of one slot. -/
def countingOne (progress : Progress) : Progress :=
  { progress with
    findings := { progress.findings with maxStack := max progress.findings.maxStack 1 } }

theorem advances_countingOne (progress : Progress) : Advances body progress.countingOne progress where
  absorbed := id
  waiting := id
  changed _ := .inl rfl
  follows := ⟨Nat.le_max_left _ _, Nat.le_refl _, fun _ class_ h => ⟨class_, h⟩, fun _ _ h => .inl h⟩

theorem Advances.counted {state : State} (h : Advances body next progress)
    (hstate : (Machine.mk state progress.findings).Counted) :
    (Machine.mk state next.findings).Counted where
  stack := hstate.stack.trans h.follows.maxStack
  locals := hstate.locals.trans h.follows.maxLocals

/-- What a handler starts with: the local variables before the instruction that it protects, and the
exception on the stack. -/
def caught (before : State) (handler : Handler) : State where
  locals := before.locals
  stack := [.object handler.catchType]

/-- Whatever flows to a list of places, each flow keeps what the earlier ones have brought about. -/
theorem advances_foldlM {α : Type} {flow : Progress → α → Except AnalysisError Progress}
    (holds : Progress → Prop) (brings : α → Progress → Prop) {places : List α}
    (hflow : ∀ {progress next place}, place ∈ places → holds progress →
      flow progress place = .ok next → Advances body next progress ∧ holds next ∧ brings place next)
    (hkept : ∀ {progress next place}, Advances body next progress → brings place progress →
      brings place next)
    (hstart : holds progress) (h : places.foldlM flow progress = .ok last) :
    Advances body last progress ∧ holds last ∧ ∀ place ∈ places, brings place last := by
  induction places generalizing progress with
  | nil =>
    cases h
    exact ⟨.refl _, hstart, fun place hplace => absurd hplace List.not_mem_nil⟩
  | cons place places ih =>
    rw [List.foldlM_cons] at h
    obtain ⟨next, hplace, hplaces⟩ := exists_of_bind_ok h
    obtain ⟨hadvances, hnext, hbrings⟩ := hflow List.mem_cons_self hstart hplace
    obtain ⟨hrest, hlast, hall⟩ :=
      ih (fun hmem => hflow (List.mem_cons_of_mem _ hmem)) hnext hplaces
    refine ⟨hrest.trans hadvances, hlast, fun other hother => ?_⟩
    rcases List.mem_cons.1 hother with rfl | hmem
    · exact hkept hrest hbrings
    · exact hall other hmem

/-! ## Visits -/

/-- Whether the state before an instruction has been propagated: to the handlers that protect the
instruction, and through its execution, under findings of that time, to its successors. -/
structure Visited (body : Body) (progress : Progress) (index : Nat) (instruction : Instruction)
    (before : State) : Prop where
  handled : instruction.isPseudo = false → ∀ handler ∈ body.handlers, handler.start ≤ index →
    index < handler.stop → progress.Reaches handler.target (caught before handler)
  executed : ∃ findings after found, findings.Allocated body ∧
    Execution.instruction body.owner (body.site index) instruction ⟨before, findings⟩ =
      .ok ((), ⟨after, found⟩) ∧
    (Machine.mk after found).Counted ∧
    progress.findings.Follows body.Allocates findings ∧
    progress.findings.Follows body.Allocates found ∧
    ∃ successors, body.successors index instruction = .ok successors ∧
      ∀ next ∈ successors, progress.Reaches next after

theorem Visited.of_advances {instruction : Instruction}
    (h : progress.Visited body index instruction before) (hadvances : Advances body next progress) :
    next.Visited body index instruction before where
  handled hreal handler hmem hstart hstop :=
    hadvances.absorbed (h.handled hreal handler hmem hstart hstop)
  executed := by
    obtain ⟨findings, after, found, hallocated, hrun, hcounted, hknown, hfound, successors,
      hsuccessors, hreaches⟩ := h.executed
    exact ⟨findings, after, found, hallocated, hrun, hcounted, hadvances.follows.trans hknown,
      hadvances.follows.trans hfound, successors, hsuccessors,
      fun next hnext => hadvances.absorbed (hreaches next hnext)⟩

/-- What holds of the states and findings at any time: one state for each instruction, everything
counted, and no site that is not that of an allocation. -/
structure Sound (body : Body) (progress : Progress) : Prop where
  size : progress.states.size = body.instructions.size
  counted : progress.Counted
  allocated : progress.findings.Allocated body

theorem sound_flowTo (hsound : progress.Sound body)
    (hincoming : (Machine.mk incoming progress.findings).Counted)
    (h : flowTo rootOnly incoming progress index = .ok next) : next.Sound body where
  size := (size_flowTo h).trans hsound.size
  counted := counted_flowTo h hincoming hsound.counted
  allocated := by
    rw [findings_flowTo h]
    exact hsound.allocated

/-- Other findings in a sound progress, of the same or greater counts. -/
theorem Sound.withFindings (hsound : progress.Sound body) {findings : Findings}
    (hfollows : findings.Follows body.Allocates progress.findings) :
    Sound body { progress with findings } where
  size := hsound.size
  counted hstate :=
    have hcounted := hsound.counted hstate
    ⟨hcounted.stack.trans hfollows.maxStack, hcounted.locals.trans hfollows.maxLocals⟩
  allocated := hsound.allocated.of_follows hfollows

theorem flowToHandler_spec {handler : Handler} (hsound : progress.Sound body)
    (hbefore : (Machine.mk before progress.findings).Counted)
    (htarget : handler.target < body.instructions.size)
    (h : flowToHandler rootOnly before progress handler = .ok next) :
    Advances body next progress ∧ next.Sound body ∧
      next.Reaches handler.target (caught before handler) := by
  have hone : Advances body progress.countingOne progress := advances_countingOne progress
  have hincoming : (Machine.mk (caught before handler) progress.countingOne.findings).Counted :=
    ⟨Nat.le_max_right _ _, hbefore.locals⟩
  refine ⟨(advances_flowTo h).trans hone, sound_flowTo (hsound.withFindings hone.follows) hincoming h,
    reaches_flowTo h ?_⟩
  rw [← hsound.size] at htarget
  exact htarget

variable {owner : String} {method : MethodNode} {instruction : Instruction}

/-- The handlers into which a visit lets the state flow. -/
theorem mem_protecting {handler : Handler} : (handler ∈ if instruction.isPseudo then [] else
      body.handlers.filter fun h => h.start ≤ index && index < h.stop) ↔
    instruction.isPseudo = false ∧ handler ∈ body.handlers ∧ handler.start ≤ index ∧
      index < handler.stop := by
  cases hpseudo : instruction.isPseudo <;> simp

/-- A visit keeps what is sound and propagates the state. -/
theorem visit_spec (hbody : body.IsOf owner method)
    (hinstruction : body.instructions[index]? = some instruction) (hsound : progress.Sound body)
    (hbefore : (Machine.mk before progress.findings).Counted)
    (h : visit body rootOnly progress index instruction before = .ok last) :
    Advances body last progress ∧ last.Sound body ∧
      last.Visited body index instruction before := by
  obtain ⟨middle, hhandlers, hrest⟩ := exists_of_bind_ok h
  obtain ⟨hmiddle, ⟨hsound, hbefore⟩, hhandled⟩ := advances_foldlM
    (fun progress => progress.Sound body ∧ (Machine.mk before progress.findings).Counted)
    (fun (handler : Handler) progress => progress.Reaches handler.target (caught before handler))
    (fun hmem hholds hflow => by
      have htarget := hbody.target_lt (mem_protecting.1 hmem).2.1
      obtain ⟨hadvances, hnext, hreaches⟩ := flowToHandler_spec hholds.1 hholds.2 htarget hflow
      exact ⟨hadvances, ⟨hnext, hadvances.counted hholds.2⟩, hreaches⟩)
    (fun hadvances hreaches => Advances.absorbed hadvances hreaches) ⟨hsound, hbefore⟩ hhandlers
  have hregular : Execution.Regular body.Allocates
      (Execution.instruction body.owner (body.site index) instruction) :=
    Execution.regular_instruction _ _ fun class_ hnew => ⟨index, hnew ▸ hinstruction, rfl⟩
  split at hrest
  · cases hrest
  · rename_i machine hrun
    obtain ⟨successors, hsuccessors, hflow⟩ := exists_of_bind_ok hrest
    have hfollows := hregular.follows hrun
    have hafter := hregular.counted hrun hbefore
    obtain ⟨-, -, hinside⟩ := hbody.successors_spec hsuccessors
    have hexecuted : Advances body { middle with findings := machine.findings } middle :=
      ⟨id, id, fun _ => .inl rfl, hfollows⟩
    obtain ⟨hlast, ⟨hsound', hafter'⟩, hreaches⟩ := advances_foldlM
      (fun progress =>
        progress.Sound body ∧ (Machine.mk machine.state progress.findings).Counted)
      (fun next progress => progress.Reaches next machine.state)
      (fun hmem hholds hflow => by
        have hadvances : Advances body _ _ := advances_flowTo hflow
        refine ⟨hadvances, ⟨sound_flowTo hholds.1 hholds.2 hflow, hadvances.counted hholds.2⟩,
          reaches_flowTo hflow ?_⟩
        rw [hholds.1.size]
        exact hinside _ hmem)
      (fun hadvances hreaches => Advances.absorbed hadvances hreaches)
      ⟨hsound.withFindings hfollows, hafter⟩ hflow
    refine ⟨hlast.trans (hexecuted.trans hmiddle), hsound', ?_, ?_⟩
    · intro hreal handler hmem hstart hstop
      exact (hlast.trans hexecuted).absorbed
        (hhandled handler (mem_protecting.2 ⟨hreal, hmem, hstart, hstop⟩))
    · exact ⟨middle.findings, machine.state, machine.findings, hsound.allocated, hrun,
        hafter, hlast.follows.trans hfollows, hlast.follows, successors, hsuccessors, hreaches⟩

/-! ## Runs -/

/-- What holds between two steps: the progress is sound, the entry state has been absorbed by the first
instruction, and whatever has a state waits or has been visited with it. -/
structure Settling (body : Body) (entry : State) (progress : Progress) : Prop where
  sound : progress.Sound body
  entry : 0 < body.instructions.size → progress.Reaches 0 entry
  visited : ∀ {index : Nat} {instruction : Instruction} {before : State},
    body.instructions[index]? = some instruction →
    progress.states[index]? = some (some before) →
      index ∈ progress.pending ∨ progress.Visited body index instruction before

variable {entry : State}

theorem settling_step (hbody : body.IsOf owner method) (hsettling : progress.Settling body entry)
    (h : step body rootOnly progress = .ok next) : next.Settling body entry := by
  unfold step at h
  split at h
  · cases h
    exact hsettling
  · rename_i index pending hpending
    dsimp only at h
    split at h
    · rename_i before instruction hbefore hinstruction
      have htaken : Sound body { progress with pending } :=
        ⟨hsettling.sound.size, hsettling.sound.counted, hsettling.sound.allocated⟩
      obtain ⟨hadvances, hsound, hvisited⟩ :=
        visit_spec hbody hinstruction htaken (htaken.counted hbefore) h
      refine ⟨hsound, fun hpos => hadvances.absorbed (hsettling.entry hpos), ?_⟩
      intro other instruction' before' hinstruction' hbefore'
      -- An instruction that has another state now waits. The others have the state with which they
      -- waited before the step, or were visited.
      rcases hadvances.changed other with hsame | hwaits
      · rw [hsame] at hbefore'
        by_cases hother : other = index
        · subst hother
          rw [hinstruction] at hinstruction'
          rw [hbefore] at hbefore'
          cases hinstruction'
          cases hbefore'
          exact .inr hvisited
        · rcases hsettling.visited hinstruction' hbefore' with hwaits | hdone
          · rw [hpending] at hwaits
            have hrest : other ∈ pending := (List.mem_cons.1 hwaits).resolve_left hother
            exact .inl (hadvances.waiting hrest)
          · have hdone' : Visited body { progress with pending } other instruction' before' :=
              ⟨hdone.handled, hdone.executed⟩
            exact .inr (hdone'.of_advances hadvances)
      · exact .inl hwaits
    · rename_i hunreached
      cases h
      refine ⟨⟨hsettling.sound.size, hsettling.sound.counted, hsettling.sound.allocated⟩,
        hsettling.entry, ?_⟩
      intro other instruction before hinstruction hbefore
      rcases hsettling.visited hinstruction hbefore with hwaits | hdone
      · rw [hpending] at hwaits
        rcases List.mem_cons.1 hwaits with rfl | hrest
        · rw [hunreached] at hbefore
          cases hbefore
        · exact .inl hrest
      · exact .inr ⟨hdone.handled, hdone.executed⟩
    · cases h
    · cases h

/-- A run ends with an empty queue. -/
theorem settling_run (hbody : body.IsOf owner method) {limit : Nat}
    (hsettling : progress.Settling body entry)
    (h : run body rootOnly limit progress = .ok last) :
    last.Settling body entry ∧ last.pending = [] := by
  induction limit generalizing progress with
  | zero =>
    unfold run at h
    split at h
    · rename_i hempty
      cases h
      exact ⟨hsettling, by simpa using hempty⟩
    · cases h
  | succ limit ih =>
    unfold run at h
    split at h
    · rename_i hempty
      cases h
      exact ⟨hsettling, by simpa using hempty⟩
    · split at h
      · cases h
      · rename_i next hnext
        exact ih (settling_step hbody hsettling hnext) h

theorem settling_start (body : Body) (method : MethodNode) :
    (start body method).Settling body
      { locals := expand (method.entryLocals body.owner), stack := [] } where
  sound := by
    refine ⟨by simp [start], ?_, ?_⟩
    · intro index state hstate
      obtain ⟨-, rfl⟩ := states_start hstate
      exact ⟨Nat.le_refl _, Nat.le_refl _⟩
    · intro site class_ hsite
      simp [start] at hsite
  entry hpos := ⟨_, by simp [start, hpos], State.absorbs_refl _⟩
  visited := by
    intro index instruction before hinstruction hbefore
    obtain ⟨rfl, -⟩ := states_start hbefore
    have hsome : body.instructions.isEmpty = false := by
      have hlt := (Array.getElem?_eq_some_iff.1 hinstruction).1
      simpa [Array.isEmpty] using hlt.ne'
    exact .inl (by simp [start, hsome])

end Progress
end JvmArchive.Flow
