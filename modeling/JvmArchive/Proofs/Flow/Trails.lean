import JvmArchive.ClassFile.Encode.Frames
import JvmArchive.Proofs.Flow.FixedPoint

/-!
# States behind entries that take no room

Control leaves a label, a line or a frame with the state with which it came. Where the next instruction
can be reached from there only, it never has a state that its predecessor has not absorbed, and in the
end the two states are one.
-/
namespace JvmArchive

/-- Whether an instruction is a label to which control can jump, or from which it handles exceptions. -/
def MethodNode.IsJoin (method : MethodNode) (index : Nat) : Prop :=
  ∃ label ∈ Encode.jumpTargets method.instructions method.tryCatches,
    method.instructions[index]? = some (.label label)

/-- Whether an entry takes no room and control comes only from it to the next instruction. -/
structure MethodNode.Passes (method : MethodNode) (index : Nat) : Prop where
  pseudo : ∃ instruction, method.instructions[index]? = some instruction ∧ instruction.isPseudo = true
  alone : ¬method.IsJoin (index + 1)

namespace Flow

/-- Where control goes from an instruction: to labels that it names, or on to the next instruction. -/
theorem Body.IsOf.of_mem_successors {body : Body} {owner : String} {method : MethodNode}
    (h : body.IsOf owner method) {index next : Nat} {instruction : Instruction} {successors : List Nat}
    (hsuccessors : body.successors index instruction = .ok successors) (hnext : next ∈ successors) :
    (∃ target ∈ instruction.targets, method.instructions[next]? = some (.label target)) ∨
      next = index + 1 := by
  obtain ⟨places, hplaces, hrest⟩ := exists_of_bind_ok hsuccessors
  have htargets := forall₂_of_mapM hplaces
  rw [h.places] at htargets
  have hjump : ∀ place ∈ places,
      ∃ target ∈ instruction.targets, method.instructions[place]? = some (.label target) := by
    intro place hplace
    obtain ⟨i, hi, rfl⟩ := List.getElem_of_mem hplace
    have htarget : i < instruction.targets.length := htargets.length_eq ▸ hi
    exact ⟨_, List.getElem_mem htarget, Body.getElem?_of_place (htargets.get htarget hi)⟩
  split at hrest
  · cases hrest
    exact .inl (hjump next hnext)
  · split at hrest
    · cases hrest
      rcases List.mem_append.1 hnext with hplace | hlast
      · exact .inl (hjump next hplace)
      · exact .inr (List.mem_singleton.1 hlast)
    · cases hrest

/-- Whether no instruction that is reached only from an entry before it has a state that this entry has
not absorbed. -/
def Trails (method : MethodNode) (states : Array (Option State)) : Prop :=
  ∀ (index : Nat) (state : State), method.Passes index → states[index + 1]? = some (some state) →
    ∃ before, states[index]? = some (some before) ∧ before.Absorbs state

namespace Progress

variable {body : Body} {owner : String} {method : MethodNode} {progress next last : Progress}
  {index target : Nat} {instruction : Instruction} {incoming before : State}

/-- A flow keeps that if it comes from the entry before, should there be such a one. -/
theorem trails_flowTo (h : Trails method progress.states)
    (hincoming : ∀ index, method.Passes index → target = index + 1 →
      progress.states[index]? = some (some incoming))
    (hflow : flowTo rootOnly incoming progress target = .ok next) : Trails method next.states := by
  rcases states_flowTo hflow with hsame | ⟨merged, hlt, hset, hmerged⟩
  · rwa [hsame]
  · rw [hset]
    intro index state hpasses hstate
    by_cases hnext : target = index + 1
    · subst hnext
      have hfrom := hincoming index hpasses rfl
      rw [Array.getElem?_setIfInBounds_self_of_lt hlt] at hstate
      cases hstate
      refine ⟨incoming, by rwa [Array.getElem?_setIfInBounds_ne (Nat.succ_ne_self index)], ?_⟩
      rcases hmerged with ⟨-, rfl⟩ | ⟨existing, hexisting, hmerged⟩
      · exact State.absorbs_refl _
      · obtain ⟨before, hbefore, habsorbs⟩ := h _ _ hpasses hexisting
        rw [hfrom] at hbefore
        cases hbefore
        rw [habsorbs.merge?_comm] at hmerged
        cases hmerged
        exact State.absorbs_refl _
    · rw [Array.getElem?_setIfInBounds_ne hnext] at hstate
      obtain ⟨before, hbefore, habsorbs⟩ := h _ _ hpasses hstate
      by_cases hhere : target = index
      · subst hhere
        refine ⟨merged, Array.getElem?_setIfInBounds_self_of_lt hlt, ?_⟩
        rcases hmerged with ⟨hfresh, -⟩ | ⟨existing, hexisting, hmerged⟩
        · rw [hbefore] at hfresh
          cases hfresh
        · rw [hbefore] at hexisting
          cases hexisting
          exact habsorbs.of_merge? hmerged
      · exact ⟨before, by rwa [Array.getElem?_setIfInBounds_ne hhere], habsorbs⟩

/-- Where control jumps or is thrown to, it is not reached from the entry before only. -/
theorem not_passes_of_isJoin (h : method.IsJoin target) (index : Nat) (hpasses : method.Passes index)
    (htarget : target = index + 1) : progress.states[index]? = some (some incoming) :=
  absurd (htarget ▸ h) hpasses.alone

theorem isJoin_of_handler (hbody : body.IsOf owner method) {handler : Handler}
    (hhandler : handler ∈ body.handlers) : method.IsJoin handler.target := by
  obtain ⟨i, hi, rfl⟩ := List.getElem_of_mem hhandler
  have hblock : i < method.tryCatches.length := hbody.handlers.length_eq ▸ hi
  have htarget := (hbody.handles.get hblock hi).target
  refine ⟨_, List.mem_append_right _ (List.mem_map.2 ⟨_, List.getElem_mem hblock, rfl⟩), htarget⟩

theorem isJoin_of_target (hinstruction : method.instructions[index]? = some instruction) {label : Label}
    (hlabel : label ∈ instruction.targets) (htarget : method.instructions[target]? = some (.label label)) :
    method.IsJoin target :=
  ⟨label, List.mem_append_left _ (List.mem_flatMap.2
    ⟨instruction, List.mem_of_getElem? hinstruction, hlabel⟩), htarget⟩

/-- An entry that takes no room hands its state on as it is, to the next instruction only. -/
theorem passes_on (hpseudo : instruction.isPseudo = true) {site : Label} {findings : Findings}
    {machine : Machine}
    (hrun : Execution.instruction owner site instruction ⟨before, findings⟩ = .ok ((), machine))
    {successors : List Nat}
    (hsuccessors : body.successors index instruction = .ok successors) :
    machine.state = before ∧ successors = [index + 1] := by
  have hplain : instruction.targets = [] ∧ instruction.opcode? = none ∧
      Execution.instruction owner site instruction = pure () := by
    cases instruction <;> first | exact ⟨rfl, rfl, rfl⟩ | cases hpseudo
  obtain ⟨htargets, hop, hpure⟩ := hplain
  rw [hpure] at hrun
  cases hrun
  simp only [Body.successors, htargets, hop, List.mapM_nil, Option.any_none, Bool.false_eq_true,
    if_false] at hsuccessors
  split at hsuccessors
  · cases hsuccessors
    exact ⟨rfl, rfl⟩
  · cases hsuccessors

theorem trails_visit (hbody : body.IsOf owner method)
    (hinstruction : body.instructions[index]? = some instruction)
    (hbefore : progress.states[index]? = some (some before)) (h : Trails method progress.states)
    (hvisit : visit body rootOnly progress index instruction before = .ok next) :
    Trails method next.states := by
  rw [hbody.instructions, List.getElem?_toArray] at hinstruction
  -- While an entry that takes no room is visited, its own state stays what it is.
  let holds (states : Array (Option State)) : Prop :=
    Trails method states ∧ (instruction.isPseudo = true → states[index]? = some (some before))
  have hkept : holds next.states := by
    refine @keeps_visit _ _ holds _ _ _ _ _ ?_ ?_ ⟨h, fun _ => hbefore⟩ hvisit
    · rintro now next handler hmem hreal ⟨htrails, -⟩ hflow
      have hjoin := isJoin_of_handler hbody hmem
      refine ⟨trails_flowTo htrails (not_passes_of_isJoin hjoin) hflow, fun hpseudo => ?_⟩
      rw [hreal] at hpseudo
      cases hpseudo
    · rintro findings after successors hrun hsuccessors now next place hmem ⟨htrails, hsteady⟩ hflow
      cases hpseudo : instruction.isPseudo with
      | true =>
        obtain ⟨rfl, rfl⟩ := passes_on hpseudo hrun hsuccessors
        obtain rfl := List.mem_singleton.1 hmem
        have hown := hsteady hpseudo
        refine ⟨trails_flowTo htrails (fun other _ hother => ?_) hflow, fun _ => ?_⟩
        · cases hother
          exact hown
        · rw [getElem?_flowTo_of_ne hflow (Nat.succ_ne_self index), hown]
      | false =>
        refine ⟨trails_flowTo htrails (fun other hpasses hother => ?_) hflow, fun htrue => ?_⟩
        · -- The entry before would have to be a target or the real instruction itself.
          rcases hbody.of_mem_successors hsuccessors hmem with ⟨label, hlabel, hplace⟩ | hfalls
          · exact not_passes_of_isJoin (isJoin_of_target hinstruction hlabel hplace) other hpasses hother
          · obtain ⟨entry, hentry, hentryPseudo⟩ := hpasses.pseudo
            have hsame : other = index := by omega
            rw [hsame, hinstruction] at hentry
            cases hentry
            rw [hpseudo] at hentryPseudo
            cases hentryPseudo
        · rw [hpseudo] at htrue
          cases htrue
  exact hkept.1

theorem trails_run (hbody : body.IsOf owner method) {limit : Nat}
    (h : run body rootOnly limit (start body method) = .ok last) : Trails method last.states := by
  have hstart : Trails method (start body method).states := by
    intro index state _ hstate
    obtain ⟨hzero, -⟩ := states_start hstate
    cases hzero
  have hstep : ∀ {progress next : Progress}, Trails method progress.states →
      step body rootOnly progress = .ok next → Trails method next.states :=
    keeps_step fun hinstruction hbefore h hvisit => trails_visit hbody hinstruction hbefore h hvisit
  exact @keeps_run _ _ (fun now => Trails method now.states) hstep _ _ _ hstart h

end Progress

namespace Analysis

variable {owner : String} {method : MethodNode} {analysis : Analysis} {index : Nat}

/-- In the end the state of an entry that takes no room has been absorbed by the next instruction. -/
theorem reaches_next (h : ofMethod owner method rootOnly = .ok analysis) {instruction : Instruction}
    (hinstruction : method.instructions[index]? = some instruction)
    (hpseudo : instruction.isPseudo = true) {state : State}
    (hstate : analysis.states[index]? = some (some state)) : analysis.Reaches (index + 1) state := by
  obtain ⟨body, progress, hbody, hends⟩ := exists_endsIn_of_ofMethod h
  have hvisited := hends.visited (Body.isOf_of_ofMethod hbody) hinstruction hstate
  obtain ⟨findings, after, found, -, hexecuted, -, -, -, successors, hsuccessors, hreaches⟩ :=
    hvisited.executed
  obtain ⟨rfl, rfl⟩ := Progress.passes_on hpseudo hexecuted hsuccessors
  exact hends.reaches (hreaches _ (List.mem_singleton.2 rfl))

/-- In the end an instruction that is reached only from an entry before it has the state of this entry. -/
theorem states_iff_of_passes (h : ofMethod owner method rootOnly = .ok analysis)
    (hpasses : method.Passes index) (state : State) :
    analysis.states[index + 1]? = some (some state) ↔ analysis.states[index]? = some (some state) := by
  have htrails : Trails method analysis.states := by
    obtain ⟨body, progress, hbody, hrun, hstates⟩ := exists_run_of_ofMethod h
    rw [hstates]
    exact Progress.trails_run (Body.isOf_of_ofMethod hbody) hrun
  obtain ⟨instruction, hinstruction, hpseudo⟩ := hpasses.pseudo
  constructor
  · intro hstate
    obtain ⟨before, hbefore, habsorbs⟩ := htrails _ _ hpasses hstate
    obtain ⟨after, hafter, habsorbs'⟩ := reaches_next h hinstruction hpseudo hbefore
    rw [hstate] at hafter
    cases hafter
    rw [hbefore, habsorbs.antisymm habsorbs']
  · intro hstate
    obtain ⟨after, hafter, habsorbs⟩ := reaches_next h hinstruction hpseudo hstate
    obtain ⟨before, hbefore, habsorbs'⟩ := htrails _ _ hpasses hafter
    rw [hstate] at hbefore
    cases hbefore
    rw [hafter, habsorbs.antisymm habsorbs']

end Analysis
end Flow
end JvmArchive
