import JvmArchive.Flow.Analysis
import JvmArchive.Proofs.Results

/-!
# Methods made ready for analysis

Every index that a body keeps for a label is that of an instruction which places the label, so control
never leaves the code.
-/
namespace JvmArchive.Flow.Body

/-- Whatever places were known before, each place in the end was known or is that of a label. -/
theorem getElem?_of_foldl_places {instructions : List Instruction} {start : Nat}
    {places : Std.HashMap Label Nat} {label : Label} {index : Nat}
    (h : ((instructions.zipIdx start).foldl (fun places (instruction, index) =>
      match instruction with
      | .label label => places.insert label index
      | _ => places) places)[label]? = some index) :
    places[label]? = some index ∨
      start ≤ index ∧ instructions[index - start]? = some (.label label) := by
  induction instructions generalizing start places with
  | nil => exact .inl h
  | cons instruction instructions ih =>
    rw [List.zipIdx_cons, List.foldl_cons] at h
    rcases ih h with hbefore | ⟨hlater, hplace⟩
    · cases instruction
      case label placed =>
        simp only [Std.HashMap.getElem?_insert] at hbefore
        split at hbefore
        · rename_i hlabel
          cases hbefore
          rw [eq_of_beq hlabel]
          exact .inr ⟨Nat.le_refl _, by simp⟩
        · exact .inl hbefore
      all_goals exact .inl hbefore
    · refine .inr ⟨by omega, ?_⟩
      have hindex : index - start = index - (start + 1) + 1 := by omega
      rw [hindex, List.getElem?_cons_succ]
      exact hplace

/-- The place of a label is where it stands. -/
theorem getElem?_of_place {instructions : List Instruction} {label : Label} {index : Nat}
    (h : place (placesOf instructions) label = .ok index) :
    instructions[index]? = some (.label label) := by
  unfold place at h
  split at h
  · rename_i found hfound
    cases h
    rcases getElem?_of_foldl_places hfound with hempty | ⟨-, hplace⟩
    · simp at hempty
    · exact hplace
  · cases h

/-- What a body has of the method that it was made from. -/
structure IsOf (body : Body) (owner : String) (method : MethodNode) : Prop where
  owner : body.owner = owner
  instructions : body.instructions = method.instructions.toArray
  places : body.places = placesOf method.instructions
  handlers : List.Forall₂ (fun block handler => Body.handler body.places block = .ok handler)
    method.tryCatches body.handlers

variable {body : Body} {owner : String} {method : MethodNode}

theorem isOf_of_ofMethod (h : ofMethod owner method = .ok body) : body.IsOf owner method := by
  obtain ⟨handlers, hhandlers, hmade⟩ := exists_of_bind_ok h
  cases hmade
  exact ⟨rfl, rfl, rfl, forall₂_of_mapM hhandlers⟩

/-- Where a handler starts, stops and continues, if it is made from a block of the method. -/
structure Handles (instructions : List Instruction) (block : TryCatch) (handler : Handler) : Prop where
  start : instructions[handler.start]? = some (.label block.start)
  stop : instructions[handler.stop]? = some (.label block.stop)
  target : instructions[handler.target]? = some (.label block.handler)
  catchType : handler.catchType = block.catchType.getD anyThrowable

namespace IsOf

theorem handles (h : body.IsOf owner method) :
    List.Forall₂ (Handles method.instructions) method.tryCatches body.handlers := by
  refine h.handlers.imp fun block handler hhandler => ?_
  rw [h.places] at hhandler
  obtain ⟨start, hstart, hrest⟩ := exists_of_bind_ok hhandler
  obtain ⟨stop, hstop, hrest⟩ := exists_of_bind_ok hrest
  obtain ⟨target, htarget, hmade⟩ := exists_of_bind_ok hrest
  cases hmade
  exact ⟨getElem?_of_place hstart, getElem?_of_place hstop, getElem?_of_place htarget, rfl⟩

theorem target_lt (h : body.IsOf owner method) {handler : Handler} (hhandler : handler ∈ body.handlers) :
    handler.target < body.instructions.size := by
  obtain ⟨i, hi, rfl⟩ := List.getElem_of_mem hhandler
  have hblock : i < method.tryCatches.length := h.handlers.length_eq ▸ hi
  have htarget := (h.handles.get hblock hi).target
  rw [h.instructions]
  exact (List.getElem?_eq_some_iff.1 htarget).1

variable {index : Nat} {instruction : Instruction} {successors : List Nat}

/-- The successors of an instruction: the places of its targets, and the next instruction unless control
ends there. -/
theorem successors_spec (h : body.IsOf owner method)
    (hsuccessors : body.successors index instruction = .ok successors) :
    (∀ target ∈ instruction.targets,
      ∃ next ∈ successors, method.instructions[next]? = some (.label target)) ∧
    (instruction.opcode?.any Opcode.isTerminal = false → index + 1 ∈ successors) ∧
    ∀ next ∈ successors, next < body.instructions.size := by
  obtain ⟨places, hplaces, hrest⟩ := exists_of_bind_ok hsuccessors
  have htargets := forall₂_of_mapM hplaces
  rw [h.places] at htargets
  have hfound : ∀ target ∈ instruction.targets,
      ∃ next ∈ places, method.instructions[next]? = some (.label target) := by
    intro target htarget
    obtain ⟨i, hi, rfl⟩ := List.getElem_of_mem htarget
    have hplace : i < places.length := htargets.length_eq ▸ hi
    exact ⟨places[i], List.getElem_mem _, getElem?_of_place (htargets.get hi hplace)⟩
  have hinside : ∀ next ∈ places, next < body.instructions.size := by
    intro next hnext
    obtain ⟨i, hi, rfl⟩ := List.getElem_of_mem hnext
    have htarget : i < instruction.targets.length := htargets.length_eq ▸ hi
    rw [h.instructions]
    exact (List.getElem?_eq_some_iff.1 (getElem?_of_place (htargets.get htarget hi))).1
  split at hrest
  · rename_i hterminal
    cases hrest
    exact ⟨hfound, fun hfalls => by simp [hfalls] at hterminal, hinside⟩
  · split at hrest
    · rename_i hlt
      cases hrest
      refine ⟨fun target htarget => ?_, fun _ => by simp, fun next hnext => ?_⟩
      · obtain ⟨next, hnext, hplace⟩ := hfound target htarget
        exact ⟨next, List.mem_append_left _ hnext, hplace⟩
      · rcases List.mem_append.1 hnext with hplace | hlast
        · exact hinside next hplace
        · rw [List.mem_singleton.1 hlast]
          exact hlt
    · cases hrest

end IsOf
end JvmArchive.Flow.Body
