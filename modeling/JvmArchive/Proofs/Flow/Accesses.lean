import JvmArchive.Flow.Execute
import JvmArchive.Proofs.ClassFile.Code.Opcodes
import JvmArchive.Proofs.Results

/-!
# What executions access

Every slot that an instruction reads or writes is there, whatever the machine it is executed on: what is
looked for on the stack has just been taken from it, and the local variables have been extended before a
store. The one access that can stop the program is that to the name of an array whose elements are
loaded.
-/
namespace JvmArchive.Flow

/-- Whether the first byte of a name can be cut off: it is a character. -/
def startsWithByte (name : String) : Bool := name.toList.head?.any (·.utf8Size = 1)

namespace Execution

/-! ## Slots -/

theorem exists_slotAt {slots : List VerificationType} {index : Nat} (h : index < slots.length) :
    ∃ type, slotAt slots index = .ok type ∧ slots[index]? = some type := by
  refine ⟨slots[index], ?_, List.getElem?_eq_getElem h⟩
  rw [slotAt, List.getElem?_eq_getElem h]

theorem exists_setSlot {slots : List VerificationType} {index : Nat} (type : VerificationType)
    (h : index < slots.length) :
    ∃ changed, setSlot slots index type = .ok changed ∧ changed.length = slots.length :=
  ⟨slots.set index type, if_pos h, List.length_set⟩

theorem exists_breakBefore {locals : List VerificationType} {slot : Nat} (h : slot < locals.length) :
    ∃ broken, breakBefore locals slot = .ok broken ∧ broken.length = locals.length := by
  unfold breakBefore
  split
  · exact ⟨locals, rfl, rfl⟩
  · refine exists_bind_ok (exists_slotAt (by omega)) fun left _ => ?_
    split
    · exact exists_setSlot _ (by omega)
    · exact ⟨locals, rfl, rfl⟩

theorem exists_breakAt {locals : List VerificationType} {slot : Nat} (h : slot < locals.length) :
    ∃ broken, breakAt locals slot = .ok broken ∧ broken.length = locals.length := by
  refine exists_bind_ok (exists_slotAt h) fun old _ => ?_
  split
  · rename_i hbroken
    rw [Bool.and_eq_true, decide_eq_true_eq] at hbroken
    exact exists_setSlot _ hbroken.2
  · exact ⟨locals, rfl, rfl⟩

/-- A store makes room for its value and changes no slot that is not there. -/
theorem exists_storeIn (locals : List VerificationType) (slot : Nat) (type : VerificationType) :
    ∃ stored, storeIn locals slot type = .ok stored ∧
      stored.length = max locals.length (slot + if type.isWide then 2 else 1) := by
  unfold storeIn
  dsimp only
  generalize hwidth : (if type.isWide = true then 2 else 1) = width
  have hgrown : (locals ++ List.replicate (slot + width - locals.length)
      VerificationType.top).length = max locals.length (slot + width) := by
    rw [List.length_append, List.length_replicate]
    omega
  generalize locals ++ List.replicate (slot + width - locals.length) VerificationType.top = grown
    at hgrown
  have hslot : slot < grown.length := by
    have hpos : 0 < width := by
      rw [← hwidth]
      split <;> omega
    omega
  refine exists_bind_ok (exists_breakBefore hslot) fun before hbefore => ?_
  rw [← hbefore] at hslot
  refine exists_bind_ok (exists_breakAt hslot) fun broken hbroken => ?_
  rw [← hbroken] at hslot
  refine exists_bind_ok (exists_setSlot type hslot) fun stored hstored => ?_
  split
  · rename_i hwide
    rw [if_pos hwide] at hwidth
    have hnext : slot + 1 < stored.length := by omega
    obtain ⟨last, hlast, hlength⟩ := exists_setSlot .top hnext
    exact ⟨last, hlast, by omega⟩
  · exact ⟨stored, rfl, by omega⟩

/-! ## Executions that do not stop the program -/

/-- Whether an execution never stops the program. -/
def Faultless {α : Type} (execution : Execution α) : Prop :=
  ∀ cause, Avoids (.fault cause) execution

variable {α β : Type}

theorem faultless_bind {first : Execution α} {next : α → Execution β} (hfirst : Faultless first)
    (hnext : ∀ a, Faultless (next a)) : Faultless (first >>= next) :=
  fun cause => (hfirst cause).bind fun a => hnext a cause

@[simp]
theorem faultless_pure (a : α) : Faultless (pure a : Execution α) := fun _ => avoids_pure a

@[simp]
theorem faultless_get : Faultless (get : Execution Machine) := fun _ => avoids_get

@[simp]
theorem faultless_modify (change : Machine → Machine) :
    Faultless (modify change : Execution Unit) := fun _ => avoids_modify change

theorem faultless_throw {error : ExecutionError} (h : ∀ cause, error ≠ .fault cause) :
    Faultless (throw error : Execution α) := fun cause => avoids_throw (h cause)

theorem faultless_unlessFault {result : Except Fault α} (h : ∃ a, result = .ok a) :
    Faultless (unlessFault result) := by
  obtain ⟨a, rfl⟩ := h
  exact faultless_pure a

/-! ## The stack -/

@[simp]
theorem faultless_reachLocals (count : Nat) : Faultless (reachLocals count) := faultless_modify _

@[simp]
theorem faultless_pushSlots (slots : List VerificationType) : Faultless (pushSlots slots) :=
  faultless_bind (faultless_modify _) fun _ => faultless_bind faultless_get fun _ => faultless_modify _

@[simp]
theorem faultless_push (type : VerificationType) : Faultless (push type) := faultless_pushSlots _

@[simp]
theorem faultless_pop (slots : Nat) : Faultless (pop slots) := by
  intro cause machine h
  unfold pop at h
  split at h <;> cases h

/-- Slots that have been taken from the stack are as many as were wanted. -/
theorem length_of_pop {slots : Nat} {machine middle : Machine} {taken : List VerificationType}
    (h : pop slots machine = .ok (taken, middle)) : taken.length = slots := by
  unfold pop at h
  split at h
  · cases h
  · cases h
    rw [List.length_take]
    omega

@[simp]
theorem faultless_drop (slots : Nat) : Faultless (drop slots) :=
  faultless_bind (faultless_pop slots) fun _ => faultless_pure ()

@[simp]
theorem faultless_exchange (slots : Nat) (result : VerificationType) :
    Faultless (exchange slots result) :=
  faultless_bind (faultless_drop slots) fun _ => faultless_push result

/-- The lowest of some slots is there. -/
theorem faultless_popLowest {slots : Nat} (h : 0 < slots) : Faultless (popLowest slots) := by
  refine fun cause => (faultless_pop slots cause).bind_of fun machine taken middle hpop => ?_
  have hlength : 0 < taken.reverse.length := by rwa [List.length_reverse, length_of_pop hpop]
  obtain ⟨type, htype, -⟩ := exists_slotAt hlength
  exact faultless_unlessFault ⟨type, htype⟩ cause middle

/-- What the lowest of some slots is can be read off the stack. -/
theorem exists_popLowest_iff {slots : Nat} {machine : Machine} {type : VerificationType}
    (h : 0 < slots) : (∃ middle, popLowest slots machine = .ok (type, middle)) ↔
      machine.state.stack[slots - 1]? = some type := by
  have hrun : popLowest slots machine =
      (pop slots machine >>= fun taken => unlessFault (slotAt taken.1.reverse 0) taken.2) := rfl
  by_cases hshort : machine.state.stack.length < slots
  · rw [hrun, pop, if_pos hshort, List.getElem?_eq_none (by omega)]
    simp [bind, Except.bind]
  · have hlength : 0 < (machine.state.stack.take slots).reverse.length := by
      rw [List.length_reverse, List.length_take]
      omega
    have hlowest : (machine.state.stack.take slots).reverse[0]? = machine.state.stack[slots - 1]? := by
      rw [List.getElem?_reverse (by simpa using hlength), List.length_take,
        List.getElem?_take_of_lt (by omega)]
      congr 1
      omega
    obtain ⟨found, hfound, hget⟩ := exists_slotAt hlength
    rw [hlowest] at hget
    rw [hrun, pop, if_neg hshort, hget]
    change (∃ middle, unlessFault (slotAt (machine.state.stack.take slots).reverse 0) _ = _) ↔ _
    rw [hfound]
    constructor
    · rintro ⟨middle, hok⟩
      cases hok
      rfl
    · intro hsome
      cases hsome
      exact ⟨_, rfl⟩

@[simp]
theorem faultless_popValue : Faultless popValue := faultless_popLowest Nat.one_pos

/-- Slots are put back in an order that names no others than those that have been taken. -/
theorem faultless_rearrange {taken : Nat} {order : List Nat} (h : ∀ index ∈ order, index < taken) :
    Faultless (rearrange taken order) := by
  refine fun cause => (faultless_pop taken cause).bind_of fun machine values middle hpop => ?_
  have hchosen : ∃ chosen, order.mapM (slotAt values.reverse) = .ok chosen := by
    have hlength : values.reverse.length = taken := by rw [List.length_reverse, length_of_pop hpop]
    clear hpop
    induction order with
    | nil => exact ⟨[], rfl⟩
    | cons index order ih =>
      obtain ⟨type, htype, -⟩ := exists_slotAt (hlength ▸ h index List.mem_cons_self)
      obtain ⟨rest, hrest⟩ := ih fun other hother => h other (List.mem_cons_of_mem _ hother)
      exact ⟨type :: rest, by rw [List.mapM_cons, htype, hrest]; rfl⟩
  exact faultless_bind (faultless_unlessFault hchosen) (fun _ => faultless_pushSlots _) cause middle

@[simp]
theorem faultless_valueOf (desc : String) : Faultless (valueOf desc) := by
  unfold valueOf
  split
  · simp
  · simp
  · exact faultless_throw (by simp)

@[simp]
theorem faultless_popArguments (desc : String) : Faultless (popArguments desc) := faultless_drop _

@[simp]
theorem faultless_pushResult (desc : String) : Faultless (pushResult desc) := by
  refine faultless_bind (faultless_valueOf _) fun value => ?_
  split <;> simp

/-! ## Local variables -/

@[simp]
theorem faultless_store (slot : Nat) (type : VerificationType) : Faultless (store slot type) := by
  refine faultless_bind faultless_get fun machine => ?_
  obtain ⟨stored, hstored, -⟩ := exists_storeIn machine.state.locals slot type
  exact faultless_bind (faultless_unlessFault ⟨stored, hstored⟩) fun _ =>
    faultless_bind (faultless_modify _) fun _ => faultless_reachLocals _

@[simp]
theorem faultless_loadOrStore (op : Opcode) (slot : UInt16) : Faultless (loadOrStore op slot) := by
  refine faultless_bind ?_ fun _ => faultless_reachLocals _
  unfold move
  split
  · simp
  · simp
  · simp
  · simp
  · refine faultless_bind faultless_get fun machine => ?_
    split
    · simp
    · exact faultless_throw (by simp)
  · exact faultless_bind faultless_popValue fun _ => faultless_store _ _
  · exact faultless_bind faultless_popValue fun _ => faultless_store _ _
  · exact faultless_bind faultless_popValue fun _ => faultless_store _ _
  · exact faultless_bind (faultless_popLowest Nat.two_pos) fun _ => faultless_store _ _
  · exact faultless_bind (faultless_popLowest Nat.two_pos) fun _ => faultless_store _ _
  · exact faultless_throw (by simp)
  · exact faultless_throw (by simp)

/-! ## Instructions -/

@[simp]
theorem faultless_int (op : Opcode) (operand : Int32) : Faultless (int op operand) := by
  unfold int
  split
  · refine faultless_bind (faultless_drop 1) fun _ => ?_
    split
    · simp
    · exact faultless_throw (by simp)
  · simp

@[simp]
theorem faultless_type (site : Label) (op : Opcode) (class_ : String) :
    Faultless (type site op class_) := by
  unfold type
  split
  · exact faultless_bind (faultless_modify _) fun _ => faultless_push _
  · simp
  · simp
  · simp
  · exact faultless_throw (by simp)

@[simp]
theorem faultless_field (op : Opcode) (desc : String) : Faultless (field op desc) := by
  refine faultless_bind (faultless_valueOf desc) fun value => ?_
  dsimp only
  split
  case' h_2 | h_3 | h_4 => refine faultless_bind (faultless_drop _) fun _ => ?_
  all_goals
    split
    · cases value <;> simp
    · simp

@[simp]
theorem faultless_call (owner : String) (op : Opcode) (callee name desc : String) :
    Faultless (call owner op callee name desc) := by
  refine faultless_bind (faultless_popArguments desc) fun _ => ?_
  dsimp only
  split
  · refine faultless_bind faultless_popValue fun receiver => ?_
    split
    · refine faultless_bind ?_ fun _ => faultless_bind (faultless_modify _) fun _ =>
        faultless_pushResult _
      unfold initialised
      split
      · simp
      · refine faultless_bind faultless_get fun machine => ?_
        split
        · simp
        · exact faultless_throw (by simp)
      · simp
    · simp
  · simp

@[simp]
theorem faultless_jump (op : Opcode) : Faultless (jump op) := by
  unfold jump
  split
  · simp
  · split
    · simp
    · split
      · simp
      · exact faultless_throw (by simp)

@[simp]
theorem faultless_constantType (constant : Constant) : Faultless (constantType constant) := by
  cases constant
  case dynamic name desc bootstrap arguments =>
    refine faultless_bind (faultless_valueOf desc) fun value => ?_
    split
    · simp
    · exact faultless_throw (by simp)
  all_goals exact faultless_pure _

/-- Whether the orders in which an effect puts slots back name only those that it has taken, and no
other instruction has the effect of loading an element. -/
def Effect.isRegular (op : Opcode) : Effect → Bool
  | .rearrange taken order => order.all (· < taken)
  | .element => op = Opcode.aaload
  | _ => true

theorem isRegular_effect? (op : Opcode) : (effect? op).all (Effect.isRegular op) = true := by
  revert op
  apply forall_opcode
  decide +kernel

theorem faultless_simple {op : Opcode} (h : op ≠ Opcode.aaload) : Faultless (simple op) := by
  have hregular := isRegular_effect? op
  unfold simple
  split
  · rename_i effect heffect
    rw [heffect, Option.all_some] at hregular
    cases effect with
    | element => exact absurd (of_decide_eq_true hregular) h
    | rearrange taken order =>
      exact faultless_rearrange (by simpa [Effect.isRegular] using hregular)
    | nothing => exact faultless_pure ()
    | push type => exact faultless_push type
    | drop slots => exact faultless_drop slots
    | exchange slots result => exact faultless_exchange slots result
  · exact faultless_throw (by simp)

theorem faultless_instruction (owner : String) (site : Label) {instruction : Instruction}
    (h : instruction ≠ .simple Opcode.aaload) :
    Faultless (Execution.instruction owner site instruction) := by
  cases instruction
  case simple op => exact faultless_simple fun hop => h (by rw [hop])
  case invokeDynamic name desc bootstrap arguments =>
    exact faultless_bind (faultless_popArguments desc) fun _ => faultless_pushResult desc
  case ldc constant => exact faultless_bind (faultless_constantType constant) fun _ => faultless_push _
  all_goals simp [Execution.instruction]

/-! ## Loading the element of an array -/

theorem withoutFirstByte_eq_error_iff {name : String} {cause : Fault} :
    withoutFirstByte name = .error cause ↔ startsWithByte name = false ∧ cause = .cut name := by
  unfold withoutFirstByte startsWithByte
  split
  · rename_i first rest hname
    rw [hname, List.head?_cons, Option.any_some]
    split
    · rename_i hbyte
      simp [hbyte]
    · rename_i hbyte
      simp [hbyte, eq_comm]
  · rename_i hname
    simp [hname, eq_comm]

theorem elementType_eq_error_iff {array : VerificationType} {cause : Fault} :
    elementType array = .error cause ↔
      ∃ name, array = .object name ∧ startsWithByte name = false ∧ cause = .cut name := by
  cases array
  case object name =>
    simp only [elementType, VerificationType.object.injEq, exists_eq_left']
    rw [← withoutFirstByte_eq_error_iff]
    cases withoutFirstByte name with
    | error found => simp [bind, Except.bind]
    | ok element =>
      simp only [bind, Except.bind, reduceCtorEq, iff_false]
      split
      · simp [pure, Except.pure]
      · split <;> simp [pure, Except.pure]
  all_goals simp [elementType, pure, Except.pure]

/-- Loading an element stops the program exactly if the array below the index on the stack has a name
whose first byte is not a character. -/
theorem aaload_eq_fault_iff (owner : String) (site : Label) {machine : Machine} {cause : Fault} :
    Execution.instruction owner site (.simple Opcode.aaload) machine = .error (.fault cause) ↔
      ∃ name, machine.state.stack[1]? = some (.object name) ∧ startsWithByte name = false ∧
        cause = .cut name := by
  have hpush : ∀ array middle, (unlessFault (elementType array) >>= push) middle =
      .error (.fault cause) ↔ elementType array = .error cause := by
    intro array middle
    cases elementType array with
    | error found =>
      change Except.error (ExecutionError.fault found) = _ ↔ _
      simp
    | ok element => exact iff_of_false (faultless_push element cause middle) (by simp)
  change (popLowest 2 >>= fun array => unlessFault (elementType array) >>= push) machine = _ ↔ _
  rw [run_bind_eq_error_iff, or_iff_right (faultless_popLowest Nat.two_pos cause machine)]
  simp only [hpush, elementType_eq_error_iff]
  constructor
  · rintro ⟨_, middle, hpop, name, rfl, hbyte, hcause⟩
    exact ⟨name, (exists_popLowest_iff Nat.two_pos).1 ⟨middle, hpop⟩, hbyte, hcause⟩
  · rintro ⟨name, hget, hbyte, hcause⟩
    obtain ⟨middle, hpop⟩ := (exists_popLowest_iff Nat.two_pos).2 hget
    exact ⟨_, middle, hpop, name, rfl, hbyte, hcause⟩

end Execution
end JvmArchive.Flow
