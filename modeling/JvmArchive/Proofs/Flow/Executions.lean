import JvmArchive.Proofs.Flow.Accesses

/-!
# What executions do with findings

An instruction reads of what has been found only the classes of allocation sites. So it does the same to
a state under any findings that know these classes, the findings only grow, and they count every stack
and every local variable that the instruction makes. It makes no local variables beyond those that a slot
number reaches.
-/
namespace JvmArchive.Flow

/-- Findings that know all the sites of others and have counted no more. -/
structure Findings.Serves (other findings : Findings) : Prop where
  sites : ∀ (site : Label) (class_ : String),
    findings.sites[site]? = some class_ → other.sites[site]? = some class_
  maxStack : other.maxStack ≤ findings.maxStack
  maxLocals : other.maxLocals ≤ findings.maxLocals

/-- Findings that have counted the stack and the local variables of the state. -/
structure Machine.Counted (machine : Machine) : Prop where
  stack : machine.state.stack.length ≤ machine.findings.maxStack
  locals : machine.state.locals.length ≤ machine.findings.maxLocals

/-- Findings that came from others: the counts are no smaller, no site is forgotten, and a site that has
another class now got one that it may get. -/
structure Findings.Follows (allocates : Label → String → Prop) (after before : Findings) : Prop where
  maxStack : before.maxStack ≤ after.maxStack
  maxLocals : before.maxLocals ≤ after.maxLocals
  kept : ∀ (site : Label) (class_ : String),
    before.sites[site]? = some class_ → ∃ now : String, after.sites[site]? = some now
  allocated : ∀ (site : Label) (class_ : String), after.sites[site]? = some class_ →
    before.sites[site]? = some class_ ∨ allocates site class_

namespace Findings.Follows

variable {allocates : Label → String → Prop} {first second third : Findings}

theorem refl (findings : Findings) : Follows allocates findings findings where
  maxStack := Nat.le_refl _
  maxLocals := Nat.le_refl _
  kept _ class_ h := ⟨class_, h⟩
  allocated _ _ h := .inl h

theorem trans (h : Follows allocates third second) (h' : Follows allocates second first) :
    Follows allocates third first where
  maxStack := Nat.le_trans h'.maxStack h.maxStack
  maxLocals := Nat.le_trans h'.maxLocals h.maxLocals
  kept site class_ hsite := by
    obtain ⟨now, hnow⟩ := h'.kept site class_ hsite
    exact h.kept site now hnow
  allocated site class_ hsite := (h.allocated site class_ hsite).elim (h'.allocated site class_) .inr

end Findings.Follows

namespace Execution

/-- The local variables that slot numbers reach: a wide value in the last slot takes one more. -/
def slotLimit : Nat := 65537

theorem slot_lt_slotLimit (slot : UInt16) (type : VerificationType) :
    slot.toNat + (if type.isWide then 2 else 1) ≤ slotLimit := by
  have hslot := slot.toNat_lt
  unfold slotLimit
  split <;> omega

/-- What every execution does in which the sites may get the given classes. -/
structure Regular (allocates : Label → String → Prop) {α : Type} (execution : Execution α) : Prop where
  served : ∀ {state findings a state' findings' other},
    execution ⟨state, findings⟩ = .ok (a, ⟨state', findings'⟩) → Findings.Serves other findings →
      ∃ other', execution ⟨state, other⟩ = .ok (a, ⟨state', other'⟩) ∧ other'.Serves findings'
  follows : ∀ {machine a machine'}, execution machine = .ok (a, machine') →
    machine'.findings.Follows allocates machine.findings
  counted : ∀ {machine a machine'}, execution machine = .ok (a, machine') → machine.Counted →
    machine'.Counted
  bounded : ∀ {machine a machine'}, execution machine = .ok (a, machine') →
    machine'.state.locals.length ≤ max machine.state.locals.length slotLimit

variable {allocates : Label → String → Prop} {α β : Type}

@[simp]
theorem regular_pure (a : α) : Regular allocates (pure a : Execution α) where
  served h hserves := by
    cases h
    exact ⟨_, rfl, hserves⟩
  follows h := by
    cases h
    exact .refl _
  counted h hcounted := by
    cases h
    exact hcounted
  bounded h := by
    cases h
    exact Nat.le_max_left _ _

@[simp]
theorem regular_throw (error : ExecutionError) : Regular allocates (throw error : Execution α) where
  served h := by cases h
  follows h := by cases h
  counted h := by cases h
  bounded h := by cases h

theorem regular_bind {first : Execution α} {next : α → Execution β} (hfirst : Regular allocates first)
    (hnext : ∀ a, Regular allocates (next a)) : Regular allocates (first >>= next) := by
  have hparts : ∀ {machine b machine'}, (first >>= next) machine = .ok (b, machine') →
      ∃ a middle, first machine = .ok (a, middle) ∧ next a middle = .ok (b, machine') := by
    intro machine b machine' h
    change (first machine >>= fun p => next p.1 p.2) = _ at h
    cases hrun : first machine with
    | error error =>
      rw [hrun] at h
      cases h
    | ok p =>
      rw [hrun] at h
      exact ⟨p.1, p.2, rfl, h⟩
  constructor
  · intro state findings b state' findings' other h hserves
    obtain ⟨a, middle, hrun, hrest⟩ := hparts h
    obtain ⟨other', hother, hserves'⟩ := hfirst.served hrun hserves
    obtain ⟨other'', hother', hserves''⟩ := (hnext a).served hrest hserves'
    refine ⟨other'', ?_, hserves''⟩
    change (first ⟨state, other⟩ >>= fun p => next p.1 p.2) = _
    rw [hother]
    exact hother'
  · intro machine b machine' h
    obtain ⟨a, middle, hrun, hrest⟩ := hparts h
    exact ((hnext a).follows hrest).trans (hfirst.follows hrun)
  · intro machine b machine' h hcounted
    obtain ⟨a, middle, hrun, hrest⟩ := hparts h
    exact (hnext a).counted hrest (hfirst.counted hrun hcounted)
  · intro machine b machine' h
    obtain ⟨a, middle, hrun, hrest⟩ := hparts h
    have hmiddle := hfirst.bounded hrun
    have hlast := (hnext a).bounded hrest
    omega

/-- An execution that looks at the machine goes on with what it has seen. -/
theorem run_get (next : Machine → Execution α) (machine : Machine) :
    (get >>= next) machine = next machine machine := rfl

/-- An execution that only looks at the state is what follows for that state. -/
theorem regular_read {next : Machine → Execution α}
    (hstate : ∀ state findings other, next ⟨state, findings⟩ = next ⟨state, other⟩)
    (hnext : ∀ machine, Regular allocates (next machine)) :
    Regular allocates (get >>= next) where
  served {state findings a state' findings' other} h hserves := by
    change next ⟨state, findings⟩ ⟨state, findings⟩ = _ at h
    rw [hstate state findings other] at h
    exact (hnext _).served h hserves
  follows {machine a machine'} h := (hnext machine).follows h
  counted {machine a machine'} h := (hnext machine).counted h
  bounded {machine a machine'} h := (hnext machine).bounded h

/-- An execution that always succeeds is regular if it counts the state that it makes. -/
theorem regular_count {execution : Execution α} (a : State → α) (next : State → State)
    (depth count : State → Nat)
    (hrun : ∀ machine, execution machine = .ok (a machine.state, ⟨next machine.state,
      { machine.findings with
        maxStack := max machine.findings.maxStack (depth machine.state)
        maxLocals := max machine.findings.maxLocals (count machine.state) }⟩))
    (hstack : ∀ state, (next state).stack.length ≤ max state.stack.length (depth state))
    (hlocals : ∀ state, (next state).locals.length ≤ max state.locals.length (count state))
    (hbound : ∀ state, (next state).locals.length ≤ max state.locals.length slotLimit) :
    Regular allocates execution where
  served {state findings _ state' findings' other} h hserves := by
    rw [hrun] at h ⊢
    cases h
    have hdepth := hserves.maxStack
    have hcount := hserves.maxLocals
    exact ⟨_, rfl, hserves.sites, by dsimp only; omega, by dsimp only; omega⟩
  follows {machine a machine'} h := by
    rw [hrun] at h
    cases h
    exact ⟨Nat.le_max_left _ _, Nat.le_max_left _ _, fun _ class_ h => ⟨class_, h⟩, fun _ _ h => .inl h⟩
  counted {machine a machine'} h hcounted := by
    rw [hrun] at h
    cases h
    have hdepth := hcounted.stack
    have hcount := hcounted.locals
    have hstack := hstack machine.state
    have hlocals := hlocals machine.state
    exact ⟨by dsimp only; omega, by dsimp only; omega⟩
  bounded {machine a machine'} h := by
    rw [hrun] at h
    cases h
    exact hbound machine.state

/-! ## The stack -/

@[simp]
theorem regular_reachLocals (count : Nat) : Regular allocates (reachLocals count) := by
  refine regular_count (fun _ => ()) id (fun _ => 0) (fun _ => count) (fun machine => ?_) (by simp)
    (fun state => Nat.le_max_left _ _) fun state => Nat.le_max_left _ _
  simp only [Nat.max_zero]
  rfl

@[simp]
theorem regular_pushSlots (slots : List VerificationType) :
    Regular allocates (pushSlots slots) := by
  refine regular_count (fun _ => ()) (fun state => { state with stack := slots ++ state.stack })
    (fun state => (slots ++ state.stack).length) (fun _ => 0) (fun machine => ?_) ?_ (by simp)
    fun state => Nat.le_max_left _ _
  · simp only [Nat.max_zero]
    rfl
  · intro state
    exact Nat.le_max_right _ _

@[simp]
theorem regular_push (type : VerificationType) : Regular allocates (push type) :=
  regular_pushSlots _

@[simp]
theorem regular_pop (slots : Nat) : Regular allocates (pop slots) := by
  have htake : Regular allocates (fun machine => .ok (machine.state.stack.take slots,
      { machine with state := { machine.state with stack := machine.state.stack.drop slots } }) :
        Execution (List VerificationType)) := by
    refine regular_count (fun state => state.stack.take slots)
      (fun state => { state with stack := state.stack.drop slots }) (fun _ => 0) (fun _ => 0)
      (fun machine => ?_) ?_ (by simp) fun state => Nat.le_max_left _ _
    · simp only [Nat.max_zero]
    · intro state
      simp
  have hpop : pop slots = get >>= fun machine =>
      if machine.state.stack.length < slots then throw .stackUnderflow
      else fun machine => .ok (machine.state.stack.take slots,
        { machine with state := { machine.state with stack := machine.state.stack.drop slots } }) := by
    funext machine
    change _ =
      (if machine.state.stack.length < slots then throw .stackUnderflow else _ : Execution _) machine
    unfold pop
    split <;> rfl
  rw [hpop]
  refine regular_read (fun _ _ _ => rfl) fun machine => ?_
  split
  · exact regular_throw _
  · exact htake

@[simp]
theorem regular_drop (slots : Nat) : Regular allocates (drop slots) :=
  regular_bind (regular_pop slots) fun _ => regular_pure ()

@[simp]
theorem regular_unlessFault (result : Except Fault α) : Regular allocates (unlessFault result) := by
  unfold unlessFault
  split <;> simp

@[simp]
theorem regular_popLowest (slots : Nat) : Regular allocates (popLowest slots) :=
  regular_bind (regular_pop slots) fun _ => regular_unlessFault _

@[simp]
theorem regular_popValue : Regular allocates popValue := regular_popLowest 1

@[simp]
theorem regular_exchange (slots : Nat) (result : VerificationType) :
    Regular allocates (exchange slots result) :=
  regular_bind (regular_drop slots) fun _ => regular_push result

@[simp]
theorem regular_rearrange (taken : Nat) (order : List Nat) :
    Regular allocates (rearrange taken order) :=
  regular_bind (regular_pop taken) fun _ =>
    regular_bind (regular_unlessFault _) fun _ => regular_pushSlots _

@[simp]
theorem regular_valueOf (desc : String) : Regular allocates (valueOf desc) := by
  unfold valueOf
  split <;> simp

@[simp]
theorem regular_popArguments (desc : String) : Regular allocates (popArguments desc) :=
  regular_drop _

@[simp]
theorem regular_pushResult (desc : String) : Regular allocates (pushResult desc) := by
  refine regular_bind (regular_valueOf _) fun value => ?_
  split <;> simp

/-! ## Local variables -/

@[simp]
theorem regular_store (slot : UInt16) (type : VerificationType) :
    Regular allocates (store slot.toNat type) := by
  choose stored hstored hlength using fun locals => exists_storeIn locals slot.toNat type
  refine regular_count (fun _ => ()) (fun state => { state with locals := stored state.locals })
    (fun _ => 0) (fun _ => slot.toNat + if type.isWide then 2 else 1) (fun machine => ?_) (by simp) ?_ ?_
  · rw [store, run_get, hstored]
    simp only [Nat.max_zero]
    rfl
  · intro state
    exact Nat.le_of_eq (hlength _)
  · intro state
    have hslot := slot_lt_slotLimit slot type
    have hlength := hlength state.locals
    dsimp only
    omega

@[simp]
theorem regular_move (op : Opcode) (slot : UInt16) : Regular allocates (move op slot) := by
  unfold move
  split
  all_goals first
    | exact regular_push _
    | exact regular_throw _
    | exact regular_bind regular_popValue fun _ => regular_store _ _
    | exact regular_bind (regular_popLowest 2) fun _ => regular_store _ _
    | exact regular_read (fun _ _ _ => rfl) fun machine => by split <;> simp

@[simp]
theorem regular_loadOrStore (op : Opcode) (slot : UInt16) :
    Regular allocates (loadOrStore op slot) :=
  regular_bind (regular_move op slot) fun _ => regular_reachLocals _

/-! ## Instructions -/

@[simp]
theorem regular_perform (effect : Effect) : Regular allocates (perform effect) := by
  cases effect
  case element =>
    exact regular_bind (regular_popLowest 2) fun _ =>
      regular_bind (regular_unlessFault _) fun _ => regular_push _
  all_goals simp [perform]

@[simp]
theorem regular_simple (op : Opcode) : Regular allocates (simple op) := by
  unfold simple
  split <;> simp

@[simp]
theorem regular_int (op : Opcode) (operand : Int32) : Regular allocates (int op operand) := by
  unfold int
  split
  · refine regular_bind (regular_drop 1) fun _ => ?_
    split <;> simp
  · simp

/-- An allocation puts its class to its site. -/
theorem regular_allocate {site : Label} {class_ : String} (h : allocates site class_) :
    Regular allocates (modify fun machine => { machine with
      findings := { machine.findings with
        sites := machine.findings.sites.insert site class_ } } : Execution Unit) where
  served {state findings _ state' findings' other} hrun hserves := by
    cases hrun
    refine ⟨_, rfl, fun place name => ?_, hserves.maxStack, hserves.maxLocals⟩
    simp only [Std.HashMap.getElem?_insert]
    split
    · exact id
    · exact hserves.sites place name
  follows {machine _ machine'} hrun := by
    cases hrun
    refine ⟨Nat.le_refl _, Nat.le_refl _, fun place name hname => ?_, fun place name hname => ?_⟩
    · simp only [Std.HashMap.getElem?_insert]
      split
      · exact ⟨_, rfl⟩
      · exact ⟨name, hname⟩
    · simp only [Std.HashMap.getElem?_insert] at hname
      split at hname
      · rename_i hsite
        cases hname
        rw [← eq_of_beq hsite]
        exact .inr h
      · exact .inl hname
  counted hrun hcounted := by
    cases hrun
    exact ⟨hcounted.stack, hcounted.locals⟩
  bounded hrun := by
    cases hrun
    exact Nat.le_max_left _ _

theorem regular_type {site : Label} {op : Opcode} {class_ : String}
    (h : op = Opcode.new → allocates site class_) : Regular allocates (type site op class_) := by
  unfold type
  split
  · exact regular_bind (regular_allocate (h rfl)) fun _ => regular_push _
  all_goals simp

@[simp]
theorem regular_field (op : Opcode) (desc : String) : Regular allocates (field op desc) := by
  refine regular_bind (regular_valueOf desc) fun value => ?_
  cases value
  all_goals
    dsimp only
    split
    all_goals first
      | exact regular_bind (regular_drop _) fun _ => by split <;> simp
      | split <;> simp

/-- What a constructor call makes of its receiver depends on the class of one site. -/
@[simp]
theorem regular_initialised (owner callee : String) (receiver : VerificationType) :
    Regular allocates (initialised owner callee receiver) := by
  cases receiver
  case uninitialized site =>
    have hknown : ∀ {machine : Machine} {class_ : String},
        machine.findings.sites[site]? = some class_ →
          initialised owner callee (.uninitialized site) machine = .ok (.object class_, machine) := by
      intro machine class_ hclass
      unfold initialised
      dsimp only
      rw [run_get, hclass]
      rfl
    have hunknown : ∀ {machine : Machine}, machine.findings.sites[site]? = none →
        initialised owner callee (.uninitialized site) machine = .error (.noAllocationSite site) := by
      intro machine hnone
      unfold initialised
      dsimp only
      rw [run_get, hnone]
      rfl
    have hcases : ∀ {machine a machine'},
        initialised owner callee (.uninitialized site) machine = .ok (a, machine') →
          ∃ class_, machine.findings.sites[site]? = some class_ ∧ a = .object class_ ∧
            machine' = machine := by
      intro machine a machine' h
      cases hclass : machine.findings.sites[site]? with
      | none =>
        rw [hunknown hclass] at h
        cases h
      | some class_ =>
        rw [hknown hclass] at h
        cases h
        exact ⟨class_, rfl, rfl, rfl⟩
    constructor
    · intro state findings a state' findings' other h hserves
      obtain ⟨class_, hclass, rfl, hsame⟩ := hcases h
      cases hsame
      exact ⟨other, hknown (hserves.sites site class_ hclass), hserves⟩
    · intro machine a machine' h
      obtain ⟨-, -, -, rfl⟩ := hcases h
      exact .refl _
    · intro machine a machine' h hcounted
      obtain ⟨-, -, -, rfl⟩ := hcases h
      exact hcounted
    · intro machine a machine' h
      obtain ⟨-, -, -, rfl⟩ := hcases h
      exact Nat.le_max_left _ _
  all_goals exact regular_pure _

@[simp]
theorem regular_call (owner : String) (op : Opcode) (callee name desc : String) :
    Regular allocates (call owner op callee name desc) := by
  have hexchange : ∀ exchange : VerificationType → VerificationType,
      Regular allocates (modify fun machine => { machine with
        state :=
          { locals := machine.state.locals.map exchange
            stack := machine.state.stack.map exchange } } : Execution Unit) := by
    intro exchange
    refine regular_count (fun _ => ())
      (fun state => ⟨state.locals.map exchange, state.stack.map exchange⟩) (fun _ => 0) (fun _ => 0)
      (fun machine => ?_) (by simp) (by simp) fun state => ?_
    · simp only [Nat.max_zero]
      rfl
    · rw [List.length_map]
      exact Nat.le_max_left _ _
  refine regular_bind (regular_popArguments desc) fun _ => ?_
  dsimp only
  split
  · refine regular_bind regular_popValue fun receiver => ?_
    split
    · refine regular_bind (regular_initialised _ _ _) fun result => ?_
      exact regular_bind (hexchange _) fun _ => regular_pushResult _
    · simp
  · simp

@[simp]
theorem regular_jump (op : Opcode) : Regular allocates (jump op) := by
  unfold jump
  split
  · simp
  · split
    · simp
    · split <;> simp

@[simp]
theorem regular_constantType (constant : Constant) : Regular allocates (constantType constant) := by
  cases constant
  case dynamic name desc bootstrap arguments =>
    refine regular_bind (regular_valueOf desc) fun value => ?_
    cases value <;> simp
  all_goals exact regular_pure _

/-- Every instruction is regular if the classes it allocates are among those that the sites may get. -/
theorem regular_instruction (owner : String) (site : Label) {instruction : Instruction}
    (h : ∀ class_, instruction = .type Opcode.new class_ → allocates site class_) :
    Regular allocates (Execution.instruction owner site instruction) := by
  cases instruction
  case type op class_ => exact regular_type fun hop => h class_ (hop ▸ rfl)
  case invokeDynamic name desc bootstrap arguments =>
    exact regular_bind (regular_popArguments desc) fun _ => regular_pushResult desc
  case ldc constant => exact regular_bind (regular_constantType constant) fun _ => regular_push _
  all_goals simp [Execution.instruction]

end Execution
end JvmArchive.Flow
