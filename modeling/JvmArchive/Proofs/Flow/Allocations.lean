import JvmArchive.Proofs.ClassFile.Code.Opcodes
import JvmArchive.Proofs.Flow.Sites
import JvmArchive.Proofs.Flow.Steps

/-!
# What uninitialised objects are named after

An object that is not initialised yet stands in a state under the name of its allocation. Such names come
from allocations only: instructions move them and merging keeps or forgets them, so in every state that an
analysis reaches each of them is the name of an allocation of the method.
-/
namespace JvmArchive.Flow

/-- Whether all allocations that types name are among some sites. -/
def Named (sites : Label → Prop) (types : List VerificationType) : Prop :=
  ∀ site, .uninitialized site ∈ types → sites site

/-- Whether that is so of the types in all slots of a state. -/
structure State.Named (sites : Label → Prop) (state : State) : Prop where
  locals : Flow.Named sites state.locals
  stack : Flow.Named sites state.stack

variable {sites : Label → Prop} {xs ys : List VerificationType} {type : VerificationType}

theorem Named.of_subset (h : Named sites ys) (hsubset : ∀ type ∈ xs, type ∈ ys) : Named sites xs :=
  fun site hsite => h site (hsubset _ hsite)

theorem named_of_plain (h : ∀ type ∈ xs, ∀ site, type ≠ .uninitialized site) : Named sites xs :=
  fun site hsite => absurd rfl (h _ hsite site)

theorem named_nil : Named sites [] := named_of_plain nofun

theorem named_append : Named sites (xs ++ ys) ↔ Named sites xs ∧ Named sites ys := by
  simp only [Named, List.mem_append, or_imp, forall_and]

theorem named_cons : Named sites (type :: xs) ↔ Named sites [type] ∧ Named sites xs := by
  rw [← List.singleton_append, named_append]

/-- A type that names no allocation. -/
theorem named_plain (h : ∀ site, type ≠ .uninitialized site) : Named sites [type] :=
  named_of_plain fun _ hmem => List.mem_singleton.1 hmem ▸ h

/-- What each type names is kept if its image names nothing else. -/
theorem Named.map {change : VerificationType → VerificationType}
    (hchange : ∀ type ∈ xs, Named sites [type] → Named sites [change type]) (h : Named sites xs) :
    Named sites (xs.map change) := by
  intro site hsite
  obtain ⟨type, htype, hsame⟩ := List.mem_map.1 hsite
  have hnamed : Named sites [change type] :=
    hchange type htype (h.of_subset fun _ hother => List.mem_singleton.1 hother ▸ htype)
  exact hnamed site (List.mem_singleton.2 hsame.symm)

theorem named_ofFieldType (type : FieldType) : Named sites [.ofFieldType type] := by
  cases type <;> exact named_plain nofun

/-! ## Merging -/

theorem named_mergeType (common : CommonSuper) {a b : VerificationType} (ha : Named sites [a])
    (hb : Named sites [b]) : Named sites [mergeType common a b] := by
  unfold mergeType
  split
  · exact ha
  · split
    · exact hb
    · exact ha
    · exact named_plain nofun
    · exact named_plain nofun

theorem named_mergeLocals (common : CommonSuper) (hx : Named sites xs) (hy : Named sites ys) :
    Named sites (mergeLocals common xs ys) := by
  induction xs generalizing ys with
  | nil =>
    refine named_of_plain fun type htype => ?_
    rw [(List.mem_replicate.1 htype).2]
    nofun
  | cons a xs ih =>
    obtain ⟨ha, hx⟩ := named_cons.1 hx
    cases ys with
    | nil =>
      exact (named_cons.2 ⟨ha, hx⟩).map fun type _ htype =>
        named_mergeType common htype (named_plain nofun)
    | cons b ys =>
      obtain ⟨hb, hy⟩ := named_cons.1 hy
      exact named_cons.2 ⟨named_mergeType common ha hb, ih hx hy⟩

theorem named_zipWith (common : CommonSuper) (hx : Named sites xs) (hy : Named sites ys) :
    Named sites (List.zipWith (mergeType common) xs ys) := by
  induction xs generalizing ys with
  | nil => exact named_nil
  | cons a xs ih =>
    cases ys with
    | nil => exact named_nil
    | cons b ys =>
      obtain ⟨ha, hx⟩ := named_cons.1 hx
      obtain ⟨hb, hy⟩ := named_cons.1 hy
      exact named_cons.2 ⟨named_mergeType common ha hb, ih hx hy⟩

/-- What two states merge to names no other allocations. -/
theorem State.Named.merge? {common : CommonSuper} {existing incoming merged : State}
    (hexisting : existing.Named sites) (hincoming : incoming.Named sites)
    (h : Flow.merge? common existing incoming = some merged) : merged.Named sites := by
  unfold Flow.merge? at h
  split at h
  · cases h
    exact ⟨named_mergeLocals common hexisting.locals hincoming.locals,
      named_zipWith common hexisting.stack hincoming.stack⟩
  · cases h

/-! ## Executions -/

namespace Execution

/-- Whether an execution makes no state name other allocations than the given ones, and its result has a
property. -/
def Keeps {α : Type} (sites : Label → Prop) (execution : Execution α) (post : α → Prop) : Prop :=
  ∀ (machine machine' : Machine) (a : α), machine.state.Named sites →
    execution machine = .ok (a, machine') → machine'.state.Named sites ∧ post a

variable {α β : Type} {post : α → Prop} {goal : β → Prop}

theorem keeps_pure {a : α} (h : post a) : Keeps sites (pure a) post := by
  intro machine machine' b hnamed hrun
  cases hrun
  exact ⟨hnamed, h⟩

theorem keeps_throw (error : ExecutionError) : Keeps sites (throw error) post := by
  intro machine machine' a _ hrun
  cases hrun

theorem Keeps.bind {first : Execution α} {next : α → Execution β} (h : Keeps sites first post)
    (hnext : ∀ a, post a → Keeps sites (next a) goal) : Keeps sites (first >>= next) goal := by
  intro machine machine' b hnamed hrun
  obtain ⟨⟨a, middle⟩, hfirst, hrest⟩ := exists_of_bind_ok hrun
  obtain ⟨hmiddle, ha⟩ := h _ _ _ hnamed hfirst
  exact hnext a ha _ _ _ hmiddle hrest

theorem keeps_modify {change : Machine → Machine}
    (h : ∀ machine, machine.state.Named sites → (change machine).state.Named sites) :
    Keeps sites (modify change) fun _ => True := by
  intro machine machine' a hnamed hrun
  cases hrun
  exact ⟨h machine hnamed, trivial⟩

theorem keeps_get : Keeps sites get fun machine => machine.state.Named sites := by
  intro machine machine' a hnamed hrun
  cases hrun
  exact ⟨hnamed, hnamed⟩

theorem keeps_unlessFault {result : Except Fault α} (h : ∀ a, result = .ok a → post a) :
    Keeps sites (unlessFault result) post := by
  cases result with
  | error cause => exact keeps_throw _
  | ok a => exact keeps_pure (h a rfl)

theorem keeps_reachLocals (count : Nat) : Keeps sites (reachLocals count) fun _ => True :=
  keeps_modify fun _ h => h

/-! ### The stack -/

theorem keeps_pushSlots {slots : List VerificationType} (h : Named sites slots) :
    Keeps sites (pushSlots slots) fun _ => True := by
  unfold pushSlots
  refine Keeps.bind (keeps_modify fun machine hnamed => ?_) fun _ _ =>
    keeps_get.bind fun _ _ => keeps_modify fun _ hnamed => hnamed
  exact ⟨hnamed.locals, named_append.2 ⟨h, hnamed.stack⟩⟩

theorem keeps_push (h : Named sites [type]) : Keeps sites (push type) fun _ => True := by
  unfold push
  split
  · exact keeps_pushSlots (named_cons.2 ⟨named_plain nofun, h⟩)
  · exact keeps_pushSlots h

theorem keeps_pop (slots : Nat) : Keeps sites (pop slots) (Named sites) := by
  intro machine machine' taken hnamed hrun
  unfold pop at hrun
  split at hrun
  · cases hrun
  · cases hrun
    exact ⟨⟨hnamed.locals, hnamed.stack.of_subset fun _ => List.mem_of_mem_drop⟩,
      hnamed.stack.of_subset fun _ => List.mem_of_mem_take⟩

theorem keeps_drop (slots : Nat) : Keeps sites (drop slots) fun _ => True :=
  (keeps_pop slots).bind fun _ _ => keeps_pure trivial

theorem keeps_exchange (slots : Nat) (h : Named sites [type]) :
    Keeps sites (exchange slots type) fun _ => True :=
  (keeps_drop slots).bind fun _ _ => keeps_push h

theorem mem_of_slotAt {slots : List VerificationType} {index : Nat}
    (h : slotAt slots index = .ok type) : type ∈ slots := by
  unfold slotAt at h
  split at h
  next found hfound =>
    cases h
    exact List.mem_of_getElem? hfound
  · cases h

theorem keeps_popLowest (slots : Nat) :
    Keeps sites (popLowest slots) fun type => Named sites [type] := by
  refine (keeps_pop slots).bind fun taken htaken => keeps_unlessFault fun type htype => ?_
  refine htaken.of_subset fun other hother => ?_
  rw [List.mem_singleton.1 hother]
  exact List.mem_reverse.1 (mem_of_slotAt htype)

theorem keeps_rearrange (taken : Nat) (order : List Nat) :
    Keeps sites (rearrange taken order) fun _ => True := by
  refine (keeps_pop taken).bind fun values hvalues => ?_
  have hchosen : Keeps sites (unlessFault (order.mapM (slotAt values.reverse))) (Named sites) := by
    refine keeps_unlessFault fun chosen hchosen => hvalues.of_subset fun type htype => ?_
    obtain ⟨i, hi, rfl⟩ := List.getElem_of_mem htype
    have hslots := forall₂_of_mapM hchosen
    have hindex : i < order.length := hslots.length_eq ▸ hi
    exact List.mem_reverse.1 (mem_of_slotAt (hslots.get hindex hi))
  refine hchosen.bind fun chosen hnamed => keeps_pushSlots ?_
  exact hnamed.of_subset fun _ => List.mem_reverse.1

theorem keeps_valueOf (desc : String) :
    Keeps sites (valueOf desc) fun value => Named sites value.toList := by
  unfold valueOf
  split
  · exact keeps_pure named_nil
  · exact keeps_pure (named_ofFieldType _)
  · exact keeps_throw _

theorem keeps_pushResult (desc : String) : Keeps sites (pushResult desc) fun _ => True := by
  refine (keeps_valueOf _).bind fun value hvalue => ?_
  cases value with
  | none => exact keeps_pure trivial
  | some type => exact keeps_push hvalue

/-! ### Local variables -/

theorem named_setSlot {slots changed : List VerificationType} {index : Nat}
    (h : setSlot slots index type = .ok changed) (hslots : Named sites slots)
    (htype : Named sites [type]) : Named sites changed := by
  unfold setSlot at h
  split at h
  · cases h
    refine (named_cons.2 ⟨htype, hslots⟩ : Named sites (type :: slots)).of_subset fun other hother => ?_
    exact List.mem_cons.2 (List.mem_or_eq_of_mem_set hother).symm
  · cases h

theorem named_breakBefore {locals broken : List VerificationType} {slot : Nat}
    (h : breakBefore locals slot = .ok broken) (hlocals : Named sites locals) : Named sites broken := by
  unfold breakBefore at h
  split at h
  · cases h
    exact hlocals
  · obtain ⟨left, -, hrest⟩ := exists_of_bind_ok h
    split at hrest
    · exact named_setSlot hrest hlocals (named_plain nofun)
    · cases hrest
      exact hlocals

theorem named_breakAt {locals broken : List VerificationType} {slot : Nat}
    (h : breakAt locals slot = .ok broken) (hlocals : Named sites locals) : Named sites broken := by
  obtain ⟨old, -, hrest⟩ := exists_of_bind_ok h
  split at hrest
  · exact named_setSlot hrest hlocals (named_plain nofun)
  · cases hrest
    exact hlocals

theorem named_storeIn {locals stored : List VerificationType} {slot : Nat}
    (h : storeIn locals slot type = .ok stored) (hlocals : Named sites locals)
    (htype : Named sites [type]) : Named sites stored := by
  unfold storeIn at h
  dsimp only at h
  obtain ⟨before, hbefore, hrest⟩ := exists_of_bind_ok h
  obtain ⟨broken, hbroken, hrest⟩ := exists_of_bind_ok hrest
  obtain ⟨set, hset, hrest⟩ := exists_of_bind_ok hrest
  have hgrown : ∀ count, Named sites (locals ++ List.replicate count .top) := by
    intro count
    refine named_append.2 ⟨hlocals, named_of_plain fun other hother => ?_⟩
    rw [(List.mem_replicate.1 hother).2]
    nofun
  have hnamed := named_setSlot hset (named_breakAt hbroken (named_breakBefore hbefore (hgrown _))) htype
  split at hrest
  · exact named_setSlot hrest hnamed (named_plain nofun)
  · cases hrest
    exact hnamed

theorem keeps_store (slot : Nat) (h : Named sites [type]) :
    Keeps sites (store slot type) fun _ => True := by
  refine keeps_get.bind fun machine hmachine => ?_
  have hstored : Keeps sites (unlessFault (storeIn machine.state.locals slot type)) (Named sites) :=
    keeps_unlessFault fun stored hrun => named_storeIn hrun hmachine.locals h
  refine hstored.bind fun locals hlocals => Keeps.bind (keeps_modify fun machine hnamed => ?_) fun _ _ =>
    keeps_reachLocals _
  exact ⟨hlocals, hnamed.stack⟩

theorem keeps_move (op : Opcode) (slot : UInt16) : Keeps sites (move op slot) fun _ => True := by
  unfold move
  split
  · exact keeps_push (named_plain nofun)
  · exact keeps_push (named_plain nofun)
  · exact keeps_push (named_plain nofun)
  · exact keeps_push (named_plain nofun)
  · refine keeps_get.bind fun machine hmachine => ?_
    split
    next type htype =>
      refine keeps_push (hmachine.locals.of_subset fun other hother => ?_)
      rw [List.mem_singleton.1 hother]
      exact List.mem_of_getElem? htype
    · exact keeps_throw _
  · exact (keeps_popLowest 1).bind fun _ h => keeps_store _ h
  · exact (keeps_popLowest 1).bind fun _ h => keeps_store _ h
  · exact (keeps_popLowest 1).bind fun _ h => keeps_store _ h
  · exact (keeps_popLowest 2).bind fun _ h => keeps_store _ h
  · exact (keeps_popLowest 2).bind fun _ h => keeps_store _ h
  · exact keeps_throw _
  · exact keeps_throw _

/-! ### Instructions -/

theorem named_elementType {array element : VerificationType} (h : elementType array = .ok element) :
    Named sites [element] := by
  unfold elementType at h
  split at h
  · obtain ⟨name, -, hrest⟩ := exists_of_bind_ok h
    split at hrest
    · cases hrest
      exact named_plain nofun
    · split at hrest <;> cases hrest <;> exact named_plain nofun
  · cases h
    exact named_plain nofun

/-- Whether the value that an effect puts on the stack of itself names no allocation. -/
def Effect.isPlain : Effect → Bool
  | .push type | .exchange _ type =>
    match type with
    | .uninitialized _ => false
    | _ => true
  | _ => true

theorem isPlain_effect? (op : Opcode) : (effect? op).all Effect.isPlain = true := by
  revert op
  apply forall_opcode
  decide +kernel

theorem keeps_simple (op : Opcode) : Keeps sites (simple op) fun _ => True := by
  have hplain := isPlain_effect? op
  unfold simple
  split
  next effect heffect =>
    rw [heffect, Option.all_some] at hplain
    cases effect with
    | nothing => exact keeps_pure trivial
    | push type =>
      refine keeps_push (named_plain ?_)
      rintro site rfl
      cases hplain
    | drop slots => exact keeps_drop slots
    | exchange slots result =>
      refine keeps_exchange slots (named_plain ?_)
      rintro site rfl
      cases hplain
    | rearrange taken order => exact keeps_rearrange taken order
    | element =>
      refine (keeps_popLowest 2).bind fun array _ => ?_
      have helement : Keeps sites (unlessFault (elementType array)) fun type => Named sites [type] :=
        keeps_unlessFault fun element helement => named_elementType helement
      exact helement.bind fun element hnamed => keeps_push hnamed
  · exact keeps_throw _

theorem keeps_int (op : Opcode) (operand : Int32) : Keeps sites (int op operand) fun _ => True := by
  unfold int
  split
  · refine (keeps_drop 1).bind fun _ _ => ?_
    split
    · exact keeps_push (named_plain nofun)
    · exact keeps_throw _
  · exact keeps_push (named_plain nofun)

/-- An allocation names its site. -/
theorem keeps_type {site : Label} {op : Opcode} (class_ : String) (h : op = Opcode.new → sites site) :
    Keeps sites (Execution.type site op class_) fun _ => True := by
  unfold Execution.type
  split
  · refine Keeps.bind (keeps_modify fun _ hnamed => hnamed) fun _ _ => keeps_push fun other hother => ?_
    cases List.mem_singleton.1 hother
    exact h rfl
  · exact keeps_exchange 1 (named_plain nofun)
  · exact keeps_exchange 1 (named_plain nofun)
  · exact keeps_exchange 1 (named_plain nofun)
  · exact keeps_throw _

theorem keeps_field (op : Opcode) (desc : String) : Keeps sites (field op desc) fun _ => True := by
  refine (keeps_valueOf desc).bind fun value hnamed => ?_
  dsimp only
  -- A put drops what it stores before; only what is pushed afterwards matters.
  split
  case' h_2 | h_3 | h_4 => refine (keeps_drop _).bind fun _ _ => ?_
  all_goals
    split
    · cases value with
      | none => exact keeps_pure trivial
      | some type => exact keeps_push hnamed
    · exact keeps_pure trivial

/-- A constructor call makes its receiver an object that is initialised. -/
theorem keeps_initialised (owner callee : String) (receiver : VerificationType) :
    Keeps sites (initialised owner callee receiver) fun type => Named sites [type] := by
  unfold initialised
  split
  · exact keeps_pure (named_plain nofun)
  · refine keeps_get.bind fun machine _ => ?_
    split
    · exact keeps_pure (named_plain nofun)
    · exact keeps_throw _
  · exact keeps_pure (named_plain nofun)

theorem keeps_call (owner : String) (op : Opcode) (callee name desc : String) :
    Keeps sites (call owner op callee name desc) fun _ => True := by
  refine (keeps_drop _).bind fun _ _ => ?_
  dsimp only
  split
  · refine (keeps_popLowest 1).bind fun receiver _ => ?_
    split
    · refine (keeps_initialised owner callee receiver).bind fun result hresult => ?_
      have hexchange : ∀ types, Named sites types →
          Named sites (types.map fun type => if type = receiver then result else type) := by
        intro types htypes
        refine htypes.map fun type _ htype => ?_
        split
        · exact hresult
        · exact htype
      refine Keeps.bind (keeps_modify fun machine hnamed => ?_) fun _ _ => keeps_pushResult desc
      exact ⟨hexchange _ hnamed.locals, hexchange _ hnamed.stack⟩
    · exact keeps_pushResult desc
  · exact keeps_pushResult desc

theorem keeps_jump (op : Opcode) : Keeps sites (jump op) fun _ => True := by
  unfold jump
  split
  · exact keeps_drop 1
  · split
    · exact keeps_drop 2
    · split
      · exact keeps_pure trivial
      · exact keeps_throw _

theorem keeps_constantType (constant : Constant) :
    Keeps sites (constantType constant) fun type => Named sites [type] := by
  cases constant
  case dynamic name desc bootstrap arguments =>
    refine (keeps_valueOf desc).bind fun value hvalue => ?_
    cases value with
    | none => exact keeps_throw _
    | some type => exact keeps_pure hvalue
  all_goals exact keeps_pure (named_plain nofun)

/-- Every instruction keeps the names, if its own is one of them should it be an allocation. -/
theorem keeps_instruction (owner : String) {site : Label} {instruction : Instruction}
    (h : ∀ class_, instruction = .type Opcode.new class_ → sites site) :
    Keeps sites (Execution.instruction owner site instruction) fun _ => True := by
  cases instruction with
  | label label => exact keeps_pure trivial
  | line number start => exact keeps_pure trivial
  | frame frame => exact keeps_pure trivial
  | simple op => exact keeps_simple op
  | int op operand => exact keeps_int op operand
  | var op slot => exact (keeps_move op slot).bind fun _ _ => keeps_reachLocals _
  | type op class_ => exact keeps_type class_ fun hop => h class_ (hop ▸ rfl)
  | field op => exact keeps_field op _
  | method op => exact keeps_call owner op _ _ _
  | invokeDynamic name desc => exact (keeps_drop _).bind fun _ _ => keeps_pushResult desc
  | jump op => exact keeps_jump op
  | ldc constant => exact (keeps_constantType constant).bind fun _ h => keeps_push h
  | iinc => exact keeps_reachLocals _
  | tableSwitch => exact keeps_drop 1
  | lookupSwitch => exact keeps_drop 1
  | multiANewArray desc => exact keeps_exchange _ (named_plain nofun)

end Execution

/-! ## Analyses -/

/-- Whether that is so of all states. -/
def NamedAll (sites : Label → Prop) (states : Array (Option State)) : Prop :=
  ∀ (index : Nat) (state : State), states[index]? = some (some state) → state.Named sites

/-- Whether a label names an allocation of a method. -/
def Body.IsSite (body : Body) (site : Label) : Prop := ∃ class_, body.Allocates site class_

namespace Progress

variable {common : CommonSuper} {body : Body} {progress next last : Progress} {index : Nat}
  {instruction : Instruction} {incoming before : State}

theorem named_flowTo (h : NamedAll sites progress.states) (hincoming : incoming.Named sites)
    (hflow : flowTo common incoming progress index = .ok next) : NamedAll sites next.states := by
  rcases states_flowTo hflow with hsame | ⟨merged, hlt, hset, hmerged⟩
  · rwa [hsame]
  · have hnamed : merged.Named sites := by
      rcases hmerged with ⟨-, rfl⟩ | ⟨existing, hexisting, hmerged⟩
      · exact hincoming
      · exact (h _ _ hexisting).merge? hincoming hmerged
    rw [hset]
    intro other state hstate
    by_cases hother : index = other
    · subst hother
      rw [Array.getElem?_setIfInBounds_self_of_lt hlt] at hstate
      cases hstate
      exact hnamed
    · rw [Array.getElem?_setIfInBounds_ne hother] at hstate
      exact h _ _ hstate

theorem named_visit (hinstruction : body.instructions[index]? = some instruction)
    (hbefore : progress.states[index]? = some (some before)) (h : NamedAll body.IsSite progress.states)
    (hvisit : visit body common progress index instruction before = .ok next) :
    NamedAll body.IsSite next.states := by
  have hnamed := h _ _ hbefore
  refine keeps_visit (fun _ _ hholds hflow => ?_)
    (fun hrun _ _ _ _ _ hholds hflow => ?_) h hvisit
  · refine named_flowTo hholds ?_ hflow
    exact ⟨hnamed.locals, named_plain nofun⟩
  · have hsite : ∀ class_, instruction = .type Opcode.new class_ → body.IsSite (body.site index) :=
      fun class_ hnew => ⟨class_, index, hnew ▸ hinstruction, rfl⟩
    have hafter := (Execution.keeps_instruction body.owner hsite _ _ _ hnamed hrun).1
    exact named_flowTo hholds hafter hflow

theorem named_expand {types : List VerificationType} (h : Named sites types) :
    Named sites (expand types) := by
  induction types with
  | nil => exact named_nil
  | cons type types ih =>
    obtain ⟨htype, hrest⟩ := named_cons.1 h
    unfold expand
    split
    · exact named_cons.2 ⟨htype, named_cons.2 ⟨named_plain nofun, ih hrest⟩⟩
    · exact named_cons.2 ⟨htype, ih hrest⟩

/-- Nothing that a method is entered with has been allocated in it. -/
theorem named_entryLocals (method : MethodNode) (owner : String) :
    Named sites (method.entryLocals owner) := by
  refine named_append.2 ⟨?_, ?_⟩
  · unfold MethodNode.receiver?
    split
    · exact named_nil
    · split <;> exact named_plain nofun
  · unfold MethodNode.argumentTypes
    split
    · refine named_of_plain fun type htype => ?_
      obtain ⟨argument, -, rfl⟩ := List.mem_map.1 htype
      cases argument <;> nofun
    · exact named_nil

theorem named_run {method : MethodNode} {limit : Nat}
    (h : run body common limit (start body method) = .ok last) : NamedAll body.IsSite last.states := by
  have hstart : NamedAll body.IsSite (start body method).states := by
    intro index state hstate
    obtain ⟨-, rfl⟩ := states_start hstate
    exact ⟨named_expand (named_entryLocals method body.owner), named_nil⟩
  have hstep : ∀ {progress next : Progress}, NamedAll body.IsSite progress.states →
      step body common progress = .ok next → NamedAll body.IsSite next.states :=
    keeps_step fun hinstruction hbefore h hvisit => named_visit hinstruction hbefore h hvisit
  exact @keeps_run _ _ (fun now => NamedAll body.IsSite now.states) hstep _ _ _ hstart h

end Progress

/-- Every object that an analysis finds uninitialised is named after an allocation of the method. -/
theorem Analysis.named_states {common : CommonSuper} {owner : String} {method : MethodNode}
    {analysis : Analysis} (h : ofMethod owner method common = .ok analysis) :
    ∃ body, Body.ofMethod owner method = .ok body ∧ NamedAll body.IsSite analysis.states := by
  obtain ⟨body, progress, hbody, hrun, hstates⟩ := exists_run_of_ofMethod h
  exact ⟨body, hbody, hstates ▸ Progress.named_run hrun⟩

/-! ## Frames -/

theorem mem_of_mem_compact {slots : List VerificationType} (h : type ∈ compact slots) :
    type ∈ slots := by
  fun_induction compact slots with
  | case1 => exact h
  | case2 first => exact h
  | case3 first second rest hwide ih =>
    rcases List.mem_cons.1 h with rfl | hrest
    · exact List.mem_cons_self
    · exact List.mem_cons_of_mem _ (List.mem_cons_of_mem _ (ih hrest))
  | case4 first second rest hwide ih =>
    rcases List.mem_cons.1 h with rfl | hrest
    · exact List.mem_cons_self
    · exact List.mem_cons_of_mem _ (ih hrest)

/-- The frame of a state names no other allocations than the state. -/
theorem State.Named.toFrame {state : State} (h : state.Named sites) :
    Flow.Named sites (state.toFrame.locals ++ state.toFrame.stack) := by
  refine named_append.2 ⟨h.locals.of_subset fun type htype => ?_, h.stack.of_subset fun type htype => ?_⟩
  · exact mem_of_mem_compact
      (List.mem_reverse.1 ((List.dropWhile_sublist _).subset (List.mem_reverse.1 htype)))
  · exact List.mem_reverse.1 (mem_of_mem_compact htype)

end JvmArchive.Flow
