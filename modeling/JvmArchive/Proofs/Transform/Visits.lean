import JvmArchive.Proofs.Code.LabelIndex
import JvmArchive.Transform.Dispatch

/-!
# What visitors are shown

A visitor may keep a log of its calls beside its state without anyone noticing. The log of a visit to a
graph falls into one part for each class, and what each part holds can be said without the visitor: the
stops in their order, each shown as the stop before has left things, up to the first failure. Main
statement: `dispatch_recorded`.
-/
namespace JvmArchive
open CodeEditor CodeList

/-! ## Calls -/

/-- What a visitor has been shown at a stop, and what it has left. -/
structure Stop (α : Type) where
  before : α
  after : α
  failure : Option TransformError

/-- A call of a visitor. -/
inductive Call
  | onClass (stop : Stop ClassEntry)
  | onField (node : ClassNode) (stop : Stop FieldEntry)
  | onMethod (node : ClassNode) (stop : Stop MethodEntry)
  | onInstruction (node : ClassNode) (method : MethodNode) (id : InstructionId)
      (stop : Stop CodeEditor)

def Call.failure : Call → Option TransformError
  | onClass stop => stop.failure
  | onField _ stop => stop.failure
  | onMethod _ stop => stop.failure
  | onInstruction _ _ _ stop => stop.failure

/-- Whether calls end with a failure, or without one, and have none before. -/
def EndsWith (failure : Option TransformError) (calls : List Call) : Prop :=
  ∃ before, calls.map Call.failure = List.replicate before none ++ (failure.map some).toList

theorem endsWith_nil : EndsWith none [] := ⟨0, rfl⟩

theorem endsWith_singleton (call : Call) : EndsWith call.failure [call] := by
  cases hfailure : call.failure with
  | none => exact ⟨1, by simp [hfailure]⟩
  | some failure => exact ⟨0, by simp [hfailure]⟩

theorem EndsWith.append {failure : Option TransformError} {calls more : List Call}
    (h : EndsWith none calls) (h' : EndsWith failure more) : EndsWith failure (calls ++ more) := by
  obtain ⟨before, hbefore⟩ := h
  obtain ⟨behind, hbehind⟩ := h'
  refine ⟨before + behind, ?_⟩
  rw [List.map_append, hbefore, hbehind, Option.map_none, Option.toList_none, List.append_nil,
    List.replicate_add, List.append_assoc]

theorem EndsWith.cons {call : Call} {failure : Option TransformError} {calls : List Call}
    (hcall : call.failure = none) (h : EndsWith failure calls) : EndsWith failure (call :: calls) :=
  (hcall ▸ endsWith_singleton call).append h

/-! ## Visits -/

/-- One call. -/
def IsCall {α : Type} (call : Stop α → Call) (visit : Stop α) (calls : List Call) : Prop :=
  calls = [call visit]

/-- Things that are visited in their order, up to the first failure. -/
inductive InOrder {α : Type} (told : Stop α → List Call → Prop) : Stop (List α) → List Call → Prop
  | nil : InOrder told ⟨[], [], none⟩ []
  | failed {item after : α} {rest : List α} {failure : TransformError} {calls : List Call}
      (h : told ⟨item, after, some failure⟩ calls) :
      InOrder told ⟨item :: rest, after :: rest, some failure⟩ calls
  | next {item after : α} {rest others : List α} {failure : Option TransformError}
      {calls more : List Call} (h : told ⟨item, after, none⟩ calls)
      (hrest : InOrder told ⟨rest, others, failure⟩ more) :
      InOrder told ⟨item :: rest, after :: others, failure⟩ (calls ++ more)

/-- Those of some instructions that are there when their turn comes, in their order, up to the first
failure. -/
inductive InCode : List InstructionId → Stop CodeEditor → List (InstructionId × Stop CodeEditor) → Prop
  | nil (editor : CodeEditor) : InCode [] ⟨editor, editor, none⟩ []
  | gone {id : InstructionId} {ids : List InstructionId} {visit : Stop CodeEditor}
      {turns : List (InstructionId × Stop CodeEditor)} (hid : id ∉ visit.before.code.ids)
      (hrest : InCode ids visit turns) : InCode (id :: ids) visit turns
  | failed {id : InstructionId} {ids : List InstructionId} {editor after : CodeEditor}
      {failure : TransformError} (hid : id ∈ editor.code.ids) :
      InCode (id :: ids) ⟨editor, after, some failure⟩ [(id, ⟨editor, after, some failure⟩)]
  | next {id : InstructionId} {ids : List InstructionId} {editor middle after : CodeEditor}
      {failure : Option TransformError} {turns : List (InstructionId × Stop CodeEditor)}
      (hid : id ∈ editor.code.ids) (hrest : InCode ids ⟨middle, after, failure⟩ turns) :
      InCode (id :: ids) ⟨editor, after, failure⟩ ((id, ⟨editor, middle, none⟩) :: turns)

/-- Whether operations edit the code that is there, and lead from what is shown at each turn to what is
left. -/
def EditedBy (turns : List (InstructionId × Stop CodeEditor)) (edits : List (List Operation)) : Prop :=
  List.Forall₂ (fun turn operations => turn.2.after = turn.2.before.run operations ∧
    ∀ change ∈ operations.flatMap Operation.changes, change.IsEdit) turns edits

/-- A visit to the instructions of a method: to those that there are when it begins, each once and unless
it is gone by then. An instruction that comes in on the way is not visited. -/
structure CodeVisit (visit : Stop CodeEditor) (turns : List (InstructionId × Stop CodeEditor)) : Prop where
  told : InCode visit.before.code.ids visit turns
  unseen : ∀ edits, EditedBy turns edits →
    visit.before.code.Numbered (countPlaced (edits.flatten.flatMap Operation.changes)) →
      (turns.map (·.1)).Nodup ∧ ∀ turn ∈ turns.zip edits, ∀ id,
        turn.1.2.before.code.Enters (turn.2.flatMap Operation.changes) id → id ∉ turns.map (·.1)

/-- A visit to a method: first to the method, and then to its instructions. -/
inductive MethodVisit (node : ClassNode) : Stop MethodEntry → List Call → Prop
  | failed {method after : MethodEntry} {failure : TransformError} :
    MethodVisit node ⟨method, after, some failure⟩ [.onMethod node ⟨method, after, some failure⟩]
  | code {method shown : MethodEntry} {editor : CodeEditor} {failure : Option TransformError}
      {turns : List (InstructionId × Stop CodeEditor)}
      (h : CodeVisit ⟨shown.editor, editor, failure⟩ turns) :
      MethodVisit node ⟨method, { shown with editor }, failure⟩
        (.onMethod node ⟨method, shown, none⟩ ::
          turns.map fun turn => .onInstruction node shown.node turn.1 turn.2)

/-- A visit to a class: first to the class, then to its fields, and then to its methods. -/
inductive ClassVisit : Stop ClassEntry → List Call → Prop
  | failed {entry after : ClassEntry} {failure : TransformError} :
    ClassVisit ⟨entry, after, some failure⟩ [.onClass ⟨entry, after, some failure⟩]
  | fields {entry shown : ClassEntry} {fields : List FieldEntry} {failure : TransformError}
      {calls : List Call}
      (h : InOrder (IsCall (.onField shown.node)) ⟨shown.fields, fields, some failure⟩ calls) :
      ClassVisit ⟨entry, { shown with fields }, some failure⟩ (.onClass ⟨entry, shown, none⟩ :: calls)
  | methods {entry shown : ClassEntry} {fields : List FieldEntry} {methods : List MethodEntry}
      {failure : Option TransformError} {calls more : List Call}
      (hfields : InOrder (IsCall (.onField shown.node)) ⟨shown.fields, fields, none⟩ calls)
      (hmethods : InOrder (MethodVisit shown.node) ⟨shown.methods, methods, failure⟩ more) :
      ClassVisit ⟨entry, { shown with fields, methods }, failure⟩
        (.onClass ⟨entry, shown, none⟩ :: (calls ++ more))

/-! ## Failures -/

theorem IsCall.endsWith {α : Type} {call : Stop α → Call} (hcall : ∀ stop, (call stop).failure = stop.failure)
    {visit : Stop α} {calls : List Call} (h : IsCall call visit calls) : EndsWith visit.failure calls := by
  rw [IsCall] at h
  rw [h, ← hcall]
  exact endsWith_singleton _

theorem InOrder.endsWith {α : Type} {told : Stop α → List Call → Prop}
    (htold : ∀ visit calls, told visit calls → EndsWith visit.failure calls) {visit : Stop (List α)}
    {calls : List Call} (h : InOrder told visit calls) : EndsWith visit.failure calls := by
  induction h with
  | nil => exact endsWith_nil
  | failed h => exact htold _ _ h
  | next h _ ih => exact (htold _ _ h).append ih

theorem InCode.endsWith {ids : List InstructionId} {visit : Stop CodeEditor}
    {turns : List (InstructionId × Stop CodeEditor)} (h : InCode ids visit turns) (node : ClassNode)
    (method : MethodNode) :
    EndsWith visit.failure (turns.map fun turn => .onInstruction node method turn.1 turn.2) := by
  induction h with
  | nil => exact endsWith_nil
  | gone _ _ ih => exact ih
  | failed => exact endsWith_singleton _
  | next _ _ ih => exact .cons rfl ih

theorem MethodVisit.endsWith {node : ClassNode} {visit : Stop MethodEntry} {calls : List Call}
    (h : MethodVisit node visit calls) : EndsWith visit.failure calls := by
  cases h with
  | failed => exact endsWith_singleton _
  | code h => exact .cons rfl (h.told.endsWith node _)

/-- The log of a class ends where its visit does. -/
theorem ClassVisit.endsWith {visit : Stop ClassEntry} {calls : List Call} (h : ClassVisit visit calls) :
    EndsWith visit.failure calls := by
  cases h with
  | failed => exact endsWith_singleton _
  | fields h => exact .cons rfl (h.endsWith fun _ _ => IsCall.endsWith fun _ => rfl)
  | methods hfields hmethods =>
    have hmembers := (hfields.endsWith fun _ _ => IsCall.endsWith fun _ => rfl).append
      (hmethods.endsWith fun _ _ => MethodVisit.endsWith)
    exact .cons rfl hmembers

/-! ## Instructions that come in on the way -/

theorem InCode.sublist {ids : List InstructionId} {visit : Stop CodeEditor}
    {turns : List (InstructionId × Stop CodeEditor)} (h : InCode ids visit turns) :
    (turns.map (·.1)).Sublist ids := by
  induction h with
  | nil => exact List.Sublist.refl _
  | gone _ _ ih => exact ih.cons _
  | failed => exact (List.nil_sublist _).cons_cons _
  | next _ _ ih => exact ih.cons_cons _

/-- At every turn the counter has numbers left for what is placed then, and has not gone back since the
visit has begun. -/
theorem InCode.numbered {ids : List InstructionId} {visit : Stop CodeEditor}
    {turns : List (InstructionId × Stop CodeEditor)} (h : InCode ids visit turns)
    {edits : List (List Operation)} (hedits : EditedBy turns edits)
    (hnumbered : visit.before.code.Numbered (countPlaced (edits.flatten.flatMap Operation.changes))) :
    ∀ turn ∈ turns.zip edits,
      visit.before.code.nextId.toNat ≤ turn.1.2.before.code.nextId.toNat ∧
        turn.1.2.before.code.Numbered (countPlaced (turn.2.flatMap Operation.changes)) := by
  induction h generalizing edits with
  | nil => simp
  | gone _ _ ih => exact ih hedits hnumbered
  | failed =>
    obtain ⟨operations, rest, -, hrest, rfl⟩ := List.forall₂_cons_left_iff.1 hedits
    cases hrest
    intro turn hturn
    obtain rfl := List.mem_singleton.1 hturn
    exact ⟨Nat.le_refl _, by simpa using hnumbered⟩
  | next _ _ ih =>
    obtain ⟨operations, rest, ⟨hrun, hedit⟩, hrest, rfl⟩ := List.forall₂_cons_left_iff.1 hedits
    dsimp only at hrun hnumbered
    rw [List.flatten_cons, List.flatMap_append, countPlaced_append] at hnumbered
    intro turn hturn
    rw [List.zip_cons_cons] at hturn
    rcases List.mem_cons.1 hturn with rfl | hlater
    · exact ⟨Nat.le_refl _, hnumbered.mono (Nat.le_add_right ..)⟩
    · subst hrun
      have hadvances := hnumbered.advances_foldl hedit
      have hmiddle := hnumbered.foldl
      rw [← run_code] at hadvances hmiddle
      obtain ⟨hle, hturn⟩ := ih hrest hmiddle turn hlater
      exact ⟨Nat.le_trans hadvances.counter hle, hturn⟩

theorem InCode.codeVisit {visit : Stop CodeEditor} {turns : List (InstructionId × Stop CodeEditor)}
    (h : InCode visit.before.code.ids visit turns) : CodeVisit visit turns where
  told := h
  unseen := by
    intro edits hedits hnumbered
    refine ⟨hnumbered.distinct.sublist h.sublist, fun turn hturn id hid hvisited => ?_⟩
    obtain ⟨hcounter, hspare⟩ := h.numbered hedits hnumbered turn hturn
    have hedit : ∀ change ∈ turn.2.flatMap Operation.changes, change.IsEdit :=
      (List.forall₂_iff_zip.1 hedits).2 hturn |>.2
    have hlt := hnumbered.below id (h.sublist.subset hvisited)
    have hle := hspare.le_of_enters hedit hid
    omega

/-! ## Logs -/

namespace Visit
variable {α σ : Type}

/-- A visit with a log beside the state. -/
def withLog (visit : Visit α σ) (log : List Call) : Visit α (σ × List Call) :=
  { value := visit.value, state := (visit.state, log), failure := visit.failure }

/-- What a visit has made of a thing. -/
def stop (before : α) (visit : Visit α σ) : Stop α := ⟨before, visit.value, visit.failure⟩

end Visit

/-- Whether a visit that logs its calls is the same one besides, and what it logs is as told. -/
def Records {α σ : Type} (visit : α → σ → Visit α σ)
    (recorded : α → σ × List Call → Visit α (σ × List Call)) (told : Stop α → List Call → Prop) : Prop :=
  ∀ item state log, ∃ calls,
    recorded item (state, log) = (visit item state).withLog (log ++ calls) ∧
      told ((visit item state).stop item) calls

theorem Records.each {α σ : Type} {visit : α → σ → Visit α σ}
    {recorded : α → σ × List Call → Visit α (σ × List Call)} {told : Stop α → List Call → Prop}
    (h : Records visit recorded told) :
    Records (visitEach visit) (visitEach recorded) (InOrder told) := by
  intro items
  induction items with
  | nil => exact fun state log => ⟨[], by simp [visitEach, Visit.withLog], .nil⟩
  | cons item rest ih =>
    intro state log
    obtain ⟨calls, hrecorded, htold⟩ := h item state log
    rw [visitEach, visitEach, hrecorded]
    dsimp only [Visit.withLog]
    rw [Visit.stop] at htold
    cases hfailure : (visit item state).failure with
    | some failure =>
      rw [hfailure] at htold
      exact ⟨calls, rfl, .failed htold⟩
    | none =>
      rw [hfailure] at htold
      obtain ⟨more, hrest, hmore⟩ := ih (visit item state).state (log ++ calls)
      refine ⟨calls ++ more, ?_, .next htold hmore⟩
      dsimp only
      rw [hrest, ← List.append_assoc]
      rfl

namespace Visitor
variable {σ : Type} (visitor : Visitor σ)

/-- The visitor with a log of its calls. -/
def recorded : Visitor (σ × List Call) where
  name := visitor.name
  onClass entry state :=
    let visit := visitor.onClass entry state.1
    visit.withLog (state.2 ++ [.onClass (visit.stop entry)])
  onField node field state :=
    let visit := visitor.onField node field state.1
    visit.withLog (state.2 ++ [.onField node (visit.stop field)])
  onMethod node method state :=
    let visit := visitor.onMethod node method state.1
    visit.withLog (state.2 ++ [.onMethod node (visit.stop method)])
  onInstruction node method editor id state :=
    let visit := visitor.onInstruction node method editor id state.1
    visit.withLog (state.2 ++ [.onInstruction node method id (visit.stop editor)])

theorem records_field (node : ClassNode) :
    Records (visitor.onField node) (visitor.recorded.onField node) (IsCall (.onField node)) :=
  fun _ _ _ => ⟨_, rfl, rfl⟩

theorem records_code (node : ClassNode) (method : MethodNode) (ids : List InstructionId)
    (editor : CodeEditor) (state : σ) (log : List Call) : ∃ turns,
      visitor.recorded.visitCode node method ids editor (state, log) =
        (visitor.visitCode node method ids editor state).withLog
          (log ++ turns.map fun turn => .onInstruction node method turn.1 turn.2) ∧
      InCode ids ((visitor.visitCode node method ids editor state).stop editor) turns := by
  induction ids generalizing editor state log with
  | nil => exact ⟨[], by simp [visitCode, Visit.withLog], .nil editor⟩
  | cons id ids ih =>
    rw [visitCode, visitCode]
    by_cases hgone : (editor.code.get? id).isNone = true
    · rw [if_pos hgone, if_pos hgone]
      obtain ⟨turns, hrun, htold⟩ := ih editor state log
      exact ⟨turns, hrun, .gone (get?_eq_none_iff.1 (Option.isNone_iff_eq_none.1 hgone)) htold⟩
    · have hid : id ∈ editor.code.ids := by
        by_contra hnot
        exact hgone (Option.isNone_iff_eq_none.2 (get?_eq_none_iff.2 hnot))
      rw [if_neg hgone, if_neg hgone]
      generalize hvisit : visitor.onInstruction node method editor id state = visit
      have hrecorded : visitor.recorded.onInstruction node method editor id (state, log) =
          visit.withLog (log ++ [.onInstruction node method id (visit.stop editor)]) := by
        rw [← hvisit]
        rfl
      rw [hrecorded]
      obtain ⟨value, state, failure⟩ := visit
      cases failure with
      | some failure => exact ⟨[(id, ⟨editor, value, some failure⟩)], rfl, .failed hid⟩
      | none =>
        obtain ⟨turns, hrun, htold⟩ :=
          ih value state (log ++ [.onInstruction node method id ⟨editor, value, none⟩])
        refine ⟨(id, ⟨editor, value, none⟩) :: turns, ?_, .next hid htold⟩
        dsimp only [Visit.withLog, Visit.stop] at hrun ⊢
        rw [hrun, List.map_cons, List.append_assoc, List.singleton_append]

theorem records_method (node : ClassNode) :
    Records (visitor.visitMethod node) (visitor.recorded.visitMethod node) (MethodVisit node) := by
  intro method state log
  rw [visitMethod, visitMethod]
  generalize hvisit : visitor.onMethod node method state = visit
  have hrecorded : visitor.recorded.onMethod node method (state, log) =
      visit.withLog (log ++ [.onMethod node (visit.stop method)]) := by
    rw [← hvisit]
    rfl
  rw [hrecorded]
  obtain ⟨shown, state, failure⟩ := visit
  cases failure with
  | some failure => exact ⟨[.onMethod node ⟨method, shown, some failure⟩], rfl, .failed⟩
  | none =>
    obtain ⟨turns, hrun, htold⟩ := visitor.records_code node shown.node shown.editor.code.ids
      shown.editor state (log ++ [.onMethod node ⟨method, shown, none⟩])
    refine ⟨_, ?_, .code htold.codeVisit⟩
    dsimp only [Visit.withLog, Visit.stop] at hrun ⊢
    rw [hrun, List.append_assoc, List.singleton_append]

theorem records_class : Records visitor.visitClass visitor.recorded.visitClass ClassVisit := by
  intro entry state log
  rw [visitClass, visitClass]
  generalize hvisit : visitor.onClass entry state = visit
  have hrecorded : visitor.recorded.onClass entry (state, log) =
      visit.withLog (log ++ [.onClass (visit.stop entry)]) := by
    rw [← hvisit]
    rfl
  rw [hrecorded]
  obtain ⟨shown, state, failure⟩ := visit
  cases failure with
  | some failure => exact ⟨[.onClass ⟨entry, shown, some failure⟩], rfl, .failed⟩
  | none =>
    obtain ⟨calls, hfields, htold⟩ := (visitor.records_field shown.node).each shown.fields state
      (log ++ [.onClass ⟨entry, shown, none⟩])
    dsimp only [Visit.withLog, Visit.stop] at hfields htold ⊢
    rw [hfields]
    generalize visitEach (visitor.onField shown.node) shown.fields state = fields at htold ⊢
    obtain ⟨fields, state, failure⟩ := fields
    cases failure with
    | some failure =>
      refine ⟨_, ?_, .fields htold⟩
      rw [List.append_assoc, List.singleton_append]
    | none =>
      obtain ⟨more, hmethods, hmore⟩ := (visitor.records_method shown.node).each shown.methods state
        (log ++ [.onClass ⟨entry, shown, none⟩] ++ calls)
      refine ⟨_, ?_, .methods htold hmore⟩
      dsimp only at hmethods ⊢
      rw [hmethods]
      simp [Visit.withLog]

/-- The classes whose visits have failed, each under the name that it had before. -/
def failuresOf (visits : List (Stop ClassEntry × List Call)) : Failures :=
  visits.filterMap fun visit => visit.1.failure.map fun failure => (visit.1.before.name, failure)

theorem exists_visits (entries : List ClassEntry) (state : σ) (log : List Call) :
    ∃ visits : List (Stop ClassEntry × List Call),
      visits.map (·.1.before) = entries ∧ (∀ visit ∈ visits, ClassVisit visit.1 visit.2) ∧
      (visitor.visitClasses entries state).1 = visits.map (·.1.after) ∧
      (visitor.visitClasses entries state).2.2 = failuresOf visits ∧
      visitor.recorded.visitClasses entries (state, log) =
        ((visitor.visitClasses entries state).1,
          ((visitor.visitClasses entries state).2.1, log ++ visits.flatMap (·.2)),
          (visitor.visitClasses entries state).2.2) := by
  induction entries generalizing state log with
  | nil => exact ⟨[], rfl, by simp, rfl, rfl, by simp [visitClasses]⟩
  | cons entry rest ih =>
    obtain ⟨calls, hrecorded, htold⟩ := visitor.records_class entry state log
    obtain ⟨visits, hbefore, hvisits, hafter, hfailures, hrest⟩ :=
      ih (visitor.visitClass entry state).state (log ++ calls)
    refine ⟨((visitor.visitClass entry state).stop entry, calls) :: visits, ?_, ?_, ?_, ?_, ?_⟩
    · rw [List.map_cons, hbefore]
      rfl
    · exact List.forall_mem_cons.2 ⟨htold, hvisits⟩
    · rw [visitClasses, List.map_cons, ← hafter]
      rfl
    · rw [visitClasses, failuresOf, List.filterMap_cons]
      dsimp only [Visit.stop]
      rw [hfailures, failuresOf]
      cases (visitor.visitClass entry state).failure <;> rfl
    · rw [visitClasses, hrecorded]
      dsimp only [Visit.withLog]
      rw [hrest, visitClasses]
      simp

/-- A visitor that logs its calls does the same besides. The log has one part for each class in the order of
the graph, whether visits fail or not; each part tells of the class, then its fields, then each method with
those of its instructions that there are when their visit begins and when their turn comes, and has no
failure but at its end. The failures are those of the classes whose parts end with one, in order and under
their names from before. -/
theorem dispatch_recorded (graph : ClassGraph) (state : σ) :
    ∃ visits : List (Stop ClassEntry × List Call),
      visits.map (·.1.before) = graph.toList ∧
      (∀ visit ∈ visits, ClassVisit visit.1 visit.2 ∧ EndsWith visit.1.failure visit.2) ∧
      (visitor.dispatch graph state).1 = ClassGraph.ofList (visits.map (·.1.after)) ∧
      (visitor.dispatch graph state).2.2 =
        { classes := visits.length, failures := failuresOf visits } ∧
      visitor.recorded.dispatch graph (state, []) =
        ((visitor.dispatch graph state).1,
          ((visitor.dispatch graph state).2.1, visits.flatMap (·.2)),
          (visitor.dispatch graph state).2.2) := by
  obtain ⟨visits, hbefore, hvisits, hafter, hfailures, hrecorded⟩ :=
    visitor.exists_visits graph.toList state []
  refine ⟨visits, hbefore, fun visit hvisit => ⟨hvisits visit hvisit, (hvisits visit hvisit).endsWith⟩,
    ?_, ?_, ?_⟩
  · rw [dispatch, ← hafter]
  · have hsize : visits.length = graph.size := by
      rw [← List.length_map, hbefore]
      exact List.length_map ..
    rw [dispatch, hsize, ← hfailures]
  · rw [dispatch, hrecorded]
    rfl

/-- A class with a field and a method of two instructions. -/
def sample (name : String) : ClassEntry :=
  .ofNode
    { access := 1, name
      fields := [{ access := 1, name := "x", desc := "I" }]
      methods := [{ access := 9, name := "run", desc := "()V"
                    instructions := [.simple Opcode.nop, .simple Opcode.returnVoid] }] }

/-- Refuses the fields of one class, and places an instruction before every one that it is shown. -/
def pickyPadder : Visitor Unit where
  onField node field state :=
    { value := field, state
      failure := if node.name = "p/A" then some (.refused "p/A" "refusing") else none }
  onInstruction _ _ editor id state :=
    { value := editor.insertBefore id (.simple Opcode.nop), state }

/-- What a call shows: a class, a field, a method or an instruction. -/
def subject : Call → String × Option UInt32
  | .onClass stop => (stop.before.name, none)
  | .onField _ stop => (stop.before.name, none)
  | .onMethod _ stop => (stop.before.name, none)
  | .onInstruction _ method id _ => (method.name, some id.number)

/-- The code of the sample as it is before each of the two instructions is shown, and at the end. -/
def padded : Nat → CodeEditor
  | 0 => .ofCodeList (.ofList [.simple Opcode.nop, .simple Opcode.returnVoid])
  | n + 1 => (padded n).insertBefore ⟨n.toUInt32⟩ (.simple Opcode.nop)

/-- The class that is refused does not keep the other one from being visited, and there the two
instructions are visited that it has had, and not those that come in before them. -/
theorem dispatch_recorded_pickyPadder :
    let run := pickyPadder.recorded.dispatch (ClassGraph.ofList [sample "p/A", sample "p/B"]) ((), [])
    run.2.2 = { classes := 2, failures := [("p/A", .refused "p/A" "refusing")] } ∧
      run.2.1.2.map subject = [("p/A", none), ("x", none), ("p/B", none), ("x", none), ("run", none),
        ("run", some 0), ("run", some 1)] ∧
      (∃ visits : List (Stop ClassEntry × List Call), visits.length = 2 ∧
        run.2.1.2 = visits.flatMap (·.2) ∧
        ∀ visit ∈ visits, ClassVisit visit.1 visit.2 ∧ EndsWith visit.1.failure visit.2) ∧
      ∃ node method turns edits,
        run.2.1.2.drop 5 = turns.map (fun turn => .onInstruction node method turn.1 turn.2) ∧
        CodeVisit ⟨padded 0, padded 2, none⟩ turns ∧ EditedBy turns edits ∧
        (padded 0).code.Numbered (countPlaced (edits.flatten.flatMap Operation.changes)) ∧
        ∃ turn ∈ turns.zip edits, turn.1.2.before.code.Enters (turn.2.flatMap Operation.changes) ⟨3⟩ := by
  intro run
  obtain ⟨visits, hbefore, hvisits, -, -, hrun⟩ :=
    pickyPadder.dispatch_recorded (ClassGraph.ofList [sample "p/A", sample "p/B"]) ()
  have hlength : visits.length = 2 := by
    rw [← List.length_map, hbefore]
    decide +kernel
  refine ⟨by decide +kernel, by decide +kernel, ⟨visits, hlength, ?_, hvisits⟩, ?_⟩
  · exact congrArg (fun result => result.2.1.2) hrun
  · have htold : InCode (padded 0).code.ids ⟨padded 0, padded 2, none⟩
        [(⟨0⟩, ⟨padded 0, padded 1, none⟩), (⟨1⟩, ⟨padded 1, padded 2, none⟩)] :=
      .next (by decide) (.next (by decide) (.nil _))
    have hedited : EditedBy [(⟨0⟩, ⟨padded 0, padded 1, none⟩), (⟨1⟩, ⟨padded 1, padded 2, none⟩)]
        [[.insertBefore ⟨0⟩ (.simple Opcode.nop)], [.insertBefore ⟨1⟩ (.simple Opcode.nop)]] :=
      .cons ⟨rfl, by simp [Operation.changes, Change.IsEdit]⟩
        (.cons ⟨rfl, by simp [Operation.changes, Change.IsEdit]⟩ .nil)
    refine ⟨_, _, _, _, rfl, htold.codeVisit, hedited, numbered_ofList (by decide), _,
      List.mem_cons_of_mem _ List.mem_cons_self, [], _, [], rfl, ?_, ?_⟩
    · decide
    · decide

end Visitor
end JvmArchive
