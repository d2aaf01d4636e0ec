import JvmArchive.Proofs.Flow.Termination
import JvmArchive.Proofs.Graph.Superclasses

/-!
# Hierarchies that go around

An analysis over the classes of a graph comes to an end for every method exactly if no two classes are
above each other. Where two are, each is the common superclass of the other one and itself, so a loop that
swaps two references to them swaps their types at every turn.
-/
namespace JvmArchive.Flow

/-! ## A loop that swaps two references -/

/-- Two references to arrays of two classes, and a loop that swaps them. -/
def swapLoop (x y : String) : MethodNode where
  access := 8
  name := "m"
  desc := "()V"
  instructions :=
    [.simple Opcode.aconstNull, .type Opcode.checkcast (classArray 1 x),
      .simple Opcode.aconstNull, .type Opcode.checkcast (classArray 1 y),
      .label ⟨0⟩, .simple Opcode.swap, .jump Opcode.goto ⟨0⟩]

/-- The loop made ready for analysis. -/
def swapBody (owner x y : String) : Body where
  owner
  instructions := (swapLoop x y).instructions.toArray
  places := Body.placesOf (swapLoop x y).instructions
  handlers := []

theorem ofMethod_swapLoop (owner x y : String) :
    Body.ofMethod owner (swapLoop x y) = .ok (swapBody owner x y) := rfl

theorem place_swapLoop (owner x y : String) :
    Body.place (swapBody owner x y).places ⟨0⟩ = .ok 4 := by
  have hplace : (Body.placesOf (swapLoop x y).instructions)[(⟨0⟩ : Label)]? = some 4 := by
    simp [Body.placesOf, swapLoop]
  rw [Body.place, swapBody, hplace]

/-- Whether two types each take the place of the other in a merge. -/
structure Displace (common : CommonSuper) (p q : VerificationType) : Prop where
  ne : p ≠ q
  right : mergeType common p q = q
  left : mergeType common q p = p

theorem Displace.symm {common : CommonSuper} {p q : VerificationType} (h : Displace common p q) :
    Displace common q p :=
  ⟨h.ne.symm, h.left, h.right⟩

/-- The arrays of two classes that are each the common superclass of both displace each other. -/
theorem displace_classArray {common : CommonSuper} {x y : String} (hne : x ≠ y)
    (hright : common x y = y) (hleft : common y x = x) :
    Displace common (.object (classArray 1 x)) (.object (classArray 1 y)) := by
  have hmerge : ∀ {x y : String}, x ≠ y → common x y = y →
      mergeType common (.object (classArray 1 x)) (.object (classArray 1 y)) =
        .object (classArray 1 y) := by
    intro x y hne hcommon
    rw [mergeType_object fun h => hne (classArray_inj h), mergeNames,
      isArray_classArray Nat.one_pos, Bool.true_or, if_pos rfl, mergeArrays_classArray _ Nat.one_pos,
      hcommon]
  refine ⟨fun h => hne (classArray_inj (VerificationType.object.inj h)), hmerge hne hright,
    hmerge hne.symm hleft⟩

theorem mergeLocals_self (common : CommonSuper) (locals : List VerificationType) :
    mergeLocals common locals locals = locals := by
  induction locals with
  | nil => rfl
  | cons type locals ih => rw [mergeLocals, mergeType_self, ih]

/-- Two swapped references displace those in the other order. -/
theorem merge?_swapped {common : CommonSuper} {p q : VerificationType} (h : Displace common p q)
    (locals : List VerificationType) :
    merge? common ⟨locals, [q, p]⟩ ⟨locals, [p, q]⟩ = some ⟨locals, [p, q]⟩ := by
  simp [merge?, mergeLocals_self, h.left, h.right]

namespace Progress

variable {common : CommonSuper} {body : Body} {progress : Progress}

/-- A step from the only instruction that waits to the only one that follows it, where the state is new
or displaces the one that is there. -/
theorem step_of_single {index target : Nat} {instruction : Instruction} {before after : State}
    {found : Findings} (hhandlers : body.handlers = []) (hpending : progress.pending = [index])
    (hinstruction : body.instructions[index]? = some instruction)
    (hbefore : progress.states[index]? = some (some before))
    (hrun : Execution.instruction body.owner (body.site index) instruction
      ⟨before, progress.findings⟩ = .ok ((), ⟨after, found⟩))
    (hsuccessors : body.successors index instruction = .ok [target])
    (htarget : progress.states[target]? = some none ∨
      ∃ existing, progress.states[target]? = some (some existing) ∧ existing ≠ after ∧
        merge? common existing after = some after) :
    progress.step body common =
      .ok ⟨progress.states.setIfInBounds target (some after), [target], found⟩ := by
  have hflow : flowTo common after ⟨progress.states, [], found⟩ target =
      .ok ⟨progress.states.setIfInBounds target (some after), [target], found⟩ := by
    rcases htarget with hfresh | ⟨existing, hexisting, hne, hmerge⟩
    · simp [flowTo, hfresh, enqueue]
    · simp [flowTo, hexisting, hmerge, hne.symm, enqueue]
  have hvisit : visit body common { progress with pending := [] } index instruction before =
      .ok ⟨progress.states.setIfInBounds target (some after), [target], found⟩ := by
    have hnone : (if instruction.isPseudo then []
        else body.handlers.filter fun h => h.start ≤ index && index < h.stop) = [] := by
      simp [hhandlers]
    simp only [visit, hnone, List.foldlM_nil, hrun, StateT.run, hsuccessors, List.foldlM_cons,
      bind, Except.bind, pure, Except.pure]
    rw [hflow]
  rw [step, hpending]
  dsimp only
  rw [hbefore, hinstruction]
  exact hvisit

/-- How far the analysis of the loop has come, with one instruction that waits. Before the label the
references have just been swapped, so the states of the two other instructions of the loop are those of
the last turn, or of no turn yet. -/
inductive Turning (common : CommonSuper) (locals : List VerificationType) (x y : String) :
    Progress → Prop
  | start {findings : Findings} :
    Turning common locals x y
      ⟨#[some ⟨locals, []⟩, none, none, none, none, none, none], [0], findings⟩
  | first {before : Option State} {findings : Findings} :
    Turning common locals x y
      ⟨#[before, some ⟨locals, [.null]⟩, none, none, none, none, none], [1], findings⟩
  | firstCast {s₀ s₁ : Option State} {findings : Findings} :
    Turning common locals x y
      ⟨#[s₀, s₁, some ⟨locals, [.object (classArray 1 x)]⟩, none, none, none, none], [2], findings⟩
  | second {s₀ s₁ s₂ : Option State} {findings : Findings} :
    Turning common locals x y
      ⟨#[s₀, s₁, s₂, some ⟨locals, [.null, .object (classArray 1 x)]⟩, none, none, none], [3],
        findings⟩
  | label {s₀ s₁ s₂ s₃ atSwap atJump : Option State} {p q : VerificationType} {findings : Findings}
    (displace : Displace common p q) (swap : atSwap = none ∨ atSwap = some ⟨locals, [q, p]⟩)
    (jump : atJump = none ∨ atJump = some ⟨locals, [p, q]⟩) :
    Turning common locals x y
      ⟨#[s₀, s₁, s₂, s₃, some ⟨locals, [p, q]⟩, atSwap, atJump], [4], findings⟩
  | swap {s₀ s₁ s₂ s₃ atJump : Option State} {p q : VerificationType} {findings : Findings}
    (displace : Displace common p q) (jump : atJump = none ∨ atJump = some ⟨locals, [p, q]⟩) :
    Turning common locals x y
      ⟨#[s₀, s₁, s₂, s₃, some ⟨locals, [p, q]⟩, some ⟨locals, [p, q]⟩, atJump], [5], findings⟩
  | jump {s₀ s₁ s₂ s₃ atSwap : Option State} {p q : VerificationType} {findings : Findings}
    (displace : Displace common p q) (swap : atSwap = some ⟨locals, [p, q]⟩) :
    Turning common locals x y
      ⟨#[s₀, s₁, s₂, s₃, some ⟨locals, [p, q]⟩, atSwap, some ⟨locals, [q, p]⟩], [6], findings⟩

/-- A state that is missing or displaced at the next instruction makes room for what flows there. -/
theorem makes_room {locals : List VerificationType} {p q : VerificationType}
    {states : Array (Option State)} {index : Nat} {existing : Option State} (h : Displace common p q)
    (hget : states[index]? = some existing)
    (hexisting : existing = none ∨ existing = some ⟨locals, [q, p]⟩) :
    states[index]? = some none ∨
      ∃ existing, states[index]? = some (some existing) ∧ existing ≠ ⟨locals, [p, q]⟩ ∧
        merge? common existing ⟨locals, [p, q]⟩ = some ⟨locals, [p, q]⟩ := by
  rcases hexisting with rfl | rfl
  · exact .inl hget
  · refine .inr ⟨_, hget, ?_, merge?_swapped h locals⟩
    intro hsame
    exact h.ne (List.cons.inj (State.mk.inj hsame).2).1.symm

/-- The loop always goes on turning. -/
theorem exists_turning_step {owner x y : String} {locals : List VerificationType}
    (h : Displace common (.object (classArray 1 y)) (.object (classArray 1 x)))
    (hturning : Turning common locals x y progress) :
    progress.pending ≠ [] ∧ ∃ next, progress.step (swapBody owner x y) common = .ok next ∧
      Turning common locals x y next := by
  cases hturning with
  | start =>
    exact ⟨by simp, _, step_of_single rfl rfl rfl rfl rfl rfl (.inl rfl), .first⟩
  | first =>
    exact ⟨by simp, _, step_of_single rfl rfl rfl rfl rfl rfl (.inl rfl), .firstCast⟩
  | firstCast =>
    exact ⟨by simp, _, step_of_single rfl rfl rfl rfl rfl rfl (.inl rfl), .second⟩
  | second =>
    exact ⟨by simp, _, step_of_single rfl rfl rfl rfl rfl rfl (.inl rfl),
      .label h (.inl rfl) (.inl rfl)⟩
  | label displace hswap hjump =>
    exact ⟨by simp, _, step_of_single rfl rfl rfl rfl rfl rfl (makes_room displace rfl hswap),
      .swap displace hjump⟩
  | swap displace hjump =>
    exact ⟨by simp, _, step_of_single rfl rfl rfl rfl rfl rfl (makes_room displace.symm rfl hjump),
      .jump displace rfl⟩
  | jump displace hswap =>
    subst hswap
    have hsuccessors : (swapBody owner x y).successors 6 (.jump Opcode.goto ⟨0⟩) = .ok [4] := by
      simp only [Body.successors, Instruction.targets, List.mapM_cons, List.mapM_nil, place_swapLoop]
      rfl
    exact ⟨by simp, _, step_of_single rfl rfl rfl rfl rfl hsuccessors
      (makes_room displace.symm rfl (.inr rfl)), .label displace.symm (.inr rfl) (.inr rfl)⟩

/-- Where two classes displace each other, the analysis of the loop never comes to an end. -/
theorem not_settles_swapLoop (owner : String) {x y : String} (hne : x ≠ y) (hright : common x y = y)
    (hleft : common y x = x) :
    ¬(start (swapBody owner x y) (swapLoop x y)).Settles (swapBody owner x y) common :=
  not_settles_of_invariant
    (fun _ hturning => exists_turning_step (displace_classArray hne hright hleft).symm hturning)
    .start

end Progress
end Flow

namespace ClassGraph

open JvmArchive.Flow

variable {graph : ClassGraph}

theorem not_settles_swapLoop_of_reaches (owner : String) {x y : String} (hne : x ≠ y)
    (hx : graph.hasClass x = true) (hy : graph.hasClass y = true) (hup : graph.Reaches x y)
    (hdown : graph.Reaches y x) :
    ¬(Progress.start (swapBody owner x y) (swapLoop x y)).Settles (swapBody owner x y)
      graph.commonSuper :=
  Progress.not_settles_swapLoop owner hne (commonSuper_of_reaches hx hy hup)
    (commonSuper_of_reaches hy hx hdown)

/-- Over a graph whose root has no superclass, the analysis of every method comes to an end exactly if no
two classes are above each other. -/
theorem settles_iff_not_twined (hroot : graph.superName? rootClass = none) :
    (∀ (owner : String) (method : MethodNode) (body : Body), Body.ofMethod owner method = .ok body →
      (Progress.start body method).Settles body graph.commonSuper) ↔ ¬graph.Twined := by
  constructor
  · rintro hsettles ⟨x, y, hne, hx, hy, hup, hdown⟩
    exact not_settles_swapLoop_of_reaches "p/A" hne hx hy hup hdown
      (hsettles "p/A" _ _ (ofMethod_swapLoop "p/A" x y))
  · intro h owner method body _
    exact Progress.settles_start_of_climbs (climbs_commonSuper h hroot) body method

/-- Two classes with given superclasses. -/
def pairGraph (overA overB : String) : ClassGraph :=
  .ofList
    [.ofNode { access := 1, name := "p/A", superName := some overA },
      .ofNode { access := 1, name := "p/B", superName := some overB }]

/-- The loop that swaps a class and its superclass comes to an end. -/
theorem settles_straight :
    (Progress.start (swapBody "p/A" "p/A" "p/B") (swapLoop "p/A" "p/B")).Settles
      (swapBody "p/A" "p/A" "p/B") (pairGraph "java/lang/Object" "p/A").commonSuper :=
  (settles_iff_not_twined (by decide +kernel)).2 (by decide +kernel) "p/A" _ _
    (ofMethod_swapLoop "p/A" "p/A" "p/B")

/-- If each of the two classes extends the other one, it does not, however many steps are taken. -/
theorem run_circular_unsettled :
    ∃ body, Body.ofMethod "p/A" (swapLoop "p/A" "p/B") = .ok body ∧
      ∀ limit, (Progress.start body (swapLoop "p/A" "p/B")).run body
        (pairGraph "p/B" "p/A").commonSuper limit = .error .unsettled := by
  refine ⟨_, ofMethod_swapLoop "p/A" "p/A" "p/B", fun limit => ?_⟩
  have hup : (pairGraph "p/B" "p/A").superName? "p/A" = some "p/B" := by decide +kernel
  have hdown : (pairGraph "p/B" "p/A").superName? "p/B" = some "p/A" := by decide +kernel
  have hturns := not_settles_swapLoop_of_reaches "p/A" (by decide) (by decide +kernel)
    (by decide +kernel) (.single hup) (.single hdown)
  by_contra hends
  exact hturns ⟨limit, hends⟩

end ClassGraph
end JvmArchive
