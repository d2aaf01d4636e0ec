import Mathlib.Data.List.Forall2

/-!
# Computations that succeed or fail

What the success of a whole computation says of its parts, and which errors it does not have.
-/
namespace JvmArchive

/-- A computation in two steps that succeeds does so in both. -/
theorem exists_of_bind_ok {ε α β : Type} {first : Except ε α} {next : α → Except ε β} {b : β}
    (h : first >>= next = .ok b) : ∃ a, first = .ok a ∧ next a = .ok b := by
  cases first with
  | error error => cases h
  | ok a => exact ⟨a, rfl, h⟩

/-- A computation in two steps has a result if the first step has one from which the second goes on. -/
theorem exists_bind_ok {ε α β : Type} {first : Except ε α} {next : α → Except ε β} {P : α → Prop}
    {Q : β → Prop} (hfirst : ∃ a, first = .ok a ∧ P a)
    (hnext : ∀ a, P a → ∃ b, next a = .ok b ∧ Q b) : ∃ b, first >>= next = .ok b ∧ Q b := by
  obtain ⟨a, rfl, ha⟩ := hfirst
  exact hnext a ha

/-- If every element of a list has a result, the results come in the order of the elements. -/
theorem forall₂_of_mapM {ε α β : Type} {f : α → Except ε β} {xs : List α} {ys : List β}
    (h : xs.mapM f = .ok ys) : List.Forall₂ (fun x y => f x = .ok y) xs ys := by
  induction xs generalizing ys with
  | nil =>
    cases h
    exact .nil
  | cons x xs ih =>
    rw [List.mapM_cons] at h
    cases hx : f x with
    | error error =>
      rw [hx] at h
      cases h
    | ok y =>
      cases hxs : xs.mapM f with
      | error error =>
        rw [hx, hxs] at h
        cases h
      | ok rest =>
        rw [hx, hxs] at h
        cases h
        exact .cons hx (ih hxs)

/-- A computation in two steps fails in the first or in the second step. -/
theorem bind_eq_error_iff {ε α β : Type} {first : Except ε α} {next : α → Except ε β} {error : ε} :
    first >>= next = .error error ↔
      first = .error error ∨ ∃ a, first = .ok a ∧ next a = .error error := by
  cases first with
  | error found =>
    change Except.error found = _ ↔ _
    simp
  | ok a =>
    change next a = _ ↔ _
    simp

/-- A computation in two steps does not fail with an error with which neither step fails. -/
theorem bind_ne_error {ε α β : Type} {first : Except ε α} {next : α → Except ε β} {error : ε}
    (hfirst : first ≠ .error error) (hnext : ∀ a, next a ≠ .error error) :
    (first >>= next) ≠ .error error := by
  cases hrun : first with
  | error found =>
    rintro ⟨⟩
    exact hfirst hrun
  | ok a => exact hnext a

theorem foldlM_ne_error {ε α β : Type} {f : β → α → Except ε β} {error : ε}
    (hf : ∀ b a, f b a ≠ .error error) (items : List α) (b : β) :
    items.foldlM f b ≠ .error error := by
  induction items generalizing b with
  | nil => exact fun h => by cases h
  | cons item items ih =>
    rw [List.foldlM_cons]
    exact bind_ne_error (hf b item) ih

theorem mapM_ne_error {ε α β : Type} {f : α → Except ε β} {error : ε} {items : List α}
    (hf : ∀ a ∈ items, f a ≠ .error error) : items.mapM f ≠ .error error := by
  induction items with
  | nil => exact fun h => by cases h
  | cons item items ih =>
    rw [List.mapM_cons]
    obtain ⟨hfirst, hrest⟩ := List.forall_mem_cons.1 hf
    exact bind_ne_error hfirst fun b => bind_ne_error (ih hrest) fun bs h => by cases h

/-! ## Computations on a state -/

/-- Whether a computation fails from no state with an error. -/
def Avoids {σ ε α : Type} (error : ε) (run : StateT σ (Except ε) α) : Prop :=
  ∀ state, run state ≠ .error error

section
variable {σ ε α β : Type} {error : ε}

/-- A computation in two steps fails in the first or in the second step. -/
theorem run_bind_eq_error_iff {first : StateT σ (Except ε) α} {next : α → StateT σ (Except ε) β}
    {state : σ} : (first >>= next) state = .error error ↔ first state = .error error ∨
      ∃ a middle, first state = .ok (a, middle) ∧ next a middle = .error error := by
  change (first state >>= fun result => next result.1 result.2) = _ ↔ _
  rw [bind_eq_error_iff, Prod.exists]

/-- The second step has to be looked at only for the results that the first one has. -/
theorem Avoids.bind_of {first : StateT σ (Except ε) α} {next : α → StateT σ (Except ε) β}
    (hfirst : Avoids error first) (hnext : ∀ state a middle, first state = .ok (a, middle) →
      next a middle ≠ .error error) : Avoids error (first >>= next) := by
  intro state h
  rcases run_bind_eq_error_iff.1 h with hnow | ⟨a, middle, hok, hlater⟩
  · exact hfirst state hnow
  · exact hnext state a middle hok hlater

theorem Avoids.bind {first : StateT σ (Except ε) α} {next : α → StateT σ (Except ε) β}
    (hfirst : Avoids error first) (hnext : ∀ a, Avoids error (next a)) :
    Avoids error (first >>= next) :=
  hfirst.bind_of fun _ a middle _ => hnext a middle

@[simp]
theorem avoids_pure (a : α) : Avoids error (pure a : StateT σ (Except ε) α) := fun _ h => by cases h

@[simp]
theorem avoids_get : Avoids error (get : StateT σ (Except ε) σ) := fun _ h => by cases h

@[simp]
theorem avoids_modify (change : σ → σ) : Avoids error (modify change : StateT σ (Except ε) PUnit) :=
  fun _ h => by cases h

theorem avoids_throw {other : ε} (h : other ≠ error) :
    Avoids error (throw other : StateT σ (Except ε) α) := fun _ hthrow => h (Except.error.inj hthrow)

theorem avoids_lift {result : Except ε α} (h : result ≠ .error error) :
    Avoids error (liftM result : StateT σ (Except ε) α) := by
  cases result with
  | error other => exact avoids_throw fun heq => h (congrArg _ heq)
  | ok a => exact avoids_pure a

/-- A result that is passed on is the result. -/
theorem ok_of_lift {result : Except ε α} {state later : σ} {a : α}
    (h : (liftM result : StateT σ (Except ε) α) state = .ok (a, later)) : result = .ok a := by
  cases result with
  | error other => cases h
  | ok b =>
    cases h
    rfl

theorem avoids_mapM {f : α → StateT σ (Except ε) β} {items : List α}
    (h : ∀ item ∈ items, Avoids error (f item)) : Avoids error (items.mapM f) := by
  induction items with
  | nil => exact avoids_pure []
  | cons item items ih =>
    rw [List.mapM_cons]
    exact (h item List.mem_cons_self).bind fun _ =>
      (ih fun other hother => h other (List.mem_cons_of_mem _ hother)).bind fun _ => avoids_pure _

end

end JvmArchive
