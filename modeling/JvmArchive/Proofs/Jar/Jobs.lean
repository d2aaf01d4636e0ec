import JvmArchive.Jar.Basic

/-!
# Work that succeeds

Work reads nothing of what has been logged before. Whether it succeeds is told step by step, and so is
with what.
-/
namespace JvmArchive.Job

variable {α β σ : Type} {records after : List LogRecord}

/-- Whether work that finds a log succeeds with a value and leaves another log. -/
def Succeeds (job : Job α) (records : List LogRecord) (value : α) (after : List LogRecord) : Prop :=
  (ExceptT.run job).run records = (.ok value, after)

theorem start_eq_iff {job : Job α} {value : α} :
    job.start = (.ok value, after) ↔ job.Succeeds [] value after := Iff.rfl

theorem succeeds_pure_iff {value result : α} :
    (pure value : Job α).Succeeds records result after ↔ result = value ∧ after = records := by
  change (Except.ok value, records) = (Except.ok result, after) ↔ _
  rw [Prod.mk.injEq, Except.ok.injEq, eq_comm, eq_comm (a := records)]

theorem succeeds_bind_iff {job : Job α} {next : α → Job β} {result : β} :
    (job >>= next).Succeeds records result after ↔
      ∃ value between, job.Succeeds records value between ∧
        (next value).Succeeds between result after := by
  have hrun : (ExceptT.run (job >>= next)).run records =
      match (ExceptT.run job).run records with
      | (.ok value, between) => (ExceptT.run (next value)).run between
      | (.error error, between) => (.error error, between) := by
    rw [ExceptT.run_bind, StateT.run_bind]
    rcases (ExceptT.run job).run records with ⟨error | value, between⟩ <;> rfl
  constructor
  · intro h
    rw [Succeeds, hrun] at h
    split at h
    · rename_i value between hjob
      exact ⟨value, between, hjob, h⟩
    · cases h
  · rintro ⟨value, between, hjob, hnext⟩
    rw [Succeeds, hrun, hjob]
    exact hnext

theorem not_succeeds_throw {error : JobError} {result : α} :
    ¬(throw error : Job α).Succeeds records result after := by
  intro h
  cases congrArg Prod.fst h

theorem succeeds_log_iff {level : LogLevel} {message : String} {result : Unit} :
    (log level message).Succeeds records result after ↔
      after = records ++ [({ level, message } : LogRecord)] := by
  change (Except.ok (), records ++ [({ level, message } : LogRecord)]) = (Except.ok result, after) ↔ _
  rw [Prod.mk.injEq, eq_comm (a := after)]
  exact and_iff_right rfl

theorem succeeds_checkpoint_iff {isCancelled : Bool} {phase : Phase} {result : Unit} :
    (checkpoint isCancelled phase).Succeeds records result after ↔
      isCancelled = false ∧ after = records := by
  cases isCancelled with
  | false =>
    rw [checkpoint, if_neg Bool.false_ne_true, succeeds_pure_iff]
    simp
  | true =>
    rw [checkpoint, if_pos rfl]
    simp [not_succeeds_throw]

/-- What every step keeps, a run of steps keeps. -/
theorem Succeeds.foldlM {P : σ → Prop} {step : σ → α → Job σ}
    (hstep : ∀ {state item records next after}, P state →
      (step state item).Succeeds records next after → P next)
    {items : List α} {state result : σ} (hstate : P state)
    (h : (items.foldlM step state).Succeeds records result after) : P result := by
  induction items generalizing state records with
  | nil =>
    rw [List.foldlM_nil, succeeds_pure_iff] at h
    exact h.1 ▸ hstate
  | cons item items ih =>
    rw [List.foldlM_cons, succeeds_bind_iff] at h
    obtain ⟨next, between, hfirst, hrest⟩ := h
    exact ih (hstep hstate hfirst) hrest

/-! ## Whatever has been logged before -/

/-- Whether work succeeds with a value, whatever log it finds. -/
def Gives (job : Job α) (value : α) : Prop := ∀ records, ∃ after, job.Succeeds records value after

theorem Gives.eq {job : Job α} {value result : α} (h : job.Gives value)
    (hresult : job.Succeeds records result after) : result = value := by
  obtain ⟨other, hvalue⟩ := h records
  rw [Succeeds, hvalue, Prod.mk.injEq, Except.ok.injEq] at hresult
  exact hresult.1.symm

theorem gives_pure (value : α) : (pure value : Job α).Gives value := fun records =>
  ⟨records, succeeds_pure_iff.2 ⟨rfl, rfl⟩⟩

theorem gives_log (level : LogLevel) (message : String) : (log level message).Gives () :=
  fun _ => ⟨_, succeeds_log_iff.2 rfl⟩

theorem gives_checkpoint (phase : Phase) : (checkpoint false phase).Gives () := fun records =>
  ⟨records, succeeds_checkpoint_iff.2 ⟨rfl, rfl⟩⟩

theorem Gives.bind {job : Job α} {next : α → Job β} {value : α} {result : β} (hjob : job.Gives value)
    (hnext : (next value).Gives result) : (job >>= next).Gives result := by
  intro records
  obtain ⟨between, hvalue⟩ := hjob records
  obtain ⟨after, hresult⟩ := hnext between
  exact ⟨after, succeeds_bind_iff.2 ⟨value, between, hvalue, hresult⟩⟩

theorem Gives.start {job : Job α} {value : α} (h : job.Gives value) :
    ∃ records, job.start = (.ok value, records) := h []

end JvmArchive.Job
