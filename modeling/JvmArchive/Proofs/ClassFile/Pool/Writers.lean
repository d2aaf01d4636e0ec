import JvmArchive.Proofs.ClassFile.Pool.Growth
import Mathlib.Data.Fintype.Card

/-!
# What writers yield

A small logic for computations over a growing pool. A writer yields a property of its result if, from
any valid builder, it only makes the builder grow and the result has the property in every complete
builder that is grown from there. What lasts it yields without any condition on the builders.
-/
namespace JvmArchive

namespace PoolBuilder

/-- The size is within the bound that is checked when an entry is put to the end, and every row of the
bootstrap table is named by an entry. -/
structure Bounded (builder : PoolBuilder) : Prop where
  size_le : builder.entries.size ≤ maxSlots
  named : ∀ row, row < builder.bootstrap.size → builder.Named row

theorem bounded_empty : Bounded {} where
  size_le := by decide
  named row h := by simp at h

/-- Rows that are named by entries are not more than the entries. -/
theorem Bounded.rows_lt {builder : PoolBuilder} (h : builder.Bounded) :
    builder.bootstrap.size < 65536 := by
  by_contra hlt
  have hnamed : ∀ row : Fin 65536, builder.Named row := by
    intro row
    exact h.named row (by omega)
  choose place entry hentry hrow using hnamed
  have hplace : ∀ row, place row < builder.entries.size := by
    intro row
    exact (Array.getElem?_eq_some_iff.1 (hentry row)).1
  have hinjective : Function.Injective fun row => (⟨place row, hplace row⟩ : Fin _) := by
    intro a b hab
    have hplaces : place a = place b := congrArg Fin.val hab
    have hentries : entry a = entry b := by
      have ha := hentry a
      rw [hplaces, hentry b] at ha
      exact (Option.some.inj ha).symm
    have hwords : (a : Nat).toUInt16 = (b : Nat).toUInt16 := by
      have ha := hrow a
      rw [hentries, hrow b] at ha
      exact (Option.some.inj ha).symm
    apply Fin.ext
    rw [← Bytes.toNat_toUInt16 a.isLt, hwords, Bytes.toNat_toUInt16 b.isLt]
  have hcard := Fintype.card_le_of_injective _ hinjective
  have hsize := h.size_le
  simp only [Fintype.card_fin, maxSlots] at hcard hsize
  omega

/-- A valid builder that started empty is complete. -/
theorem Valid.complete {builder : PoolBuilder} (hvalid : builder.Valid) (h : builder.Bounded) :
    builder.Complete := by
  refine ⟨hvalid, ?_, h.rows_lt⟩
  have hsize := h.size_le
  simp only [maxSlots] at hsize
  omega

/-- How a writer may change a builder: it keeps what is there and the bound on the size, and names every
row that it adds. -/
structure Grows (builder later : PoolBuilder) : Prop extends Extends builder later where
  valid : later.Valid
  size_le : builder.entries.size ≤ maxSlots → later.entries.size ≤ maxSlots
  named : ∀ row, builder.bootstrap.size ≤ row → row < later.bootstrap.size → later.Named row

theorem Grows.refl {builder : PoolBuilder} (h : builder.Valid) : Grows builder builder where
  toExtends := .refl builder
  valid := h
  size_le := id
  named row hle hlt := by omega

theorem Grows.trans {a b c : PoolBuilder} (hab : Grows a b) (hbc : Grows b c) : Grows a c where
  toExtends := hab.toExtends.trans hbc.toExtends
  valid := hbc.valid
  size_le h := hbc.size_le (hab.size_le h)
  named row hle hlt := by
    by_cases hrow : row < b.bootstrap.size
    · exact (hab.named row hle hrow).extend hbc.toExtends
    · exact hbc.named row (by omega) hlt

theorem Bounded.grow {builder later : PoolBuilder} (h : builder.Bounded) (hgrows : Grows builder later) :
    later.Bounded where
  size_le := hgrows.size_le h.size_le
  named row hlt := by
    by_cases hrow : row < builder.bootstrap.size
    · exact (h.named row hrow).extend hgrows.toExtends
    · exact hgrows.named row (by omega) hlt

/-- The size stays within the bound that is checked when an entry is put to the end. -/
theorem size_add_le {builder later : PoolBuilder} {entry : PoolEntry} {index : UInt16}
    (hsize : builder.entries.size ≤ maxSlots) (h : add entry builder = .ok (index, later)) :
    later.entries.size ≤ maxSlots := by
  unfold add at h
  split at h
  · cases h
    exact hsize
  · by_cases hfull : builder.entries.size + (if entry.isWide then 2 else 1) > maxSlots
    · rw [if_pos hfull] at h
      cases h
    · rw [if_neg hfull] at h
      cases h
      unfold ConstantPool.pushEntry
      split at hfull <;> simp_all

theorem grows_add {builder later : PoolBuilder} {entry : PoolEntry} {index : UInt16}
    (hvalid : builder.Valid) (hentry : entry.Writable) (h : add entry builder = .ok (index, later)) :
    Grows builder later := by
  obtain ⟨hlater, hextends, hrows, -⟩ := add_spec hvalid hentry h
  refine ⟨hextends, hlater, fun hsize => size_add_le hsize h, ?_⟩
  intro row hle hlt
  rw [hrows] at hlt
  omega

end PoolBuilder

namespace PoolWriter
open PoolBuilder

variable {α β : Type}

theorem bind_run (write : PoolWriter α) (next : α → PoolWriter β) (builder : PoolBuilder) :
    (write >>= next) builder = (write builder).bind fun result => next result.1 result.2 := rfl

theorem map_run (f : α → β) (write : PoolWriter α) (builder : PoolBuilder) :
    (f <$> write) builder = (write builder).map fun result => (f result.1, result.2) := by
  have hmap : (f <$> write) builder =
      (write builder).bind fun result => .ok (f result.1, result.2) := rfl
  rw [hmap]
  cases write builder <;> rfl

theorem get_run (builder : PoolBuilder) :
    (get : PoolWriter PoolBuilder) builder = .ok (builder, builder) := rfl

theorem pure_run (a : α) (builder : PoolBuilder) :
    (pure a : PoolWriter α) builder = .ok (a, builder) := rfl

theorem lift_run (a : α) (builder : PoolBuilder) :
    (liftM (.ok a : Except WriteError α) : PoolWriter α) builder = .ok (a, builder) := rfl

theorem bind_ok {write : PoolWriter α} {next : α → PoolWriter β} {builder later : PoolBuilder} {b : β}
    (h : (write >>= next) builder = .ok (b, later)) :
    ∃ a middle, write builder = .ok (a, middle) ∧ next a middle = .ok (b, later) := by
  rw [bind_run] at h
  cases hwrite : write builder with
  | error error =>
    rw [hwrite] at h
    cases h
  | ok result =>
    rw [hwrite] at h
    exact ⟨result.1, result.2, rfl, h⟩

/-- A computation that leaves the builder alone runs the next one in it. -/
theorem bind_settled {write : PoolWriter α} {next : α → PoolWriter β} {builder : PoolBuilder} {a : α}
    (h : write builder = .ok (a, builder)) : (write >>= next) builder = next a builder := by
  rw [bind_run, h]
  rfl

/-- From a valid builder the writer only makes it grow, and the result has the property in every
complete builder beyond. -/
def Yields (write : PoolWriter α) (post : PoolBuilder → α → Prop) : Prop :=
  ∀ (builder later : PoolBuilder) (a : α), builder.Valid → write builder = .ok (a, later) →
    Grows builder later ∧
      ∀ final : PoolBuilder, Extends later final → final.Complete → post final a

theorem yields_pure {post : PoolBuilder → α → Prop} {a : α}
    (h : ∀ final : PoolBuilder, final.Complete → post final a) : Yields (pure a) post := by
  intro builder later b hvalid hrun
  cases hrun
  refine ⟨.refl hvalid, ?_⟩
  intro final _ hcomplete
  exact h final hcomplete

/-- One writer after another. The second one may rely on its argument being a result of the first. -/
theorem Yields.bind_of {write : PoolWriter α} {next : α → PoolWriter β}
    {post : PoolBuilder → α → Prop} {goal : PoolBuilder → β → Prop} (h : Yields write post)
    (hnext : ∀ a, (∃ builder later, write builder = .ok (a, later)) →
      Yields (next a) fun final b => post final a → goal final b) :
    Yields (write >>= next) goal := by
  intro builder later b hvalid hrun
  obtain ⟨a, middle, hwrite, hrest⟩ := bind_ok hrun
  obtain ⟨hgrows, hpost⟩ := h _ _ _ hvalid hwrite
  obtain ⟨hgrows', hgoal⟩ := hnext a ⟨builder, middle, hwrite⟩ _ _ _ hgrows.valid hrest
  refine ⟨hgrows.trans hgrows', ?_⟩
  intro final hfinal hcomplete
  exact hgoal final hfinal hcomplete (hpost final (hgrows'.toExtends.trans hfinal) hcomplete)

theorem Yields.bind {write : PoolWriter α} {next : α → PoolWriter β} {post : PoolBuilder → α → Prop}
    {goal : PoolBuilder → β → Prop} (h : Yields write post)
    (hnext : ∀ a, Yields (next a) fun final b => post final a → goal final b) :
    Yields (write >>= next) goal :=
  h.bind_of fun a _ => hnext a

theorem Yields.mono {write : PoolWriter α} {post goal : PoolBuilder → α → Prop}
    (h : Yields write post)
    (himp : ∀ (final : PoolBuilder) (a : α), final.Complete → post final a → goal final a) :
    Yields write goal := by
  intro builder later a hvalid hrun
  obtain ⟨hgrows, hpost⟩ := h _ _ _ hvalid hrun
  refine ⟨hgrows, ?_⟩
  intro final hfinal hcomplete
  exact himp final a hcomplete (hpost final hfinal hcomplete)

/-- A last step that only puts the result together. -/
theorem Yields.bind_pure {write : PoolWriter α} {f : α → β} {post : PoolBuilder → α → Prop}
    {goal : PoolBuilder → β → Prop} (h : Yields write post)
    (himp : ∀ (final : PoolBuilder) (a : α), final.Complete → post final a → goal final (f a)) :
    Yields (write >>= fun a => pure (f a)) goal := by
  apply h.bind
  intro a
  apply yields_pure
  intro final hcomplete hpost
  exact himp final a hcomplete hpost

theorem yields_add {entry : PoolEntry} (hentry : entry.Writable) :
    Yields (add entry) fun final index => final.indices[entry]? = some index := by
  intro builder later index hvalid hrun
  refine ⟨grows_add hvalid hentry hrun, ?_⟩
  intro final hfinal _
  exact hfinal.indices (add_spec hvalid hentry hrun).2.2.2

/-- What is known after the first of two writers has run. -/
theorem Yields.run_first {write : PoolWriter α} {next : α → PoolWriter β}
    {post : PoolBuilder → α → Prop} (h : Yields write post) {builder later : PoolBuilder} {b : β}
    (hvalid : builder.Valid) (hrun : (write >>= next) builder = .ok (b, later)) :
    ∃ a middle, next a middle = .ok (b, later) ∧ Grows builder middle ∧
      ∀ final : PoolBuilder, Extends middle final → final.Complete → post final a := by
  obtain ⟨a, middle, hwrite, hrest⟩ := bind_ok hrun
  obtain ⟨hgrows, hpost⟩ := h _ _ _ hvalid hwrite
  exact ⟨a, middle, hrest, hgrows, hpost⟩

/-- Items that are written one after the other. -/
theorem yields_mapM {write : α → PoolWriter β} {post : α → PoolBuilder → β → Prop} {items : List α}
    (h : ∀ item ∈ items, Yields (write item) (post item)) :
    Yields (items.mapM write) fun final written =>
      List.Forall₂ (fun b item => post item final b) written items := by
  induction items with
  | nil =>
    rw [List.mapM_nil]
    exact yields_pure fun _ _ => List.Forall₂.nil
  | cons item items ih =>
    rw [List.mapM_cons]
    apply (h item List.mem_cons_self).bind
    intro b
    apply (ih fun other hother => h other (List.mem_cons_of_mem _ hother)).bind_pure
    intro final rest _ hrest hb
    exact .cons hb hrest

/-! ## Whatever the builder holds -/

/-- From any builder the writer only makes it grow, and its result has the property in every builder
beyond. -/
def Lasts (write : PoolWriter α) (post : PoolBuilder → α → Prop) : Prop :=
  ∀ (builder later : PoolBuilder) (a : α), write builder = .ok (a, later) →
    Extends builder later ∧ ∀ final : PoolBuilder, Extends later final → post final a

/-- Whether a writer gives its result again, in every builder beyond, and changes nothing. -/
def Recalls (write : PoolWriter α) : Prop :=
  Lasts write fun final a => write final = .ok (a, final)

theorem lasts_pure {post : PoolBuilder → α → Prop} {a : α} (h : ∀ final, post final a) :
    Lasts (pure a) post := by
  intro builder later b hrun
  cases hrun
  exact ⟨.refl builder, fun final _ => h final⟩

/-- One writer after another. The second one may rely on its argument being a result of the first. -/
theorem Lasts.bind_of {write : PoolWriter α} {next : α → PoolWriter β} {post : PoolBuilder → α → Prop}
    {goal : PoolBuilder → β → Prop} (h : Lasts write post)
    (hnext : ∀ a, (∃ builder later, write builder = .ok (a, later)) →
      Lasts (next a) fun final b => post final a → goal final b) :
    Lasts (write >>= next) goal := by
  intro builder later b hrun
  obtain ⟨a, middle, hwrite, hrest⟩ := bind_ok hrun
  obtain ⟨hextends, hpost⟩ := h _ _ _ hwrite
  obtain ⟨hextends', hgoal⟩ := hnext a ⟨builder, middle, hwrite⟩ _ _ _ hrest
  exact ⟨hextends.trans hextends', fun final hfinal =>
    hgoal final hfinal (hpost final (hextends'.trans hfinal))⟩

theorem Lasts.bind {write : PoolWriter α} {next : α → PoolWriter β} {post : PoolBuilder → α → Prop}
    {goal : PoolBuilder → β → Prop} (h : Lasts write post)
    (hnext : ∀ a, Lasts (next a) fun final b => post final a → goal final b) :
    Lasts (write >>= next) goal :=
  h.bind_of fun a _ => hnext a

theorem Lasts.mono {write : PoolWriter α} {post goal : PoolBuilder → α → Prop} (h : Lasts write post)
    (himp : ∀ final a, post final a → goal final a) : Lasts write goal := by
  intro builder later a hrun
  obtain ⟨hextends, hpost⟩ := h _ _ _ hrun
  exact ⟨hextends, fun final hfinal => himp final a (hpost final hfinal)⟩

theorem lasts_lift_bind {result : Except WriteError α} {next : α → PoolWriter β}
    {goal : PoolBuilder → β → Prop} (h : ∀ a, result = .ok a → Lasts (next a) goal) :
    Lasts (liftM result >>= next) goal := by
  intro builder later b hrun
  cases result with
  | error error => cases hrun
  | ok a => exact h a rfl builder later b hrun

/-- What lasts whatever the builder holds has the property also where the writer is known to make a valid
builder grow. -/
theorem Lasts.yields {write : PoolWriter α} {post : PoolBuilder → α → Prop} (h : Lasts write post)
    (hgrows : Yields write fun _ _ => True) : Yields write post :=
  fun builder later a hvalid hrun => ⟨(hgrows builder later a hvalid hrun).1,
    fun final hfinal _ => (h builder later a hrun).2 final hfinal⟩

theorem recalls_pure (a : α) : Recalls (pure a : PoolWriter α) := lasts_pure fun _ => rfl

/-- What is put together of results that are given again is given again. -/
theorem Recalls.bind {write : PoolWriter α} {next : α → PoolWriter β} (h : Recalls write)
    (hnext : ∀ a, Recalls (next a)) : Recalls (write >>= next) :=
  Lasts.bind h fun a => (hnext a).mono fun _ _ hagain hfirst => (bind_settled hfirst).trans hagain

end PoolWriter
end JvmArchive
