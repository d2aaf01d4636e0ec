import JvmArchive.Proofs.Mapping.NewNames

/-!
# Stores made by insertions

A store is filled by one insertion after the other. What every insertion keeps, every store that is made
in this way has: the rows of a class are for different members, and no table of rows is empty.
-/
namespace JvmArchive.Mapping

/-- One of the operations that fill a store. -/
inductive Insertion
  | mapClass (name mapping : String)
  | ensureClass (name : String)
  | mapField (className : String) (row : FieldMapping)
  | mapMethod (className : String) (row : MethodMapping)
  | completeDescriptors
  deriving Repr, DecidableEq, Inhabited

namespace Insertion

/-- The store after an insertion. -/
def apply (store : Store) : Insertion → Store
  | mapClass name mapping => store.mapClass name mapping
  | ensureClass name => store.ensureClass name
  | mapField className row => store.mapField className row
  | mapMethod className row => store.mapMethod className row
  | completeDescriptors => store.completeDescriptors

/-- Whether an insertion adds no class that is merely implied. -/
def IsExplicit : Insertion → Prop
  | ensureClass _ => False
  | _ => True

instance (insertion : Insertion) : Decidable insertion.IsExplicit := by
  cases insertion <;> unfold IsExplicit <;> infer_instance

end Insertion

namespace Store

/-- The store that insertions make of an empty one. -/
def made (direction : Direction) (insertions : List Insertion) : Store :=
  insertions.foldl Insertion.apply (.empty direction)

theorem made_concat (direction : Direction) (insertions : List Insertion) (insertion : Insertion) :
    made direction (insertions ++ [insertion]) = insertion.apply (made direction insertions) := by
  rw [made, List.foldl_append]
  rfl

/-- What every insertion keeps, the insertions of a list keep. -/
theorem made_induction {P : Store → Prop} {direction : Direction} (hstart : P (.empty direction))
    (insertions : List Insertion)
    (hstep : ∀ store, P store → ∀ insertion ∈ insertions, P (insertion.apply store)) :
    P (made direction insertions) :=
  List.foldlRecOn insertions _ (motive := P) hstart hstep

/-! ## What an insertion leaves alone -/

theorem mapClass_eq_with (store : Store) (name mapping : String) :
    store.mapClass name mapping =
      { store with
        classes := (store.mapClass name mapping).classes
        names := (store.mapClass name mapping).names
        implied := (store.mapClass name mapping).implied } := by
  unfold mapClass
  split
  · rfl
  · split <;> rfl

theorem ensureClass_eq_with (store : Store) (name : String) :
    store.ensureClass name =
      { store with
        classes := (store.ensureClass name).classes
        names := (store.ensureClass name).names
        implied := (store.ensureClass name).implied } := by
  unfold ensureClass
  split
  · rfl
  · dsimp only
    rw [mapClass_eq_with]

/-- Without implied classes, none come. -/
theorem implied_apply {store : Store} (himplied : store.implied = []) {insertion : Insertion}
    (h : insertion.IsExplicit) : (insertion.apply store).implied = [] := by
  cases insertion with
  | mapClass name mapping =>
    rw [Insertion.apply, mapClass_eq himplied]
    split <;> exact himplied
  | ensureClass name => exact h.elim
  | mapField className row =>
    rw [Insertion.apply, mapField_eq_with]
    exact himplied
  | mapMethod className row =>
    rw [Insertion.apply, mapMethod_eq_with]
    exact himplied
  | completeDescriptors => exact himplied

/-! ## Rows -/

/-- Whether the rows of a store are for different members and no class has an empty table of rows. -/
structure Tabled (store : Store) : Prop where
  distinct : DistinctMembers store
  fields : ∀ entry ∈ store.fields.entries, entry.2 ≠ []
  methods : ∀ entry ∈ store.methods.entries, entry.2 ≠ []

theorem tabled_empty (direction : Direction) : Tabled (.empty direction) where
  distinct := .empty direction
  fields entry h := by cases h
  methods entry h := by cases h

theorem Tabled.congr {store other : Store} (h : store.Tabled) (hfields : other.fields = store.fields)
    (hmethods : other.methods = store.methods) : other.Tabled where
  distinct := by
    constructor
    · intro className
      rw [classFields, hfields]
      exact h.distinct.fields className
    · intro className
      rw [classMethods, hmethods]
      exact h.distinct.methods className
  fields := hfields ▸ h.fields
  methods := hmethods ▸ h.methods

theorem tabled_apply {store : Store} (h : store.Tabled) (insertion : Insertion) :
    (insertion.apply store).Tabled := by
  cases insertion with
  | mapClass name mapping =>
    rw [Insertion.apply, mapClass_eq_with]
    exact h.congr rfl rfl
  | ensureClass name =>
    rw [Insertion.apply, ensureClass_eq_with]
    exact h.congr rfl rfl
  | mapField className row =>
    refine ⟨h.distinct.mapField className row, ?_, ?_⟩
    · rw [Insertion.apply, Store.mapField]
      split
      · exact h.fields
      · exact Table.forall_mem_insert (P := (· ≠ [])) h.fields (by simp)
    · rw [Insertion.apply, mapField_eq_with]
      exact h.methods
  | mapMethod className row =>
    refine ⟨h.distinct.mapMethod className row, ?_, ?_⟩
    · rw [Insertion.apply, mapMethod_eq_with]
      exact h.fields
    · rw [Insertion.apply, Store.mapMethod]
      split
      · exact h.methods
      · exact Table.forall_mem_insert (P := (· ≠ [])) h.methods (by simp)
  | completeDescriptors =>
    refine ⟨h.distinct.completeDescriptors, ?_, ?_⟩
    · intro entry hentry
      obtain ⟨old, hold, rfl⟩ := List.mem_map.1 hentry
      simpa using h.fields old hold
    · intro entry hentry
      obtain ⟨old, hold, rfl⟩ := List.mem_map.1 hentry
      simpa using h.methods old hold

theorem tabled_made (direction : Direction) (insertions : List Insertion) :
    (made direction insertions).Tabled :=
  made_induction (tabled_empty direction) insertions fun _ hstore insertion _ =>
    tabled_apply hstore insertion

end Store
end JvmArchive.Mapping
