/-!
# Tables in order of insertion

Finite maps whose keys come in the order in which they were first given a value. Giving a key another
value leaves it where it stands.
-/
namespace JvmArchive

/-- A finite map with its keys in order of insertion. -/
structure Table (κ α : Type) where
  entries : List (κ × α)
  nodup_keys : (entries.map (·.1)).Nodup
  deriving Repr

namespace Table

variable {κ α β : Type}

/-- The table without keys. -/
def empty : Table κ α where
  entries := []
  nodup_keys := List.nodup_nil

instance : Inhabited (Table κ α) := ⟨empty⟩

instance [DecidableEq κ] [DecidableEq α] : DecidableEq (Table κ α) := fun a b =>
  decidable_of_iff (a.entries = b.entries) ⟨fun h => by cases a; cases b; simp_all, fun h => h ▸ rfl⟩

/-- Entries in which a key has a value: in its place if it has one, else at the end. -/
def insertEntry [DecidableEq κ] (key : κ) (value : α) : List (κ × α) → List (κ × α)
  | [] => [(key, value)]
  | (k, v) :: rest => if k = key then (k, value) :: rest else (k, v) :: insertEntry key value rest

/-- The keys after an insertion: the same ones, or the new one behind them. -/
theorem map_fst_insertEntry [DecidableEq κ] (key : κ) (value : α) (entries : List (κ × α)) :
    (insertEntry key value entries).map (·.1) =
      if key ∈ entries.map (·.1) then entries.map (·.1) else entries.map (·.1) ++ [key] := by
  induction entries with
  | nil => simp [insertEntry]
  | cons entry rest ih =>
    obtain ⟨k, v⟩ := entry
    by_cases h : k = key
    · simp [insertEntry, h]
    · have h' : key ≠ k := fun e => h e.symm
      simp only [insertEntry, if_neg h, List.map_cons, ih, List.mem_cons, h', false_or]
      split <;> simp

theorem nodup_insertEntry [DecidableEq κ] (key : κ) (value : α) {entries : List (κ × α)}
    (h : (entries.map (·.1)).Nodup) : ((insertEntry key value entries).map (·.1)).Nodup := by
  rw [map_fst_insertEntry]
  split
  · exact h
  · next hk =>
    rw [List.nodup_append]
    refine ⟨h, by simp, ?_⟩
    intro a ha b hb hab
    simp only [List.mem_singleton] at hb
    exact hk (hb ▸ hab ▸ ha)

def keys (table : Table κ α) : List κ := table.entries.map (·.1)

def values (table : Table κ α) : List α := table.entries.map (·.2)

def length (table : Table κ α) : Nat := table.entries.length

def isEmpty (table : Table κ α) : Bool := table.entries.isEmpty

section
variable [DecidableEq κ]

/-- The value of a key. -/
def get? (table : Table κ α) (key : κ) : Option α :=
  (table.entries.find? (·.1 = key)).map (·.2)

def contains (table : Table κ α) (key : κ) : Bool := table.entries.any (·.1 = key)

/-- The position of a key. -/
def indexOf? (table : Table κ α) (key : κ) : Option Nat := table.entries.findIdx? (·.1 = key)

/-- Gives a key a value. -/
def insert (table : Table κ α) (key : κ) (value : α) : Table κ α where
  entries := insertEntry key value table.entries
  nodup_keys := nodup_insertEntry key value table.nodup_keys

/-- Gives a key a value unless it has one. -/
def insertIfNew (table : Table κ α) (key : κ) (value : α) : Table κ α :=
  if table.contains key then table else table.insert key value

/-- Takes a key out and closes the gap. -/
def erase (table : Table κ α) (key : κ) : Table κ α where
  entries := table.entries.filter (·.1 ≠ key)
  nodup_keys := (List.filter_sublist.map _).nodup table.nodup_keys

/-- The table that pairs give one after the other: of equal keys the first gives the place and the
last the value. -/
def ofList (pairs : List (κ × α)) : Table κ α :=
  pairs.foldl (fun table pair => table.insert pair.1 pair.2) empty

/-- The table that pairs give one after the other when a key keeps its first value. -/
def firsts (pairs : List (κ × α)) : Table κ α :=
  pairs.foldl (fun table pair => table.insertIfNew pair.1 pair.2) empty

/-- Exchanges every value for one computed from it and its key. -/
def map (f : κ → α → β) (table : Table κ α) : Table κ β where
  entries := table.entries.map fun entry => (entry.1, f entry.1 entry.2)
  nodup_keys := by
    simpa [List.map_map, Function.comp_def] using table.nodup_keys

/-- Changes the value of a key, if it has one. -/
def update (table : Table κ α) (key : κ) (f : α → α) : Table κ α :=
  table.map fun k value => if k = key then f value else value

/-- Whether two tables give the same keys the same values, in whatever order. -/
def same [BEq α] (a b : Table κ α) : Bool :=
  a.length == b.length && a.entries.all fun entry => b.get? entry.1 == some entry.2

end

end Table
end JvmArchive
