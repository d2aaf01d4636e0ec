import JvmArchive.Graph.Entry
import JvmArchive.Table

/-!
# Class graphs

The classes of one archive in order, each under a name. A class keeps its position while others come
behind it; whatever moves classes or renames them leaves the links stale until the graph is resolved
again.
-/
namespace JvmArchive

/-- The classes of an archive. -/
structure ClassGraph where
  classes : Table String ClassEntry := .empty
  /-- Whether the links fit the classes. -/
  resolved : Bool := false
  deriving Repr, Inhabited

namespace ClassGraph

/-- The classes in order. -/
def toList (graph : ClassGraph) : List ClassEntry := graph.classes.values

def size (graph : ClassGraph) : Nat := graph.classes.length

/-- The names under which the classes stand. -/
def names (graph : ClassGraph) : List String := graph.classes.keys

def get? (graph : ClassGraph) (name : String) : Option ClassEntry := graph.classes.get? name

def contains (graph : ClassGraph) (name : String) : Bool := graph.classes.contains name

/-- The class at a position. -/
def at? (graph : ClassGraph) (id : ClassId) : Option ClassEntry :=
  (graph.classes.entries[id.index]?).map (·.2)

/-- The name under which the class at a position stands. -/
def nameOf? (graph : ClassGraph) (id : ClassId) : Option String :=
  (graph.classes.entries[id.index]?).map (·.1)

/-- The position of the class under a name. -/
def idOf? (graph : ClassGraph) (name : String) : Option ClassId :=
  (graph.classes.indexOf? name).map .mk

/-- Every class with its position. -/
def enumerate (graph : ClassGraph) : List (ClassId × ClassEntry) :=
  graph.toList.zipIdx.map fun (entry, index) => (⟨index⟩, entry)

/-- Says that the links are stale. -/
def invalidate (graph : ClassGraph) : ClassGraph := { graph with resolved := false }

/-- Puts a class under its own name, in the place of a class that stands there already. -/
def insert (graph : ClassGraph) (entry : ClassEntry) : ClassGraph :=
  { classes := graph.classes.insert entry.name entry, resolved := false }

/-- Takes the class under a name out; the classes behind it move up. -/
def erase (graph : ClassGraph) (name : String) : ClassGraph :=
  { classes := graph.classes.erase name, resolved := false }

/-- A graph of classes in the given order, each under its own name. Of two classes with one name the
first gives the place and the last stays. -/
def ofList (entries : List ClassEntry) : ClassGraph :=
  { classes := Table.ofList (entries.map fun entry => (entry.name, entry)), resolved := false }

/-- Puts every class under the name that it has by now. -/
def reindex (graph : ClassGraph) : ClassGraph := ofList graph.toList

/-- Changes the class under a name, if there is one. It keeps its place even if it is renamed, and
the links are not touched. -/
def update (graph : ClassGraph) (name : String) (f : ClassEntry → ClassEntry) : ClassGraph :=
  { graph with classes := graph.classes.update name f }

/-- Changes every class in its place. -/
def map (f : ClassEntry → ClassEntry) (graph : ClassGraph) : ClassGraph :=
  { graph with classes := graph.classes.map fun _ entry => f entry }

/-!
## Walks

The number of positions that a walk has not visited bounds it: visiting one more makes it smaller.
-/

/-- Where one predicate implies another and some member has the second only, fewer members have the
first. -/
theorem countP_lt_countP_of_mem {α : Type} {p q : α → Bool} {items : List α} {x : α}
    (hx : x ∈ items) (hpq : ∀ y, p y = true → q y = true) (hq : q x = true) (hp : p x = false) :
    items.countP p < items.countP q := by
  induction items with
  | nil => simp at hx
  | cons y rest ih =>
    have hle : rest.countP p ≤ rest.countP q := List.countP_mono_left fun z _ => hpq z
    rcases List.mem_cons.1 hx with rfl | hr
    · simp only [List.countP_cons, hp, hq, Bool.false_eq_true, if_false, if_true]
      omega
    · have hlt := ih hr
      by_cases hy : p y = true
      · simp only [List.countP_cons, hy, hpq y hy, if_true]
        omega
      · rw [List.countP_cons, List.countP_cons, if_neg hy]
        omega

/-- How many of the first positions a walk has not visited. -/
def unvisited (size : Nat) (visited : List ClassId) : Nat :=
  (List.range size).countP fun index => !visited.contains ⟨index⟩

theorem unvisited_cons_lt {size : Nat} {visited : List ClassId} {id : ClassId}
    (h : id.index < size) (hv : visited.contains id = false) :
    unvisited size (id :: visited) < unvisited size visited := by
  refine countP_lt_countP_of_mem (List.mem_range.2 h) (fun index hi => ?_) ?_ ?_
  · simp only [List.contains_cons, Bool.not_or, Bool.and_eq_true] at hi
    exact hi.2
  · show (!visited.contains id) = true
    rw [hv]
    rfl
  · simp

end ClassGraph
end JvmArchive
