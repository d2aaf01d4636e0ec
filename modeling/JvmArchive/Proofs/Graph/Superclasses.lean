import JvmArchive.Graph.Basic
import JvmArchive.Graph.Hierarchy
import JvmArchive.Proofs.Flow.Weights
import JvmArchive.Proofs.Table
import Mathlib.Data.Finset.Card
import Mathlib.Logic.Relation

/-!
# Superclasses in a graph

The superclass chain of a class holds exactly the classes that superclass names lead to, so a common
superclass is above both classes. Where no two classes are above each other, going up comes to an end.
-/
namespace JvmArchive.ClassGraph

/-- The superclass name of a class in a graph. -/
def superName? (graph : ClassGraph) (name : String) : Option String :=
  (graph.get? name).bind (·.node.superName)

/-- Whether one name is that of the superclass of another. -/
def IsBelow (graph : ClassGraph) (below above : String) : Prop :=
  graph.superName? below = some above

/-- Whether superclass names lead from one name to another, in any number of steps. -/
def Reaches (graph : ClassGraph) : String → String → Prop := Relation.ReflTransGen graph.IsBelow

/-- Whether a graph has a class of a name that is no interface. -/
def hasClass (graph : ClassGraph) (name : String) : Bool :=
  (graph.get? name).any fun entry => !entry.access.isInterface

/-- Whether two different classes are above each other. -/
def Twined (graph : ClassGraph) : Prop :=
  ∃ x y, x ≠ y ∧ graph.hasClass x = true ∧ graph.hasClass y = true ∧ graph.Reaches x y ∧
    graph.Reaches y x

variable {graph : ClassGraph}

/-! ## Superclass chains -/

theorem superNamesFrom_succ (graph : ClassGraph) (visited : List String) (room : Nat) (name : String) :
    graph.superNamesFrom visited (room + 1) name =
      match graph.superName? name with
      | none => []
      | some above =>
        if visited.contains above then []
        else above :: graph.superNamesFrom (above :: visited) room above := rfl

/-- A chain leads upwards. -/
theorem reaches_of_mem_superNamesFrom {visited : List String} {room : Nat} {name above : String}
    (h : above ∈ graph.superNamesFrom visited room name) : graph.Reaches name above := by
  induction room generalizing visited name with
  | zero => simp [superNamesFrom] at h
  | succ room ih =>
    rw [superNamesFrom_succ] at h
    split at h
    · simp at h
    · rename_i next hnext
      split at h
      · simp at h
      · rcases List.mem_cons.1 h with rfl | hrest
        · exact .single hnext
        · exact .head hnext (ih hrest)

theorem length_superNamesFrom_le (graph : ClassGraph) (visited : List String) (room : Nat)
    (name : String) : (graph.superNamesFrom visited room name).length ≤ room := by
  induction room generalizing visited name with
  | zero => simp [superNamesFrom]
  | succ room ih =>
    rw [superNamesFrom_succ]
    split
    · simp
    · split
      · simp
      · exact Nat.succ_le_succ (ih _ _)

/-- How many names of a graph a walk has not visited. -/
def unvisitedNames (graph : ClassGraph) (visited : List String) : Nat :=
  graph.names.countP fun name => !visited.contains name

theorem mem_names_of_superName? {name above : String} (h : graph.superName? name = some above) :
    name ∈ graph.names := by
  obtain ⟨entry, hentry, -⟩ := Option.bind_eq_some_iff.1 h
  exact List.mem_map.2 ⟨(name, entry), Table.mem_entries_of_get? hentry, rfl⟩

theorem unvisitedNames_cons_lt {visited : List String} {name : String} (hname : name ∈ graph.names)
    (hnew : visited.contains name = false) :
    graph.unvisitedNames (name :: visited) < graph.unvisitedNames visited := by
  refine countP_lt_countP_of_mem hname (fun other hother => ?_) ?_ ?_
  · simp only [List.contains_cons, Bool.not_or, Bool.and_eq_true] at hother
    exact hother.2
  · rw [hnew]
    rfl
  · simp

/-- Whether a chain has room for all the names that it has not visited, or comes to its end. -/
def HasRoom (graph : ClassGraph) (visited : List String) (room : Nat) (name : String) : Prop :=
  graph.unvisitedNames visited < room ∨ graph.superName? name = none

theorem HasRoom.next {visited : List String} {room : Nat} {name next : String}
    (h : graph.HasRoom visited (room + 1) name) (hstep : graph.IsBelow name next)
    (hnew : next ∉ visited) : graph.HasRoom (next :: visited) room next := by
  cases hnext : graph.superName? next with
  | none => exact .inr hnext
  | some upper =>
    have hfewer : graph.unvisitedNames (next :: visited) < graph.unvisitedNames visited :=
      unvisitedNames_cons_lt (mem_names_of_superName? hnext) (by simpa using hnew)
    have hleft := h.resolve_right (by simp [show graph.superName? name = some next from hstep])
    exact .inl (by omega)

/-- As many names as there are classes are room for every chain. -/
theorem hasRoom_size (graph : ClassGraph) (name : String) : graph.HasRoom [name] graph.size name := by
  cases hsuper : graph.superName? name with
  | none => exact .inr hsuper
  | some upper =>
    have hfewer : graph.unvisitedNames [name] < graph.unvisitedNames [] :=
      unvisitedNames_cons_lt (mem_names_of_superName? hsuper) rfl
    have hall : graph.unvisitedNames [] ≤ graph.size := by
      refine List.countP_le_length.trans (Nat.le_of_eq ?_)
      simp [names, Table.keys, size, Table.length]
    exact .inl (by omega)

/-- While there is room for every name that has not been visited, a chain goes on until it comes to a
class without a superclass or to one that it has visited. -/
theorem mem_superNamesFrom_of_isBelow {visited : List String} {room : Nat} {name below above : String}
    (hroom : graph.HasRoom visited room name)
    (hbelow : below ∈ name :: graph.superNamesFrom visited room name)
    (h : graph.IsBelow below above) :
    above ∈ graph.superNamesFrom visited room name ∨ above ∈ visited := by
  induction room generalizing visited name with
  | zero =>
    have hnone := hroom.resolve_left (Nat.not_lt_zero _)
    obtain rfl : below = name := by simpa [superNamesFrom] using hbelow
    rw [IsBelow, hnone] at h
    cases h
  | succ room ih =>
    rw [superNamesFrom_succ] at hbelow ⊢
    cases hsuper : graph.superName? name with
    | none =>
      obtain rfl : below = name := by simpa [hsuper] using hbelow
      rw [IsBelow, hsuper] at h
      cases h
    | some next =>
      rw [hsuper] at hbelow
      dsimp only at hbelow ⊢
      split at hbelow
      · rename_i hvisited
        obtain rfl : below = name := by simpa using hbelow
        rw [IsBelow, hsuper, Option.some.injEq] at h
        subst h
        exact .inr (by simpa using hvisited)
      · rename_i hnew
        rw [if_neg hnew]
        rcases List.mem_cons.1 hbelow with rfl | hrest
        · rw [IsBelow, hsuper, Option.some.injEq] at h
          exact .inl (h ▸ List.mem_cons_self)
        · rcases ih (hroom.next hsuper (by simpa using hnew)) hrest with hmem | hmem
          · exact .inl (List.mem_cons_of_mem _ hmem)
          · rcases List.mem_cons.1 hmem with rfl | hvisited
            · exact .inl List.mem_cons_self
            · exact .inr hvisited

/-- The superclass chain of a class holds what superclass names lead to. -/
theorem mem_superclassChain_iff {name above : String} :
    above ∈ graph.superclassChain name ↔ graph.Reaches name above := by
  constructor
  · intro h
    rcases List.mem_cons.1 h with rfl | hrest
    · exact .refl
    · exact reaches_of_mem_superNamesFrom hrest
  · intro h
    induction h with
    | refl => exact List.mem_cons_self
    | tail _ hstep ih =>
      rcases mem_superNamesFrom_of_isBelow (graph.hasRoom_size name) ih hstep with hmem | hmem
      · exact List.mem_cons_of_mem _ hmem
      · rw [List.mem_singleton.1 hmem]
        exact List.mem_cons_self

theorem hasClass_iff {name : String} : graph.hasClass name = true ↔
    ∃ entry, graph.get? name = some entry ∧ entry.access.isInterface = false := by
  simp [hasClass, Option.any_eq_true]

theorem mem_names_of_hasClass {name : String} (h : graph.hasClass name = true) :
    name ∈ graph.names := by
  obtain ⟨entry, hentry, -⟩ := hasClass_iff.1 h
  exact List.mem_map.2 ⟨(name, entry), Table.mem_entries_of_get? hentry, rfl⟩

instance (graph : ClassGraph) : Decidable graph.Twined :=
  decidable_of_iff
    (∃ x ∈ graph.names, ∃ y ∈ graph.names, x ≠ y ∧ graph.hasClass x = true ∧
      graph.hasClass y = true ∧ y ∈ graph.superclassChain x ∧ x ∈ graph.superclassChain y) <| by
    simp only [mem_superclassChain_iff]
    constructor
    · rintro ⟨x, -, y, -, h⟩
      exact ⟨x, y, h⟩
    · rintro ⟨x, y, hne, hx, hy, h⟩
      exact ⟨x, mem_names_of_hasClass hx, y, mem_names_of_hasClass hy, hne, hx, hy, h⟩

/-! ## Common superclasses -/

/-- The common superclass of two classes is the first of them, the root, or a class above both, if neither
of them is an interface. -/
theorem commonSuper_cases (graph : ClassGraph) (a b : String) :
    graph.commonSuper a b = a ∨ graph.commonSuper a b = Flow.rootClass ∨
      graph.hasClass a = true ∧ graph.hasClass b = true ∧
        graph.Reaches a (graph.commonSuper a b) ∧ graph.Reaches b (graph.commonSuper a b) := by
  unfold commonSuper
  split
  · exact .inl rfl
  · split
    · rename_i first second hfirst hsecond
      split
      · exact .inr (.inl rfl)
      · rename_i hneither
        rw [Bool.or_eq_true, not_or, Bool.not_eq_true, Bool.not_eq_true] at hneither
        dsimp only
        cases hfound : (graph.superclassChain b).find? (graph.superclassChain a).contains with
        | none => exact .inr (.inl rfl)
        | some common =>
          refine .inr (.inr ⟨hasClass_iff.2 ⟨first, hfirst, hneither.1⟩,
            hasClass_iff.2 ⟨second, hsecond, hneither.2⟩, mem_superclassChain_iff.1 ?_,
            mem_superclassChain_iff.1 (List.mem_of_find?_eq_some hfound)⟩)
          simpa using List.find?_some hfound
    · exact .inl rfl

/-- The common superclass of two classes is the first name of the second chain that is on the first. -/
theorem commonSuper_eq {a b : String} (hne : a ≠ b) (ha : graph.hasClass a = true)
    (hb : graph.hasClass b = true) :
    graph.commonSuper a b =
      ((graph.superclassChain b).find? (graph.superclassChain a).contains).getD Flow.rootClass := by
  obtain ⟨first, hfirst, hopen⟩ := hasClass_iff.1 ha
  obtain ⟨second, hsecond, hopen'⟩ := hasClass_iff.1 hb
  simp [commonSuper, hne, hfirst, hsecond, hopen, hopen']

/-- A class above another one is the common superclass of the other one and it. -/
theorem commonSuper_of_reaches {a b : String} (ha : graph.hasClass a = true)
    (hb : graph.hasClass b = true) (h : graph.Reaches a b) : graph.commonSuper a b = b := by
  by_cases hsame : a = b
  · simp [commonSuper, hsame]
  · have hmem : (graph.superclassChain a).contains b = true :=
      List.contains_iff_mem.2 (mem_superclassChain_iff.2 h)
    rw [commonSuper_eq hsame ha hb, superclassChain.eq_def graph b, List.find?_cons_of_pos hmem]
    rfl

/-! ## Ranks -/

/-- The classes above a class. -/
def classesAbove (graph : ClassGraph) (name : String) : Finset String :=
  (graph.superclassChain name).toFinset.filter fun above =>
    above ≠ name ∧ graph.hasClass above = true

/-- The number of classes above a class. Interfaces and classes outside the graph come right below the
root. -/
def rank (graph : ClassGraph) (name : String) : Nat :=
  if name = Flow.rootClass then 0
  else if graph.hasClass name then (graph.classesAbove name).card + 2
  else 1

theorem mem_classesAbove {name above : String} :
    above ∈ graph.classesAbove name ↔
      graph.Reaches name above ∧ above ≠ name ∧ graph.hasClass above = true := by
  rw [classesAbove, Finset.mem_filter, List.mem_toFinset, mem_superclassChain_iff]

theorem rank_le (graph : ClassGraph) (name : String) : graph.rank name ≤ graph.size + 3 := by
  have hcard : (graph.classesAbove name).card ≤ graph.size + 1 := by
    refine (Finset.card_filter_le _ _).trans ((List.toFinset_card_le _).trans ?_)
    exact Nat.succ_le_succ (length_superNamesFrom_le graph _ _ _)
  unfold rank
  split
  · omega
  · split <;> omega

/-- While no two classes are above each other, fewer classes are above what is above. -/
theorem classesAbove_ssubset (h : ¬graph.Twined) {name above : String}
    (hname : graph.hasClass name = true) (habove : graph.hasClass above = true)
    (hreaches : graph.Reaches name above) (hne : above ≠ name) :
    graph.classesAbove above ⊂ graph.classesAbove name := by
  have hback : ¬graph.Reaches above name := fun hback =>
    h ⟨name, above, hne.symm, hname, habove, hreaches, hback⟩
  refine Finset.ssubset_iff_subset_ne.2 ⟨fun other hother => ?_, fun hsame => ?_⟩
  · rw [mem_classesAbove] at hother ⊢
    refine ⟨hreaches.trans hother.1, ?_, hother.2.2⟩
    rintro rfl
    exact hback hother.1
  · have hself : above ∈ graph.classesAbove above := by
      rw [hsame, mem_classesAbove]
      exact ⟨hreaches, hne, habove⟩
    exact (mem_classesAbove.1 hself).2.1 rfl

/-- Nothing is above a root without a superclass. -/
theorem commonSuper_root (hroot : graph.superName? Flow.rootClass = none) (name : String) :
    graph.commonSuper Flow.rootClass name = Flow.rootClass := by
  rcases graph.commonSuper_cases Flow.rootClass name with hsame | hsame | ⟨-, -, hreaches, -⟩
  · exact hsame
  · exact hsame
  · rcases hreaches.cases_head with hsame | ⟨next, hnext, -⟩
    · exact hsame.symm
    · rw [IsBelow, hroot] at hnext
      cases hnext

/-- While no two classes are above each other and the root has no superclass, common superclasses climb. -/
theorem climbs_commonSuper (h : ¬graph.Twined) (hroot : graph.superName? Flow.rootClass = none) :
    Flow.Climbs graph.commonSuper graph.rank (graph.size + 3) where
  bounded := graph.rank_le
  root := commonSuper_root hroot
  climbs a b hne := by
    have ha : a ≠ Flow.rootClass := by
      rintro rfl
      exact hne (commonSuper_root hroot b)
    by_cases htop : graph.commonSuper a b = Flow.rootClass
    · rw [htop, rank, if_pos rfl, rank, if_neg ha]
      split <;> omega
    · rcases graph.commonSuper_cases a b with hsame | hsame | ⟨hclass, -, hreaches, -⟩
      · exact absurd hsame hne
      · exact absurd hsame htop
      · rw [rank, if_neg htop, rank, if_neg ha, if_pos hclass]
        split
        · rename_i hcommon
          have hfewer := Finset.card_lt_card (classesAbove_ssubset h hclass hcommon hreaches hne)
          omega
        · omega

end JvmArchive.ClassGraph
