import JvmArchive.Proofs.Mapping.Fields
import Mathlib.Logic.Relation

/-!
# The order in which classes are named

Every class of a resolved graph comes once, behind the class that it lies in. A class with an outer class
is an inner class, whoever says so, and lies deeper than its outer class: where classes do not lie in
each other in a circle, the walk outwards meets each class once and is not cut off.
-/
namespace JvmArchive

namespace ClassGraph

/-- Whether one class lies right inside another. -/
def LiesIn (graph : ClassGraph) (inner outer : ClassId) : Prop :=
  (graph.at? inner).bind (·.outer) = some outer

/-- Whether no class lies inside itself, at any depth. -/
def ProperlyNested (graph : ClassGraph) : Prop := ∀ id, ¬Relation.TransGen graph.LiesIn id id

variable {graph : ClassGraph}

/-- A rank that goes down outwards shows that no class lies inside itself. -/
theorem ProperlyNested.of_rank (rank : ClassId → Nat)
    (h : ∀ place ∈ graph.enumerate, ∀ outer ∈ place.2.outer, rank outer < rank place.1) :
    graph.ProperlyNested := by
  have hstep : ∀ inner outer, graph.LiesIn inner outer → rank outer < rank inner := by
    intro inner outer hlies
    obtain ⟨entry, hentry, houter⟩ := Option.bind_eq_some_iff.1 hlies
    exact h (inner, entry) (Mapping.mem_enumerate_of_at? hentry) outer houter
  intro id hloop
  have hlt : ∀ outer, Relation.TransGen graph.LiesIn id outer → rank outer < rank id := by
    intro outer hpath
    induction hpath with
    | single hlies => exact hstep _ _ hlies
    | tail _ hlies ih => exact (hstep _ _ hlies).trans ih
  exact absurd (hlt id hloop) (Nat.lt_irrefl _)

/-! ## Outer classes -/

theorem lookUp_lt {entries : List ClassEntry} {name : String} {id : ClassId}
    (h : lookUp entries name = some id) : id.index < entries.length := by
  obtain ⟨last, hlast, rfl⟩ := Option.map_eq_some_iff.1 h
  obtain ⟨index, hindex, rfl⟩ := Option.map_eq_some_iff.1 hlast
  have hlt := (List.findIdx?_eq_some_iff_getElem.1 hindex).1
  rw [List.length_reverse] at hlt
  show entries.length - 1 - index < entries.length
  omega

theorem isInner_of_mem_marked {entries : List ClassEntry} {entry : ClassEntry}
    (h : entry ∈ marked entries) (houter : entry.outer.isSome = true) : entry.isInner = true := by
  obtain ⟨⟨linked, index⟩, -, rfl⟩ := List.mem_map.1 h
  exact Bool.or_eq_true_iff.2 (.inl houter)

/-- The outer class of a linked class is in the graph, and the class is an inner class. -/
theorem outer_linkAll {entries : List ClassEntry} {index : Nat} {entry : ClassEntry} {outer : ClassId}
    (h : (linkAll entries)[index]? = some entry) (houter : entry.outer = some outer) :
    outer.index < entries.length ∧ entry.isInner = true := by
  rw [linkAll_eq, getElem?_buildHierarchy] at h
  obtain ⟨above, habove, rfl⟩ := Option.map_eq_some_iff.1 h
  have hinner : above.isInner = true :=
    isInner_of_mem_marked (List.mem_of_getElem? habove) (Option.isSome_iff_exists.2 ⟨outer, houter⟩)
  refine ⟨?_, hinner⟩
  obtain ⟨isInner, hmarked⟩ := getElem?_marked entries index
  rw [hmarked] at habove
  obtain ⟨declared, -, rfl⟩ := Option.map_eq_some_iff.1 habove
  obtain ⟨name, -, hname⟩ := Option.bind_eq_some_iff.1 houter
  exact lookUp_lt hname

theorem outer_resolve {id outer : ClassId} {entry : ClassEntry}
    (h : graph.resolve.at? id = some entry) (houter : entry.outer = some outer) :
    outer.index < graph.resolve.toList.length ∧ entry.isInner = true := by
  rw [at?_eq_getElem?, toList_resolve] at h
  rw [toList_resolve, length_linkAll]
  exact outer_linkAll h houter

end ClassGraph

namespace Mapping

open ClassGraph

variable {graph : ClassGraph}

/-! ## Depths -/

theorem depthAround_some (room : Nat) (outer : ClassId) :
    depthAround graph (room + 1) (some outer) =
      depthAround graph room ((graph.at? outer).bind (·.outer)) + 1 := rfl

/-- A walk outwards that ends within its room is not changed by more room. -/
theorem depthAround_succ {room : Nat} {start : Option ClassId}
    (h : depthAround graph room start ≤ room) :
    depthAround graph (room + 1) start = depthAround graph room start := by
  induction room generalizing start with
  | zero =>
    cases start with
    | none => rfl
    | some outer => cases h
  | succ room ih =>
    cases start with
    | none => rfl
    | some outer =>
      rw [depthAround_some] at h
      rw [depthAround_some, ih (Nat.le_of_succ_le_succ h), depthAround_some]

/-- A walk outwards together with the classes inside its start meets no class twice, so it is no longer
than there are other classes. -/
theorem depthAround_add_length_le (hnested : graph.ProperlyNested)
    (hrange : ∀ inner outer, graph.LiesIn inner outer → outer.index < graph.toList.length)
    (room : Nat) (start : Option ClassId) {inside : List ClassId}
    (hnodup : inside.Nodup) (hinside : ∀ id ∈ inside, id.index < graph.toList.length)
    (hstart : ∀ outer ∈ start, outer.index < graph.toList.length ∧
      ∀ id ∈ inside, Relation.TransGen graph.LiesIn id outer) :
    depthAround graph room start + inside.length ≤ graph.toList.length := by
  induction room generalizing inside start with
  | zero =>
    cases start with
    | none => simpa [depthAround] using ClassId.length_le_of_nodup hnodup hinside
    | some outer =>
      obtain ⟨hlt, hpath⟩ := hstart outer rfl
      have hnew : outer ∉ inside := fun hmem => hnested outer (hpath outer hmem)
      have hle := ClassId.length_le_of_nodup (List.nodup_cons.2 ⟨hnew, hnodup⟩)
        (List.forall_mem_cons.2 ⟨hlt, hinside⟩)
      rw [List.length_cons] at hle
      rw [depthAround]
      omega
  | succ room ih =>
    cases start with
    | none => simpa [depthAround] using ClassId.length_le_of_nodup hnodup hinside
    | some outer =>
      obtain ⟨hlt, hpath⟩ := hstart outer rfl
      have hnew : outer ∉ inside := fun hmem => hnested outer (hpath outer hmem)
      have hle := ih _ (List.nodup_cons.2 ⟨hnew, hnodup⟩) (List.forall_mem_cons.2 ⟨hlt, hinside⟩)
        fun next hnext => ⟨hrange outer next hnext, List.forall_mem_cons.2
          ⟨.single hnext, fun id hid => (hpath id hid).tail hnext⟩⟩
      rw [List.length_cons] at hle
      rw [depthAround_some]
      omega

/-- A class lies deeper than its outer class. -/
theorem nestingDepth_lt (hnested : graph.resolve.ProperlyNested) {inner outer : ClassId × ClassEntry}
    (hinner : inner ∈ graph.resolve.enumerate) (houter : outer ∈ graph.resolve.enumerate)
    (hlink : inner.2.outer = some outer.1) :
    nestingDepth graph.resolve outer.2 < nestingDepth graph.resolve inner.2 := by
  have hat : (graph.resolve.at? outer.1).bind (·.outer) = outer.2.outer := by
    rw [at?_of_mem_enumerate houter, Option.bind_some]
  have hrange : ∀ inner outer, graph.resolve.LiesIn inner outer →
      outer.index < graph.resolve.toList.length := by
    intro inner outer h
    obtain ⟨entry, hentry, h⟩ := Option.bind_eq_some_iff.1 h
    exact (outer_resolve hentry h).1
  have hlt : outer.1.index < graph.resolve.toList.length :=
    (outer_resolve (at?_of_mem_enumerate hinner) hlink).1
  obtain ⟨room, hroom⟩ : ∃ room, graph.resolve.toList.length = room + 1 :=
    ⟨graph.resolve.toList.length - 1, by omega⟩
  have hfits := depthAround_add_length_le hnested hrange room outer.2.outer
    (List.nodup_singleton outer.1) (by simpa using hlt) fun next hnext => by
      have hstep : graph.resolve.LiesIn outer.1 next := hat.trans hnext
      exact ⟨hrange _ _ hstep, by simpa using .single hstep⟩
  have hsize : graph.resolve.size = room + 1 := by
    rw [← hroom, size, toList, Table.values, Table.length, List.length_map]
  rw [nestingDepth, nestingDepth, hsize, hlink, depthAround_some, hat,
    depthAround_succ (by simpa [hroom] using hfits)]
  exact Nat.lt_succ_self _

/-! ## The order -/

theorem classOrder_perm (graph : ClassGraph) : (classOrder graph).Perm graph.enumerate := by
  unfold classOrder
  simp only [List.partition_eq_filter_filter]
  refine (List.perm_append_comm.trans ?_).trans
    (List.filter_append_perm (fun place : ClassId × ClassEntry => place.2.isInner) _)
  exact (List.mergeSort_perm _ _).append (.refl _)

/-- No class stands before its outer class. -/
theorem pairwise_classOrder (hnested : graph.resolve.ProperlyNested) :
    (classOrder graph.resolve).Pairwise fun a b => a.2.outer ≠ some b.1 := by
  have hflat : ∀ a ∈ graph.resolve.enumerate, a.2.isInner = false → ∀ b : ClassId × ClassEntry,
      a.2.outer ≠ some b.1 := by
    intro a ha hinner b hlink
    rw [(outer_resolve (at?_of_mem_enumerate ha) hlink).2] at hinner
    cases hinner
  unfold classOrder
  simp only [List.partition_eq_filter_filter]
  refine List.pairwise_append.2 ⟨?_, ?_, ?_⟩
  · refine List.pairwise_of_forall_mem_list fun a ha b _ => ?_
    obtain ⟨ha, hinner⟩ := List.mem_filter.1 ha
    exact hflat a ha (by simpa using hinner) b
  · refine List.Pairwise.imp_of_mem ?_ (List.pairwise_mergeSort ?_ ?_ _)
    · intro a b ha hb hle hlink
      rw [List.mem_mergeSort, List.mem_filter] at ha hb
      have hlt := nestingDepth_lt hnested ha.1 hb.1 hlink
      rw [decide_eq_true_eq] at hle
      omega
    · intro a b c hab hbc
      rw [decide_eq_true_eq] at hab hbc ⊢
      exact hab.trans hbc
    · intro a b
      rw [Bool.or_eq_true, decide_eq_true_eq, decide_eq_true_eq]
      exact Nat.le_total _ _
  · intro a ha b _
    obtain ⟨ha, hinner⟩ := List.mem_filter.1 ha
    exact hflat a ha (by simpa using hinner) b

/-- The outer class of a class stands before it. -/
theorem outer_mem_before (hnested : graph.resolve.ProperlyNested)
    {before behind : List (ClassId × ClassEntry)} {place : ClassId × ClassEntry}
    (hsplit : classOrder graph.resolve = before ++ place :: behind) {outer : ClassId}
    (houter : place.2.outer = some outer) :
    ∃ entry, graph.resolve.at? outer = some entry ∧ (outer, entry) ∈ before := by
  have hplace : place ∈ graph.resolve.enumerate :=
    mem_of_mem_classOrder (by rw [hsplit]; exact List.mem_append_right _ List.mem_cons_self)
  have hat := at?_of_mem_enumerate hplace
  obtain ⟨entry, hentry⟩ : ∃ entry, graph.resolve.at? outer = some entry := by
    rw [at?_eq_getElem?]
    exact ⟨_, List.getElem?_eq_getElem (outer_resolve hat houter).1⟩
  refine ⟨entry, hentry, ?_⟩
  have hmem := mem_classOrder (mem_enumerate_of_at? hentry)
  have hpairs := pairwise_classOrder hnested
  rw [hsplit] at hmem hpairs
  rcases List.mem_append.1 hmem with hbefore | hrest
  · exact hbefore
  · rcases List.mem_cons.1 hrest with rfl | hbehind
    · have hself : graph.resolve.LiesIn outer outer := by rw [LiesIn, hat, Option.bind_some, houter]
      exact absurd (.single hself) (hnested outer)
    · have hrow := (List.pairwise_cons.1 (List.pairwise_append.1 hpairs).2.1).1
      exact absurd houter (hrow _ hbehind)

end Mapping
end JvmArchive
