import JvmArchive.Mapping.Generate
import JvmArchive.Proofs.Graph.Linked
import Mathlib.Data.Fintype.Pigeonhole

/-!
# Chains of overrides

From a method to the one that it overrides and on to the declaration that overrides nothing. In a
linked graph all methods of a chain are the same, so a chain that visits a class twice goes around for
ever, and one that ends does so within as many steps as there are classes.
-/
namespace JvmArchive

theorem MethodEntry.same_iff {a b : MethodEntry} :
    a.same b = true ↔ a.name = b.name ∧ a.desc = b.desc ∧ a.access = b.access := by
  simp [same, and_assoc]

namespace ClassGraph

/-- Whether no class of a list declares two methods with one name and one descriptor. -/
def DistinctMethods (entries : List ClassEntry) : Prop :=
  ∀ entry ∈ entries, (entry.methods.map fun method => (method.name, method.desc)).Nodup

instance (entries : List ClassEntry) : Decidable (DistinctMethods entries) :=
  inferInstanceAs (Decidable (∀ entry ∈ entries, _))

variable {graph : ClassGraph}

theorem methodAt?_eq_some_iff {place : ClassId × Nat} {method : MethodEntry} :
    graph.methodAt? place = some method ↔
      ∃ entry, graph.at? place.1 = some entry ∧ entry.methods[place.2]? = some method := by
  simp [methodAt?, Option.bind_eq_some_iff]

theorem exists_place {entry : ClassEntry} {method : MethodEntry} (hentry : entry ∈ graph.toList)
    (hmethod : method ∈ entry.methods) :
    ∃ place : ClassId × Nat, graph.at? place.1 = some entry ∧
      entry.methods[place.2]? = some method := by
  obtain ⟨index, hindex⟩ := List.getElem?_of_mem hentry
  obtain ⟨k, hk⟩ := List.getElem?_of_mem hmethod
  exact ⟨(⟨index⟩, k), by rw [at?_eq_getElem?]; exact hindex, hk⟩

theorem index_lt_of_methodAt? {place : ClassId × Nat} {method : MethodEntry}
    (h : graph.methodAt? place = some method) : place.1.index < graph.size := by
  obtain ⟨entry, hentry, -⟩ := methodAt?_eq_some_iff.1 h
  rw [at?_eq_getElem?] at hentry
  have hlt := (List.getElem?_eq_some_iff.1 hentry).1
  simpa [size, toList, Table.values, Table.length] using hlt

theorem mem_of_at? {id : ClassId} {entry : ClassEntry} (h : graph.at? id = some entry) :
    entry ∈ graph.toList := by
  rw [at?_eq_getElem?] at h
  exact List.mem_of_getElem? h

/-- The base of a method is a method of the graph that is the same. -/
theorem Linked.methodAt?_base (h : Linked graph.toList) {place base : ClassId × Nat}
    {method : MethodEntry} (hmethod : graph.methodAt? place = some method)
    (hbase : method.base = some base) :
    ∃ above, graph.methodAt? base = some above ∧ above.same method = true := by
  obtain ⟨entry, hentry, hindex⟩ := methodAt?_eq_some_iff.1 hmethod
  rw [h.base entry (mem_of_at? hentry) method (List.mem_of_getElem? hindex)] at hbase
  obtain ⟨id, -, hid⟩ := List.exists_of_findSome?_eq_some hbase
  obtain ⟨declaring, hdeclaring, hfound⟩ := Option.bind_eq_some_iff.1 hid
  obtain ⟨k, hk, rfl⟩ := Option.map_eq_some_iff.1 hfound
  obtain ⟨hlt, hsame, -⟩ := List.findIdx?_eq_some_iff_getElem.1 hk
  refine ⟨declaring.methods[k], methodAt?_eq_some_iff.2 ⟨declaring, ?_, ?_⟩, hsame⟩
  · rw [at?_eq_getElem?]
    exact hdeclaring
  · exact List.getElem?_eq_getElem hlt

/-- A class, a name and a descriptor determine the place of a method. -/
theorem DistinctMethods.place_eq (h : DistinctMethods graph.toList) {a b : ClassId × Nat}
    {method other : MethodEntry} (ha : graph.methodAt? a = some method)
    (hb : graph.methodAt? b = some other) (hclass : a.1 = b.1) (hname : method.name = other.name)
    (hdesc : method.desc = other.desc) : a = b := by
  obtain ⟨entry, hentry, hmethod⟩ := methodAt?_eq_some_iff.1 ha
  obtain ⟨entry', hentry', hother⟩ := methodAt?_eq_some_iff.1 hb
  rw [← hclass, hentry, Option.some.injEq] at hentry'
  subst hentry'
  refine Prod.ext hclass ?_
  have hlt := (List.getElem?_eq_some_iff.1 hmethod).1
  refine (List.getElem?_inj (by simpa using hlt) (h entry (mem_of_at? hentry))).1 ?_
  rw [List.getElem?_map, List.getElem?_map, hmethod, hother, Option.map_some, Option.map_some, hname,
    hdesc]

end ClassGraph

namespace Mapping

open ClassGraph

variable {graph : ClassGraph}

/-- What the method at a place overrides. -/
def baseAt? (graph : ClassGraph) (place : ClassId × Nat) : Option (ClassId × Nat) :=
  (graph.methodAt? place).bind (·.base)

theorem rootDeclaration_of_base {place base : ClassId × Nat} (h : baseAt? graph place = some base)
    (room : Nat) : rootDeclaration graph (room + 1) place = rootDeclaration graph room base := by
  rw [rootDeclaration]
  rw [baseAt?] at h
  rw [h]

theorem rootDeclaration_of_end {place : ClassId × Nat} (h : baseAt? graph place = none)
    (room : Nat) : rootDeclaration graph room place = place := by
  cases room with
  | zero => rfl
  | succ room =>
    rw [rootDeclaration]
    rw [baseAt?] at h
    rw [h]

theorem rootDeclaration_add (m n : Nat) (place : ClassId × Nat) :
    rootDeclaration graph (m + n) place =
      rootDeclaration graph n (rootDeclaration graph m place) := by
  induction m generalizing place with
  | zero => rw [Nat.zero_add, rootDeclaration]
  | succ m ih =>
    cases h : baseAt? graph place with
    | none => rw [rootDeclaration_of_end h, rootDeclaration_of_end h, rootDeclaration_of_end h]
    | some base =>
      rw [Nat.add_right_comm, rootDeclaration_of_base h, rootDeclaration_of_base h, ih]

/-- All methods of a chain are the same. -/
theorem methodAt?_rootDeclaration (hlinked : Linked graph.toList) {place : ClassId × Nat}
    {method : MethodEntry} (hmethod : graph.methodAt? place = some method) (room : Nat) :
    ∃ declared, graph.methodAt? (rootDeclaration graph room place) = some declared ∧
      declared.same method = true := by
  induction room generalizing place method with
  | zero => exact ⟨method, hmethod, by simp [MethodEntry.same]⟩
  | succ room ih =>
    cases h : baseAt? graph place with
    | none =>
      rw [rootDeclaration_of_end h]
      exact ⟨method, hmethod, by simp [MethodEntry.same]⟩
    | some base =>
      have hbase : method.base = some base := by simpa [baseAt?, hmethod] using h
      obtain ⟨above, habove, hsame⟩ := hlinked.methodAt?_base hmethod hbase
      obtain ⟨declared, hdeclared, hroot⟩ := ih habove
      rw [rootDeclaration_of_base h]
      rw [MethodEntry.same_iff] at hsame hroot
      exact ⟨declared, hdeclared, MethodEntry.same_iff.2
        ⟨hroot.1.trans hsame.1, hroot.2.1.trans hsame.2.1, hroot.2.2.trans hsame.2.2⟩⟩

/-- A chain that ends at all ends within as many steps as there are classes: of more places two would
be in one class and so be equal, and the chain would go around between them. -/
theorem baseAt?_rootDeclaration_size (hlinked : Linked graph.toList)
    (hdistinct : DistinctMethods graph.toList) {place : ClassId × Nat} {method : MethodEntry}
    (hmethod : graph.methodAt? place = some method) {n : Nat}
    (hend : baseAt? graph (rootDeclaration graph n place) = none) :
    baseAt? graph (rootDeclaration graph graph.size place) = none := by
  by_contra hsize
  have hgoes : ∀ i ≤ graph.size, baseAt? graph (rootDeclaration graph i place) ≠ none := by
    intro i hi h
    rw [← Nat.add_sub_of_le hi, rootDeclaration_add, rootDeclaration_of_end h] at hsize
    exact hsize h
  have hplaces : ∀ i, ∃ declared, graph.methodAt? (rootDeclaration graph i place) = some declared ∧
      declared.same method = true := methodAt?_rootDeclaration hlinked hmethod
  let classAt : Fin (graph.size + 1) → Fin graph.size := fun i =>
    ⟨(rootDeclaration graph i place).1.index,
      index_lt_of_methodAt? (hplaces i).choose_spec.1⟩
  obtain ⟨i, j, hne, hsame⟩ := Fintype.exists_ne_map_eq_of_card_lt classAt (by simp)
  wlog hij : i < j generalizing i j
  · exact this j i hne.symm hsame.symm (lt_of_le_of_ne (not_lt.1 hij) hne.symm)
  have hmeet : rootDeclaration graph i place = rootDeclaration graph j place := by
    obtain ⟨a, ha, hsamea⟩ := hplaces i
    obtain ⟨b, hb, hsameb⟩ := hplaces j
    rw [MethodEntry.same_iff] at hsamea hsameb
    refine hdistinct.place_eq ha hb ?_ (hsamea.1.trans hsameb.1.symm)
      (hsamea.2.1.trans hsameb.2.1.symm)
    exact congrArg ClassId.mk (Fin.mk.inj hsame)
  have hnever : ∀ k, baseAt? graph (rootDeclaration graph k place) ≠ none := by
    intro k
    induction k using Nat.strongRecOn with
    | ind k ih =>
      by_cases hk : k ≤ graph.size
      · exact hgoes k hk
      · have hjk : (j : Nat) ≤ k := by omega
        have hback : rootDeclaration graph k place =
            rootDeclaration graph (i + (k - j)) place := by
          rw [rootDeclaration_add, hmeet, ← rootDeclaration_add, Nat.add_sub_of_le hjk]
        rw [hback]
        exact ih _ (by omega)
  exact hnever n hend

/-- The declaration at the end of the chain of overrides from a place; none if the chain goes around. -/
def rootOf? (graph : ClassGraph) (place : ClassId × Nat) : Option (ClassId × Nat) :=
  let root := rootDeclaration graph graph.size place
  if (baseAt? graph root).isNone then some root else none

theorem rootOf?_of_end {place : ClassId × Nat} (h : baseAt? graph place = none) :
    rootOf? graph place = some place := by
  simp [rootOf?, rootDeclaration_of_end h, h]

theorem rootDeclaration_of_rootOf? {place root : ClassId × Nat} (h : rootOf? graph place = some root) :
    rootDeclaration graph graph.size place = root := by
  simp only [rootOf?, Option.ite_none_right_eq_some, Option.some.injEq] at h
  exact h.2

theorem baseAt?_of_rootOf? {place root : ClassId × Nat} (h : rootOf? graph place = some root) :
    baseAt? graph root = none := by
  simp only [rootOf?, Option.ite_none_right_eq_some, Option.some.injEq] at h
  obtain ⟨hend, rfl⟩ := h
  simpa using hend

/-- A method and the one that it overrides go back to one declaration. -/
theorem rootOf?_base (hlinked : Linked graph.toList) (hdistinct : DistinctMethods graph.toList)
    {place base : ClassId × Nat} (hbase : baseAt? graph place = some base) :
    rootOf? graph base = rootOf? graph place := by
  obtain ⟨method, hmethod, hmethodBase⟩ := Option.bind_eq_some_iff.1 hbase
  obtain ⟨above, habove, -⟩ := hlinked.methodAt?_base hmethod hmethodBase
  have hstep : rootDeclaration graph graph.size base =
      rootDeclaration graph 1 (rootDeclaration graph graph.size place) := by
    rw [← rootDeclaration_add, rootDeclaration_of_base hbase]
  cases hend : baseAt? graph (rootDeclaration graph graph.size place) with
  | none => rw [rootOf?, rootOf?, hstep, rootDeclaration_of_end hend]
  | some next =>
    have hgoes : baseAt? graph (rootDeclaration graph graph.size base) ≠ none := by
      intro h
      rw [← rootDeclaration_of_base hbase] at h
      rw [baseAt?_rootDeclaration_size hlinked hdistinct hmethod h] at hend
      exact absurd hend (by simp)
    rw [rootOf?, rootOf?, if_neg (by simpa using hgoes), if_neg (by simp [hend])]

end Mapping
end JvmArchive
