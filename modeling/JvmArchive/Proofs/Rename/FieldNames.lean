import JvmArchive.Proofs.Mapping.LeadBack
import JvmArchive.Proofs.Rename.Fields

/-!
# Names of fields under any store

A store tells the fields of one name apart by their types, but in its flat table they share a key, under
which the first row of the class stands. So a field is declared under its own mapping exactly if the
first row for its name has that mapping too. An instruction looks at the class it names first, whose row
for the name may be about another field than the one it reaches.
-/
namespace JvmArchive
namespace Mapping

namespace Insertion

/-- Whether an insertion keeps the keys of the flat table apart. -/
def IsPlain : Insertion → Prop
  | mapClass name _ => '.' ∉ name.toList
  | ensureClass name => '.' ∉ name.toList
  | mapField className row => '.' ∉ className.toList ∧ '(' ∉ row.name.toList
  | mapMethod className row =>
    '.' ∉ className.toList ∧ '(' ∉ row.name.toList ∧ Store.StartsMethod row.desc
  | completeDescriptors => True

instance : (insertion : Insertion) → Decidable insertion.IsPlain
  | mapClass name _ => inferInstanceAs (Decidable ('.' ∉ name.toList))
  | ensureClass name => inferInstanceAs (Decidable ('.' ∉ name.toList))
  | mapField className row =>
    inferInstanceAs (Decidable ('.' ∉ className.toList ∧ '(' ∉ row.name.toList))
  | mapMethod className row =>
    inferInstanceAs
      (Decidable ('.' ∉ className.toList ∧ '(' ∉ row.name.toList ∧ Store.StartsMethod row.desc))
  | completeDescriptors => isTrue trivial

end Insertion

namespace Store

variable {store : Store}

theorem plain_empty (direction : Direction) : (empty direction).Plain where
  classes name h := by cases h
  fields className row h := by cases h
  methods className row h := by cases h

/-- Every class after an insertion was there before or is the one that is inserted. -/
theorem isSome_classes_apply (hexact : store.ExactNames) {insertion : Insertion} {name : String}
    (h : ((insertion.apply store).classes.get? name).isSome) :
    (store.classes.get? name).isSome ∨ (∃ mapping, insertion = .mapClass name mapping) ∨
      insertion = .ensureClass name := by
  rcases store.apply_cases insertion with ⟨hclasses, -, -⟩ | ⟨new, mapping, hopen, hclasses, -, hnew⟩
  · rw [hclasses] at h
    exact .inl h
  · rw [hclasses, hexact.get?_classes_mapClass hopen] at h
    split at h
    · rename_i hname
      subst hname
      rcases hnew with rfl | ⟨-, -, rfl⟩
      · exact .inr (.inl ⟨mapping, rfl⟩)
      · exact .inr (.inr rfl)
    · exact .inl h

theorem Plain.apply (h : store.Plain) (hexact : store.ExactNames) {insertion : Insertion}
    (hplain : insertion.IsPlain) : (insertion.apply store).Plain where
  classes name hname := by
    rcases isSome_classes_apply hexact hname with hold | ⟨mapping, rfl⟩ | rfl
    · exact h.classes name hold
    · exact hplain
    · exact hplain
  fields className row hrow := by
    cases insertion with
    | mapClass name mapping =>
      rw [Insertion.apply, mapClass_eq_with] at hrow
      exact h.fields className row hrow
    | ensureClass name =>
      rw [Insertion.apply, ensureClass_eq_with] at hrow
      exact h.fields className row hrow
    | mapField owner new =>
      rw [Insertion.apply, classFields_mapField, List.mem_append] at hrow
      rcases hrow with hold | hnew
      · exact h.fields className row hold
      · split at hnew
        · rename_i hclass
          rw [List.mem_singleton.1 hnew, ← hclass.1]
          exact hplain
        · cases hnew
    | mapMethod owner new =>
      rw [Insertion.apply, classFields_mapMethod] at hrow
      exact h.fields className row hrow
    | completeDescriptors =>
      rw [Insertion.apply, classFields_completeDescriptors] at hrow
      obtain ⟨old, hold, rfl⟩ := List.mem_map.1 hrow
      exact h.fields className old hold
  methods className row hrow := by
    cases insertion with
    | mapClass name mapping =>
      rw [Insertion.apply, mapClass_eq_with] at hrow
      exact h.methods className row hrow
    | ensureClass name =>
      rw [Insertion.apply, ensureClass_eq_with] at hrow
      exact h.methods className row hrow
    | mapField owner new =>
      rw [Insertion.apply, classMethods_mapField] at hrow
      exact h.methods className row hrow
    | mapMethod owner new =>
      rw [Insertion.apply, classMethods_mapMethod, List.mem_append] at hrow
      rcases hrow with hold | hnew
      · exact h.methods className row hold
      · split at hnew
        · rename_i hclass
          rw [List.mem_singleton.1 hnew, ← hclass.1]
          exact hplain
        · cases hnew
    | completeDescriptors =>
      rw [Insertion.apply, classMethods_completeDescriptors] at hrow
      obtain ⟨old, hold, rfl⟩ := List.mem_map.1 hrow
      exact h.methods className old hold

theorem plain_made (direction : Direction) {insertions : List Insertion}
    (h : ∀ insertion ∈ insertions, insertion.IsPlain) : (made direction insertions).Plain := by
  have hboth : (made direction insertions).ExactNames ∧ (made direction insertions).Plain :=
    made_induction (P := fun store => store.ExactNames ∧ store.Plain)
      ⟨exactNames_empty direction, plain_empty direction⟩ insertions
      fun _ hstore insertion hinsertion =>
        ⟨hstore.1.apply insertion, hstore.2.apply hstore.1 (h insertion hinsertion)⟩
  exact hboth.2

theorem direction_made (direction : Direction) (insertions : List Insertion) :
    (made direction insertions).direction = direction := by
  refine made_induction (P := fun store => store.direction = direction) rfl insertions
    fun store hstore insertion _ => ?_
  cases insertion with
  | mapClass name mapping =>
    rw [Insertion.apply, mapClass_eq_with]
    exact hstore
  | ensureClass name =>
    rw [Insertion.apply, ensureClass_eq_with]
    exact hstore
  | mapField className row =>
    rw [Insertion.apply, mapField_eq_with]
    exact hstore
  | mapMethod className row =>
    rw [Insertion.apply, mapMethod_eq_with]
    exact hstore
  | completeDescriptors => exact hstore

end Store
end Mapping

namespace ClassGraph

theorem mem_names_of_idOf? {graph : ClassGraph} {name : String} {id : ClassId}
    (h : graph.idOf? name = some id) : name ∈ graph.names := by
  obtain ⟨index, hindex, -⟩ := Option.map_eq_some_iff.1 h
  obtain ⟨hlt, hkey, -⟩ := List.findIdx?_eq_some_iff_getElem.1 hindex
  exact List.mem_map.2 ⟨_, List.getElem_mem hlt, of_decide_eq_true hkey⟩

end ClassGraph

namespace Renamer

open ClassGraph Mapping Mapping.Store

/-- In a graph whose classes have dot-free keys, with a store in which no class without a mapping is
named like the mapping of another one: a declared field that the store has a row for gets the mapping of
that row exactly if the first row of its class for its name has the same mapping, and an instruction that
reaches the field gets it exactly if so does the first row for the name under the class that the
instruction names, or without one there the first row under the declaring class. -/
theorem fieldName_eq_mapping_iff (insertions : List Insertion)
    (hinsertions : ∀ insertion ∈ insertions, insertion.IsPlain) (declared : ClassGraph)
    (hdots : ∀ name ∈ declared.names, '.' ∉ name.toList) :
    let graph := declared.resolve
    let store := made .applying insertions
    let renamer := ofStore graph store
    UnmappedApart graph store →
      ∀ id entry index field row, graph.at? id = some entry → entry.fields[index]? = some field →
        store.field? entry.name field.name field.desc = some row →
          (((renamer.mapClass entry).fields[index]?).map (·.name) = some row.mapping ↔
            (store.firstRow? entry.name field.name).map (·.mapping) = some row.mapping) ∧
          ∃ key, graph.nameOf? id = some key ∧
            ∀ owner opcode lower, graph.idOf? owner = some lower →
              graph.findField lower opcode field.name field.desc = some (id, index) →
                (renamer.mapField owner field.name field.desc opcode = row.mapping ↔
                  (((store.firstRow? owner field.name).or
                    (store.firstRow? key field.name)).map (·.mapping)).getD field.name =
                      row.mapping) := by
  intro graph store renamer hapart id entry index field row hentry hfield hrow
  have hplain : store.Plain := plain_made .applying hinsertions
  have hdirection : store.direction = .applying := direction_made .applying insertions
  have hkeyed : Keyed graph store := hapart.keyed (exactNames_made .applying insertions).names
  rw [Store.field?, fieldsOf, hkeyed entry (mem_of_at? hentry)] at hrow
  have hmem := List.mem_of_find?_eq_some hrow
  have hname : row.name = field.name := by
    have hmatch := List.find?_some hrow
    rw [Bool.and_eq_true, beq_iff_eq] at hmatch
    exact hmatch.1
  have hopen : '(' ∉ field.name.toList := hname ▸ (hplain.fields entry.name row hmem).2
  have hkeys : ∀ {owner : String}, '.' ∉ owner.toList →
      fieldImage? renamer owner field.name = (store.firstRow? owner field.name).map (·.mapping) :=
    fun howner => get?_flatten_field hdirection hplain howner hopen
  constructor
  · have hsome : (store.firstRow? entry.name field.name).isSome := by
      rw [firstRow?, List.find?_isSome]
      exact ⟨row, hmem, by rw [hname, beq_self_eq_true]⟩
    obtain ⟨first, hfirst⟩ := Option.isSome_iff_exists.1 hsome
    have hdeclared : ((renamer.mapClass entry).fields[index]?).map (·.name) =
        some (renamer.mapDeclaredField entry.name field.name) := by
      simp [mapClass, hfield, mapFieldEntry, FieldEntry.name]
    rw [hdeclared, mapDeclaredField, hkeys (hplain.fields entry.name row hmem).1, hfirst]
    rfl
  · obtain ⟨⟨key, other⟩, hat, -⟩ := Option.map_eq_some_iff.1 hentry
    have hkey : graph.nameOf? id = some key := by rw [ClassGraph.nameOf?, hat, Option.map_some]
    have hnames : ∀ name ∈ graph.names, '.' ∉ name.toList := names_resolve declared ▸ hdots
    have hkeyMem : key ∈ graph.names := List.mem_map.2 ⟨_, List.mem_of_getElem? hat, rfl⟩
    refine ⟨key, hkey, fun owner opcode lower hid hfind => ?_⟩
    rw [mapField_eq_getD hid hfind hkey, hkeys (hnames owner (mem_names_of_idOf? hid)),
      hkeys (hnames key hkeyMem), Option.map_or]

/-- A class with two fields of one name, and a class below it with a third. -/
def namesakeGraph : ClassGraph :=
  .ofList
    [.ofNode
      { access := 1, name := "p/A", superName := some "java/lang/Object"
        fields := [{ access := 1, name := "x", desc := "I" }, { access := 1, name := "x", desc := "J" }] },
    .ofNode
      { access := 1, name := "p/C", superName := some "p/A"
        fields := [{ access := 1, name := "x", desc := "I" }] }]

/-- A mapping of its own for each of the fields. -/
def namesakeInsertions : List Insertion :=
  [.mapField "p/A" { name := "x", mapping := "a", desc := "I" },
    .mapField "p/A" { name := "x", mapping := "b", desc := "J" },
    .mapField "p/C" { name := "x", mapping := "c", desc := "I" }]

/-- The second field of the upper class is declared under the mapping of the first, and an instruction
that reaches it through the lower class gets the mapping of the field there. -/
theorem fieldName_namesake :
    let graph := namesakeGraph.resolve
    let store := made .applying namesakeInsertions
    let renamer := ofStore graph store
    UnmappedApart graph store ∧
      (store.field? "p/A" "x" "J").map (·.mapping) = some "b" ∧
      ((graph.at? ⟨0⟩).bind fun entry => ((renamer.mapClass entry).fields[1]?).map (·.name)) =
        some "a" ∧
      graph.findField ⟨1⟩ Opcode.getfield "x" "J" = some (⟨0⟩, 1) ∧
      renamer.mapField "p/C" "x" "J" Opcode.getfield = "c" := by
  simp only [findField_resolve]
  decide +kernel

/-- The conditions for the second field of the upper class: the first row for its name is another one in
its own class and another one in the lower class. -/
theorem fieldName_eq_mapping_iff_namesake :
    let graph := namesakeGraph.resolve
    let store := made .applying namesakeInsertions
    ∃ entry key, graph.at? ⟨0⟩ = some entry ∧ graph.nameOf? ⟨0⟩ = some key ∧
      ((((ofStore graph store).mapClass entry).fields[1]?).map (·.name) = some "b" ↔
        (store.firstRow? "p/A" "x").map (·.mapping) = some "b") ∧
      ((ofStore graph store).mapField "p/C" "x" "J" Opcode.getfield = "b" ↔
        (((store.firstRow? "p/C" "x").or (store.firstRow? key "x")).map (·.mapping)).getD "x" =
          "b") := by
  intro graph store
  obtain ⟨entry, hentry⟩ := Option.isSome_iff_exists.1 (by decide +kernel : (graph.at? ⟨0⟩).isSome)
  obtain ⟨field, hfield⟩ := Option.isSome_iff_exists.1
    (by decide +kernel : ((graph.at? ⟨0⟩).bind fun entry => entry.fields[1]?).isSome)
  have hfacts : ((graph.at? ⟨0⟩).bind fun entry =>
      (entry.fields[1]?).map fun field => (entry.name, field.name, field.desc)) =
        some ("p/A", "x", "J") := by decide +kernel
  rw [hentry, Option.bind_some] at hfield hfacts
  rw [hfield, Option.map_some, Option.some.injEq, Prod.mk.injEq, Prod.mk.injEq] at hfacts
  obtain ⟨hclass, hname, hdesc⟩ := hfacts
  have hrow : store.field? entry.name field.name field.desc =
      some { name := "x", mapping := "b", desc := "J" } := by
    rw [hclass, hname, hdesc]
    decide +kernel
  obtain ⟨hdeclared, key, hkey, hused⟩ := fieldName_eq_mapping_iff namesakeInsertions (by decide)
    namesakeGraph (by decide +kernel) (by decide +kernel) ⟨0⟩ entry 1 field _ hentry hfield hrow
  rw [hname, hdesc] at hused
  rw [hclass, hname] at hdeclared
  exact ⟨entry, key, hentry, hkey, hdeclared,
    hused "p/C" Opcode.getfield ⟨1⟩ (by decide +kernel) (by rw [findField_resolve]; decide +kernel)⟩

end Renamer
end JvmArchive
