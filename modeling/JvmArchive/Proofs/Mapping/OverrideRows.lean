import JvmArchive.Proofs.Mapping.NewNames
import JvmArchive.Proofs.Rename.Generated

/-!
# Rows of overrides

Where no class without a mapping is named like the mapping of another one, a generated store answers for
a method with the row of the method that it overrides, and with none for a method that may not be
renamed. Of a chain only the end is ever named, and all of its methods may be renamed or none may.
-/
namespace JvmArchive.Mapping

open ClassGraph Store

variable {reserved : List String}

/-- Whether a method may be renamed is seen from its name, descriptor and access word. -/
theorem isChangeable_eq_of_same {a b : MethodEntry} (h : a.same b = true) :
    isChangeable reserved a = isChangeable reserved b := by
  obtain ⟨hname, hdesc, haccess⟩ := MethodEntry.same_iff.1 h
  rw [isChangeable, isChangeable, MethodEntry.isMain, MethodEntry.isMain, hname, hdesc, haccess]

/-- With the mapped types computed, the row of a method is determined by its mapping. -/
theorem Completed.methodRow?_eq {store : Store} (h : Completed store) (className name desc : String) :
    store.methodRow? className name desc =
      ((store.methodRow? className name desc).map (·.mapping)).map fun mapping =>
        { name, mapping, desc, mappedDesc := store.mapType desc } := by
  cases hrow : store.methodRow? className name desc with
  | none => rfl
  | some row =>
    have hmatch := List.find?_some hrow
    rw [Bool.and_eq_true, beq_iff_eq, beq_iff_eq] at hmatch
    have hmapped := h.methods className row (List.mem_of_find?_eq_some hrow)
    obtain ⟨rfl, rfl⟩ := hmatch
    rw [Option.map_some, Option.map_some, ← hmapped]

section
variable {σ : Type} (source : NameSource σ) (names : σ) {graph : ClassGraph}

/-- A method with a mapping may be renamed, for so may the end of its chain. -/
theorem isChangeable_of_mappingAt? (hlinked : Linked graph.toList) (hkeeps : graph.KeepsNames)
    (hdistinct : DistinctMethods graph.toList)
    (hkeyed : Keyed graph (generated source reserved graph names)) {place : ClassId × Nat}
    {method : MethodEntry} (hmethod : graph.methodAt? place = some method)
    (h : (mappingAt? graph (generated source reserved graph names) place).isSome) :
    isChangeable reserved method = true := by
  obtain ⟨mapping, hmapping⟩ := Option.isSome_iff_exists.1 h
  rw [mappingAt?_generated source reserved names hlinked hkeeps hdistinct hkeyed] at hmapping
  obtain ⟨root, hroot, hnamed⟩ := Option.bind_eq_some_iff.1 hmapping
  obtain ⟨declared, hdeclared, hsame⟩ := methodAt?_rootDeclaration hlinked hmethod graph.size
  rw [rootDeclaration_of_rootOf? hroot] at hdeclared
  have hdescribes : Describes (IsNamed reserved) graph (declareAll source reserved graph names).1 :=
    describes_declareAll source names
  have hisNamed := hdescribes.of_mappingAt? hkeeps hdistinct hdeclared (by rw [hnamed]; rfl)
  exact isChangeable_eq_of_same hsame ▸ hisNamed.2

/-- For a graph whose classes stand under their own names and declare no method twice, whatever its
hierarchy is, generating gives a method the row of the method that it overrides, or neither gets one, and
methods that may not be renamed get none; unless a class without a mapping is named like the mapping of
another one. -/
theorem exists_generated_method?_base (reserved : List String) (declared : ClassGraph)
    (hkeeps : declared.KeepsNames) (hdistinct : DistinctMethods declared.toList) :
    let graph := declared.resolve
    ∃ store rest, generate source reserved graph names = .ok (store, rest) ∧
      (UnmappedApart graph store →
        (∀ entry ∈ graph.toList, ∀ method ∈ entry.methods, ∀ base, method.base = some base →
          ∃ declaring overridden, graph.at? base.1 = some declaring ∧
            declaring.methods[base.2]? = some overridden ∧
            store.method? entry.name method.name method.desc =
              store.method? declaring.name overridden.name overridden.desc) ∧
        ∀ entry ∈ graph.toList, ∀ method ∈ entry.methods, isChangeable reserved method = false →
          store.method? entry.name method.name method.desc = none) := by
  intro graph
  refine ⟨_, _, generate_eq_ok source reserved graph names rfl, fun hapart => ?_⟩
  have hlinked : Linked graph.toList := linked_resolve declared
  have hkeeps' : graph.KeepsNames := hkeeps.resolve
  have hdistinct' : DistinctMethods graph.toList := by
    rw [toList_resolve declared]
    exact distinctMethods_linkAll.2 hdistinct
  have hkeyed := hapart.keyed (describes_generated source reserved graph names).names
  have hcompleted := completed_generated source reserved graph names
  have hrow : ∀ {place : ClassId × Nat} {entry : ClassEntry} {method : MethodEntry},
      graph.at? place.1 = some entry → entry.methods[place.2]? = some method →
        (generated source reserved graph names).method? entry.name method.name method.desc =
          (mappingAt? graph (generated source reserved graph names) place).map fun mapping =>
            { name := method.name, mapping, desc := method.desc
              mappedDesc := (generated source reserved graph names).mapType method.desc } := by
    intro place entry method hentry hmethod
    rw [hkeyed.method?_eq (mem_of_at? hentry), hcompleted.methodRow?_eq,
      mappingAt?_eq hentry hmethod, mappingOf?]
  constructor
  · intro entry hentry method hmethod base hbase
    obtain ⟨place, hat, hindex⟩ := exists_place hentry hmethod
    have hmethodAt : graph.methodAt? place = some method :=
      methodAt?_eq_some_iff.2 ⟨entry, hat, hindex⟩
    obtain ⟨overridden, habove, hsame⟩ := hlinked.methodAt?_base hmethodAt hbase
    obtain ⟨declaring, hdeclaring, hoverridden⟩ := methodAt?_eq_some_iff.1 habove
    have hchain : baseAt? graph place = some base := by
      rw [baseAt?, hmethodAt, Option.bind_some, hbase]
    obtain ⟨hname, hdesc, -⟩ := MethodEntry.same_iff.1 hsame
    refine ⟨declaring, overridden, hdeclaring, hoverridden, ?_⟩
    rw [hrow hat hindex, hrow hdeclaring hoverridden, hname, hdesc,
      mappingAt?_generated_base source reserved names hlinked hkeeps' hdistinct' hkeyed hchain]
  · intro entry hentry method hmethod hfixed
    obtain ⟨place, hat, hindex⟩ := exists_place hentry hmethod
    rw [hrow hat hindex, Option.map_eq_none_iff, ← Option.not_isSome_iff_eq_none]
    intro hsome
    have hchangeable := isChangeable_of_mappingAt? source names hlinked hkeeps' hdistinct' hkeyed
      (methodAt?_eq_some_iff.2 ⟨entry, hat, hindex⟩) hsome
    rw [hfixed] at hchangeable
    exact absurd hchangeable (by simp)

end

/-- A chain of three overrides, with a reserved method on a chain too, and two classes each of which
extends the other. -/
def layeredGraph : ClassGraph :=
  .ofList
    [.ofNode
      { access := 1, name := "p/A", superName := some "java/lang/Object"
        methods :=
          [{ access := 1, name := "m", desc := "()V" },
            { access := 1, name := "toString", desc := "()Ljava/lang/String;" }] },
    .ofNode
      { access := 1, name := "p/B", superName := some "p/A"
        methods := [{ access := 1, name := "m", desc := "()V" }] },
    .ofNode
      { access := 1, name := "p/C", superName := some "p/B"
        methods :=
          [{ access := 1, name := "toString", desc := "()Ljava/lang/String;" },
            { access := 1, name := "m", desc := "()V" }] },
    .ofNode
      { access := 1, name := "p/D", superName := some "p/E"
        methods := [{ access := 1, name := "n", desc := "()V" }] },
    .ofNode
      { access := 1, name := "p/E", superName := some "p/D"
        methods := [{ access := 1, name := "n", desc := "()V" }] }]

/-- The methods of the chain have one mapping; the reserved method has none in either class, and the
methods that override each other have none. -/
theorem generated_method?_layered :
    ∃ store rest, generate Counters.source reservedMethods layeredGraph.resolve {} =
        .ok (store, rest) ∧
      (∀ entry ∈ layeredGraph.resolve.toList, ∀ method ∈ entry.methods, ∀ base,
        method.base = some base →
          ∃ declaring overridden, layeredGraph.resolve.at? base.1 = some declaring ∧
            declaring.methods[base.2]? = some overridden ∧
            store.method? entry.name method.name method.desc =
              store.method? declaring.name overridden.name overridden.desc) ∧
      ["p/A", "p/B", "p/C"].map (fun owner => (store.method? owner "m" "()V").map (·.mapping)) =
        [some "a", some "a", some "a"] ∧
      ["p/A", "p/C"].map (fun owner => store.method? owner "toString" "()Ljava/lang/String;") =
        [none, none] ∧
      ["p/D", "p/E"].map (fun owner => store.method? owner "n" "()V") = [none, none] := by
  obtain ⟨store, rest, hgenerate, h⟩ := exists_generated_method?_base Counters.source {}
    reservedMethods layeredGraph (by decide +kernel) (by decide +kernel)
  have hstore := hgenerate
  rw [generate_eq_ok _ _ _ _ rfl, Except.ok.injEq, Prod.mk.injEq] at hstore
  refine ⟨store, rest, hgenerate, (h ?_).1, ?_, ?_, ?_⟩
  all_goals
    rw [← hstore.1]
    decide +kernel

end JvmArchive.Mapping
