import JvmArchive.Proofs.Graph.Links
import JvmArchive.Rename.Class

/-!
# Names of methods at calls and declarations

A call looks a method up under the class it names and then under the class that declares it; the
declaration looks it up under its own class and then under the class of its base. The two agree exactly
if the declaring class has an entry for the method or the overridden method has none that changes the
name: the call does not look at overridden methods.
-/
namespace JvmArchive
namespace Renamer

/-- The mapping of the method that a method overrides, under the name and descriptor of that method. -/
def overridden? (renamer : Renamer) (method : MethodEntry) : Option String :=
  method.base.bind fun place =>
    (renamer.graph.nameOf? place.1).bind fun above =>
      renamer.methodImage? above method.name method.desc

/-- In a resolved graph a base has the name and descriptor of the method above which it stands. -/
theorem baseImage?_eq_overridden? {graph : ClassGraph} {table : Table String String}
    {id : ClassId} {entry : ClassEntry} {method : MethodEntry}
    (hentry : graph.resolve.at? id = some entry) (hmethod : method ∈ entry.methods) :
    baseImage? ⟨graph.resolve, table⟩ method = overridden? ⟨graph.resolve, table⟩ method := by
  cases hbase : method.base with
  | none => simp [baseImage?, overridden?, hbase]
  | some place =>
    obtain ⟨base, hat, hname, hdesc⟩ := ClassGraph.methodAt?_base hentry hmethod hbase
    simp [baseImage?, overridden?, hbase, hat, hname, hdesc]

/-- A call through a class without an entry of its own, or through the declaring class itself, gets the
name under which the declaring class stands in the table, or keeps the old one. -/
theorem mapMethod_eq_getD {renamer : Renamer} {owner name desc key : String}
    {id declaring : ClassId} {index : Nat} (hid : renamer.graph.idOf? owner = some id)
    (hfind : renamer.graph.findMethod id name desc = some (declaring, index))
    (hkey : renamer.graph.nameOf? declaring = some key)
    (howner : renamer.methodImage? owner name desc = none ∨ owner = key) :
    renamer.mapMethod owner name desc = (renamer.methodImage? key name desc).getD name := by
  have hdeclaring : renamer.declaringMethod? owner name desc = some key := by
    simp [declaringMethod?, hid, hfind, hkey]
  rcases howner with hnone | rfl
  · simp [mapMethod, hnone, hdeclaring]
  · cases hentry : renamer.methodImage? owner name desc <;>
      simp [mapMethod, hentry, hdeclaring]

/-- The declaration gets the mapping of its own class, else that of the overridden method. -/
theorem mapDeclaredMethod_eq_getD (renamer : Renamer) (owner : String) (method : MethodEntry) :
    renamer.mapDeclaredMethod owner method =
      ((renamer.methodImage? owner method.name method.desc).or
        (renamer.baseImage? method)).getD method.name := by
  cases hentry : renamer.methodImage? owner method.name method.desc <;>
    simp [mapDeclaredMethod, hentry]

/-- A class of a resolved graph declares a method under its own mapping, else under that of the
overridden method. -/
theorem methodName_mapClass {graph : ClassGraph} {table : Table String String} {id : ClassId} {index : Nat}
    {entry : ClassEntry} {method : MethodEntry} (hentry : graph.resolve.at? id = some entry)
    (hmethod : entry.methods[index]? = some method) :
    ((mapClass ⟨graph.resolve, table⟩ entry).methods[index]?).map (·.name) =
      some (((methodImage? ⟨graph.resolve, table⟩ entry.name method.name method.desc).or
        (overridden? ⟨graph.resolve, table⟩ method)).getD method.name) := by
  simp only [mapClass, List.getElem?_map, hmethod, Option.map_some]
  simp only [mapMethodEntry, MethodEntry.name, Option.some.injEq]
  rw [mapDeclaredMethod_eq_getD, baseImage?_eq_overridden? hentry (List.mem_of_getElem? hmethod)]
  rfl

/-- When a call and the declaration that it reaches get one name. In a graph whose classes stand under
their own names that is so exactly if the declaring class has an entry for the method, or the method
overrides none that the table renames. -/
theorem name_of_declaration_eq_mapMethod_iff (graph : ClassGraph) (table : Table String String)
    {owner name desc key : String} {id declaring : ClassId} {index : Nat} {entry : ClassEntry}
    {method : MethodEntry} (hid : graph.resolve.idOf? owner = some id)
    (hfind : graph.resolve.findMethod id name desc = some (declaring, index))
    (hkey : graph.resolve.nameOf? declaring = some key)
    (hentry : graph.resolve.at? declaring = some entry)
    (hmethod : entry.methods[index]? = some method)
    (howner : methodImage? ⟨graph.resolve, table⟩ owner name desc = none ∨ owner = key) :
    let renamer : Renamer := ⟨graph.resolve, table⟩
    let called := renamer.mapMethod owner name desc
    let declared := ((renamer.mapClass entry).methods[index]?).map (·.name)
    (declared = some called ↔
      ((renamer.methodImage? entry.name name desc).or (renamer.overridden? method)).getD name =
        (renamer.methodImage? key name desc).getD name) ∧
    (entry.name = key →
      (declared = some called ↔
        (renamer.methodImage? key name desc).isSome ∨
          ∀ mapping, renamer.overridden? method = some mapping → mapping = name)) := by
  intro renamer called declared
  obtain ⟨found, hat, hname, hdesc⟩ := ClassGraph.methodAt?_of_findMethod hfind
  have hfound : found = method := by
    simpa [ClassGraph.methodAt?, hentry, hmethod] using hat.symm
  subst hfound
  have hcalled : called = (renamer.methodImage? key name desc).getD name :=
    mapMethod_eq_getD hid hfind hkey howner
  have hdeclared : declared =
      some (((renamer.methodImage? entry.name name desc).or
        (renamer.overridden? found)).getD name) := by
    rw [← hname, ← hdesc]
    exact methodName_mapClass hentry hmethod
  have hiff : declared = some called ↔
      ((renamer.methodImage? entry.name name desc).or (renamer.overridden? found)).getD name =
        (renamer.methodImage? key name desc).getD name := by
    rw [hdeclared, hcalled, Option.some.injEq]
  refine ⟨hiff, fun hown => ?_⟩
  rw [hiff, hown]
  cases hentry' : renamer.methodImage? key name desc with
  | some mapping => simp
  | none =>
    cases habove : renamer.overridden? found <;> simp

/-- Two classes, the lower of which overrides the method of the upper. -/
def overridingGraph : ClassGraph :=
  .ofList
    [.ofNode
      { access := 1, name := "p/A", superName := some "java/lang/Object"
        methods := [{ access := 1, name := "m", desc := "()V" }] },
    .ofNode
      { access := 1, name := "p/B", superName := some "p/A"
        methods := [{ access := 1, name := "m", desc := "()V" }] }]

/-- A table that lists only the upper declaration. -/
def upperTable : Table String String := .firsts [("p/A.m()V", "x")]

/-- With a table that lists the upper declaration only, the lower class declares the method under the
new name while a call through it keeps the old one. -/
theorem call_of_override_keeps_name :
    let renamer : Renamer := ⟨overridingGraph.resolve, upperTable⟩
    overridingGraph.resolve.idOf? "p/B" = some ⟨1⟩ ∧
      overridingGraph.resolve.findMethod ⟨1⟩ "m" "()V" = some (⟨1⟩, 0) ∧
      renamer.methodImage? "p/B" "m" "()V" = none ∧
      renamer.mapMethod "p/B" "m" "()V" = "m" ∧
      ((overridingGraph.resolve.at? ⟨1⟩).bind fun entry =>
        ((renamer.mapClass entry).methods[0]?).map (·.name)) = some "x" := by
  decide +kernel

/-- The condition at the lower class, where the overridden method has an entry and the call therefore
misses the new name. -/
theorem name_of_declaration_eq_mapMethod_override :
    ∃ entry method, overridingGraph.resolve.at? ⟨1⟩ = some entry ∧
      entry.methods[0]? = some method ∧
      (((mapClass ⟨overridingGraph.resolve, upperTable⟩ entry).methods[0]?).map (·.name) =
          some (mapMethod ⟨overridingGraph.resolve, upperTable⟩ "p/B" "m" "()V") ↔
        (methodImage? ⟨overridingGraph.resolve, upperTable⟩ "p/B" "m" "()V").isSome ∨
          ∀ mapping, overridden? ⟨overridingGraph.resolve, upperTable⟩ method = some mapping →
            mapping = "m") := by
  obtain ⟨entry, hentry⟩ :=
    Option.isSome_iff_exists.1 (by decide +kernel : (overridingGraph.resolve.at? ⟨1⟩).isSome)
  obtain ⟨method, hmethod⟩ := Option.isSome_iff_exists.1
    (by decide +kernel :
      ((overridingGraph.resolve.at? ⟨1⟩).bind fun entry => entry.methods[0]?).isSome)
  rw [hentry, Option.bind_some] at hmethod
  have hname : (overridingGraph.resolve.at? ⟨1⟩).map (·.name) = some "p/B" := by decide +kernel
  rw [hentry, Option.map_some, Option.some.injEq] at hname
  have hid : overridingGraph.resolve.idOf? "p/B" = some ⟨1⟩ := by decide +kernel
  have hfind : overridingGraph.resolve.findMethod ⟨1⟩ "m" "()V" = some (⟨1⟩, 0) := by decide +kernel
  have hkey : overridingGraph.resolve.nameOf? ⟨1⟩ = some "p/B" := by decide +kernel
  have howner : methodImage? ⟨overridingGraph.resolve, upperTable⟩ "p/B" "m" "()V" = none := by
    decide +kernel
  exact ⟨entry, method, hentry, hmethod,
    (name_of_declaration_eq_mapMethod_iff overridingGraph upperTable hid hfind hkey hentry hmethod
      (.inl howner)).2 hname⟩

end Renamer
end JvmArchive
