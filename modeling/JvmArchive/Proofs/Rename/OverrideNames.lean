import JvmArchive.Proofs.Mapping.Chains
import JvmArchive.Proofs.Rename.MethodNames

/-!
# Names of overrides under any table

A method without an entry is declared under the entry of the method right above it on its chain of
overrides. That method falls back to the one above it in turn, which the lower method never looks at. So
the two agree exactly if the upper one has an entry, or its own base has none that changes the name.
-/
namespace JvmArchive
namespace Renamer

open ClassGraph

/-- When a method without an entry and the method that it overrides are declared under one name. In a
class that stands under its own name that is so exactly if the overridden method has an entry, or
overrides none that the table renames. -/
theorem methodName_mapClass_eq_base_iff (graph : ClassGraph) (table : Table String String) {id : ClassId}
    {index : Nat} {entry : ClassEntry} {method : MethodEntry} {base : ClassId × Nat}
    (hentry : graph.resolve.at? id = some entry) (hmethod : entry.methods[index]? = some method)
    (hbase : method.base = some base)
    (hnone : methodImage? ⟨graph.resolve, table⟩ entry.name method.name method.desc = none) :
    let renamer : Renamer := ⟨graph.resolve, table⟩
    ∃ declaring above, graph.resolve.at? base.1 = some declaring ∧
      declaring.methods[base.2]? = some above ∧
      above.name = method.name ∧ above.desc = method.desc ∧
      (((renamer.mapClass entry).methods[index]?).map (·.name) =
          ((renamer.mapClass declaring).methods[base.2]?).map (·.name) ↔
        (renamer.overridden? method).getD method.name =
          ((renamer.methodImage? declaring.name method.name method.desc).or
            (renamer.overridden? above)).getD method.name) ∧
      (graph.resolve.nameOf? base.1 = some declaring.name →
        (((renamer.mapClass entry).methods[index]?).map (·.name) =
            ((renamer.mapClass declaring).methods[base.2]?).map (·.name) ↔
          (renamer.methodImage? declaring.name method.name method.desc).isSome ∨
            ∀ mapping, renamer.overridden? above = some mapping → mapping = method.name)) := by
  intro renamer
  obtain ⟨above, hat, hname, hdesc⟩ :=
    ClassGraph.methodAt?_base hentry (List.mem_of_getElem? hmethod) hbase
  obtain ⟨declaring, hdeclaring, habove⟩ := methodAt?_eq_some_iff.1 hat
  have hlower : ((renamer.mapClass entry).methods[index]?).map (·.name) =
      some ((renamer.overridden? method).getD method.name) := by
    rw [methodName_mapClass hentry hmethod, hnone, Option.none_or]
  have hupper : ((renamer.mapClass declaring).methods[base.2]?).map (·.name) =
      some (((renamer.methodImage? declaring.name method.name method.desc).or
        (renamer.overridden? above)).getD method.name) := by
    rw [methodName_mapClass hdeclaring habove, hname, hdesc]
  refine ⟨declaring, above, hdeclaring, habove, hname, hdesc, ?_, fun hkey => ?_⟩
  · rw [hlower, hupper, Option.some.injEq]
  · have hoverridden : renamer.overridden? method =
        renamer.methodImage? declaring.name method.name method.desc := by
      simp [overridden?, hbase, renamer, hkey]
    rw [hlower, hupper, Option.some.injEq, hoverridden]
    cases hown : renamer.methodImage? declaring.name method.name method.desc with
    | some mapping => simp
    | none =>
      cases hroot : renamer.overridden? above with
      | none => simp
      | some mapping => simp [eq_comm]

/-- Three classes, each of which overrides the method of the one above. -/
def stackedGraph : ClassGraph :=
  .ofList
    [.ofNode
      { access := 1, name := "p/A", superName := some "java/lang/Object"
        methods := [{ access := 1, name := "m", desc := "()V" }] },
    .ofNode
      { access := 1, name := "p/B", superName := some "p/A"
        methods := [{ access := 1, name := "m", desc := "()V" }] },
    .ofNode
      { access := 1, name := "p/C", superName := some "p/B"
        methods := [{ access := 1, name := "m", desc := "()V" }] }]

/-- With a table that lists the uppermost declaration only, the override right below it gets the new name
and the one below that, which overrides it, keeps the old one. -/
theorem methodName_mapClass_stacked :
    let renamer : Renamer := ⟨stackedGraph.resolve, upperTable⟩
    ((stackedGraph.resolve.at? ⟨2⟩).bind fun entry => (entry.methods[0]?).bind (·.base)) =
        some (⟨1⟩, 0) ∧
      renamer.methodImage? "p/C" "m" "()V" = none ∧
      stackedGraph.resolve.toList.map (fun entry =>
          ((renamer.mapClass entry).methods[0]?).map (·.name)) = [some "x", some "x", some "m"] := by
  decide +kernel

/-- The condition at the lowest class: the method that it overrides has no entry and overrides one that
is renamed. -/
theorem methodName_mapClass_eq_base_iff_stacked :
    ∃ entry declaring above, stackedGraph.resolve.at? ⟨2⟩ = some entry ∧
      stackedGraph.resolve.at? ⟨1⟩ = some declaring ∧ declaring.methods[0]? = some above ∧
      (((mapClass ⟨stackedGraph.resolve, upperTable⟩ entry).methods[0]?).map (·.name) =
          ((mapClass ⟨stackedGraph.resolve, upperTable⟩ declaring).methods[0]?).map (·.name) ↔
        (methodImage? ⟨stackedGraph.resolve, upperTable⟩ "p/B" "m" "()V").isSome ∨
          ∀ mapping, overridden? ⟨stackedGraph.resolve, upperTable⟩ above = some mapping →
            mapping = "m") := by
  obtain ⟨entry, hentry⟩ :=
    Option.isSome_iff_exists.1 (by decide +kernel : (stackedGraph.resolve.at? ⟨2⟩).isSome)
  obtain ⟨method, hmethod⟩ := Option.isSome_iff_exists.1
    (by decide +kernel :
      ((stackedGraph.resolve.at? ⟨2⟩).bind fun entry => entry.methods[0]?).isSome)
  have hfacts : ((stackedGraph.resolve.at? ⟨2⟩).bind fun entry =>
      (entry.methods[0]?).map fun method => (entry.name, method.name, method.desc, method.base)) =
        some ("p/C", "m", "()V", some (⟨1⟩, 0)) := by decide +kernel
  have hupper : (stackedGraph.resolve.at? ⟨1⟩).map (·.name) = some "p/B" := by decide +kernel
  rw [hentry, Option.bind_some] at hmethod hfacts
  rw [hmethod, Option.map_some, Option.some.injEq, Prod.mk.injEq, Prod.mk.injEq, Prod.mk.injEq]
    at hfacts
  obtain ⟨hclass, hname, hdesc, hbase⟩ := hfacts
  have hnone : methodImage? ⟨stackedGraph.resolve, upperTable⟩ entry.name method.name method.desc =
      none := by
    rw [hclass, hname, hdesc]
    decide +kernel
  obtain ⟨declaring, above, hdeclaring, habove, -, -, -, h⟩ :=
    methodName_mapClass_eq_base_iff stackedGraph upperTable hentry hmethod hbase hnone
  rw [hdeclaring, Option.map_some, Option.some.injEq] at hupper
  rw [hname, hdesc, hupper] at h
  exact ⟨entry, declaring, above, hentry, hdeclaring, habove, h (by decide +kernel)⟩

end Renamer
end JvmArchive
