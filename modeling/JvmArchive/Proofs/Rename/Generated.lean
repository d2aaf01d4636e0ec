import JvmArchive.Proofs.Mapping.Consistency
import JvmArchive.Proofs.Rename.Links
import JvmArchive.Proofs.Rename.MethodNames

/-!
# Renaming by generated stores

What the renamer of a generated store calls the classes and methods of its graph. Names as they stand
in class files keep the keys of the flat table apart, and where the new names of classes are different
too, every method is called like the one that it overrides.
-/
namespace JvmArchive

namespace ClassGraph

/-- Linking changes no names. -/
theorem PlainNames.linkAll {entries : List ClassEntry} (h : PlainNames entries) :
    PlainNames (linkAll entries) := by
  refine ⟨fun entry hentry => ?_, fun entry hentry field hfield => ?_,
    fun entry hentry method hmethod => ?_⟩
  all_goals
    obtain ⟨index, hindex⟩ := List.getElem?_of_mem hentry
    obtain ⟨declared, hdeclared, hfrom⟩ := exists_of_getElem?_linkAll hindex
    have hmem := List.mem_of_getElem? hdeclared
  · have hname : entry.name = declared.name := congrArg ClassNode.name hfrom.node
    rw [hname]
    exact h.classes declared hmem
  · have hnode := List.mem_map_of_mem (f := FieldEntry.node) hfield
    rw [hfrom.fields] at hnode
    obtain ⟨old, hold, heq⟩ := List.mem_map.1 hnode
    have hname : field.name = old.name := congrArg FieldNode.name heq.symm
    rw [hname]
    exact h.fields declared hmem old hold
  · have hnode := List.mem_map_of_mem (f := MethodEntry.node) hmethod
    rw [hfrom.methods] at hnode
    obtain ⟨old, hold, heq⟩ := List.mem_map.1 hnode
    have hname : method.name = old.name := congrArg MethodNode.name heq.symm
    have hdesc : method.desc = old.desc := congrArg MethodNode.desc heq.symm
    rw [hname, hdesc]
    exact h.methods declared hmem old hold

/-- Linking changes no methods. -/
theorem distinctMethods_linkAll {entries : List ClassEntry} :
    DistinctMethods (linkAll entries) ↔ DistinctMethods entries := by
  have hkeys : ∀ entries : List ClassEntry, DistinctMethods entries ↔
      ∀ keys ∈ entries.map fun entry => (entry.methods.map (·.node)).map fun node =>
        (node.name, node.desc), keys.Nodup := by
    intro entries
    rw [List.forall_mem_map]
    simp only [List.map_map]
    rfl
  rw [hkeys, hkeys, map_linkAll entries fun declared entry h => by rw [h.methods]]

end ClassGraph

namespace Renamer

open ClassGraph Mapping Mapping.Store

variable {property : MethodEntry → Prop} {graph : ClassGraph} {store : Store}

/-- A class gets its mapping. -/
theorem mapType_ofStore (hdirection : store.direction = .applying) {name : String}
    (hdot : '.' ∉ name.toList) (harray : name.toList.head? ≠ some '[') :
    (ofStore graph store).mapType name = store.mappedName name := by
  rw [mapType, if_neg harray, ofStore, get?_flatten_class hdirection hdot, mappedName]

/-- The renamer finds the mapping of a declared method. -/
theorem methodImage?_ofStore (h : Describes property graph store) (hplain : PlainNames graph.toList)
    {entry : ClassEntry} {method : MethodEntry} (hentry : entry ∈ graph.toList)
    (hmethod : method ∈ entry.methods) :
    methodImage? (ofStore graph store) entry.name method.name method.desc =
      mappingOf? store entry method := by
  obtain ⟨hopen, hstarts⟩ := hplain.methods entry hentry method hmethod
  exact get?_flatten_method h.direction (h.plain hplain) (hplain.classes entry hentry).1 hopen hstarts

/-- Where no class gets the name of another, the members of every class are found under its name. -/
theorem keyed_of_separates (h : Describes property graph store) (hplain : PlainNames graph.toList)
    (hseparates : (ofStore graph store).Separates graph.toList) : Keyed graph store := by
  have hapart : UnmappedApart graph store := by
    intro entry hentry habsent hmem
    obtain ⟨⟨name, mapping⟩, hgiven, rfl⟩ := List.mem_map.1 hmem
    have hname := Table.get?_of_mem_entries hgiven
    obtain ⟨other, hother, rfl⟩ := h.classes name (by rw [hname]; rfl)
    obtain ⟨hdot, harray⟩ := hplain.classes entry hentry
    obtain ⟨hotherDot, hotherArray⟩ := hplain.classes other hother
    have hsame : (ofStore graph store).mapType other.name = (ofStore graph store).mapType entry.name := by
      rw [mapType_ofStore h.direction hdot harray, mapType_ofStore h.direction hotherDot hotherArray,
        mappedName, mappedName, hname, habsent]
      rfl
    have heq := hseparates other hother entry hentry entry.name List.mem_cons_self hsame
    rw [heq, habsent] at hname
    exact absurd hname (by simp)
  exact hapart.keyed h.names

/-- Where a method and the one that it overrides have one mapping, or none both, a declared method gets
its own mapping or keeps its name: looking at the overridden method finds nothing more. -/
theorem mapDeclaredMethod_ofStore (h : Describes property graph store) (hlinked : Linked graph.toList)
    (hkeeps : graph.KeepsNames) (hplain : PlainNames graph.toList)
    (hbases : ∀ place base, baseAt? graph place = some base →
      mappingAt? graph store base = mappingAt? graph store place)
    {place : ClassId × Nat} {entry : ClassEntry} {method : MethodEntry}
    (hentry : graph.at? place.1 = some entry) (hmethod : entry.methods[place.2]? = some method) :
    (ofStore graph store).mapDeclaredMethod entry.name method =
      (mappingAt? graph store place).getD method.name := by
  have hat : graph.methodAt? place = some method := methodAt?_eq_some_iff.2 ⟨entry, hentry, hmethod⟩
  rw [mapDeclaredMethod_eq_getD, methodImage?_ofStore h hplain (mem_of_at? hentry)
    (List.mem_of_getElem? hmethod), ← mappingAt?_eq hentry hmethod]
  cases hbase : method.base with
  | none =>
    have hnone : baseImage? (ofStore graph store) method = none := by
      simp [baseImage?, hbase]
    rw [hnone, Option.or_none]
  | some base =>
    obtain ⟨above, habove, -⟩ := hlinked.methodAt?_base hat hbase
    obtain ⟨declaring, hdeclaring, hindex⟩ := methodAt?_eq_some_iff.1 habove
    have hentries : baseImage? (ofStore graph store) method = mappingAt? graph store base := by
      have hname : graph.nameOf? base.1 = some declaring.name := by
        rw [hkeeps.nameOf?, hdeclaring, Option.map_some]
      rw [mappingAt?_eq hdeclaring hindex, ← methodImage?_ofStore h hplain
        (mem_of_at? hdeclaring) (List.mem_of_getElem? hindex)]
      simp [baseImage?, hbase, ofStore, hname, habove]
    have hchain : baseAt? graph place = some base := by rw [baseAt?, hat, Option.bind_some, hbase]
    rw [hentries, hbases place base hchain, Option.or_self]

section
variable {σ : Type} (source : NameSource σ) (reserved : List String) (names : σ)

/-- The renamer of a generated store. -/
abbrev ofGenerated (graph : ClassGraph) : Renamer :=
  ofStore graph (generated source reserved graph names)

/-- What a generated store calls a method is its mapping, or its own name without one. -/
theorem mapDeclaredMethod_generated (hlinked : Linked graph.toList) (hkeeps : graph.KeepsNames)
    (hdistinct : DistinctMethods graph.toList) (hplain : PlainNames graph.toList)
    (hseparates : (ofGenerated source reserved names graph).Separates graph.toList)
    {place : ClassId × Nat} {entry : ClassEntry} {method : MethodEntry}
    (hentry : graph.at? place.1 = some entry) (hmethod : entry.methods[place.2]? = some method) :
    (ofGenerated source reserved names graph).mapDeclaredMethod entry.name method =
      (mappingAt? graph (generated source reserved graph names) place).getD method.name := by
  have hdescribes := describes_generated source reserved graph names
  have hkeyed := keyed_of_separates hdescribes hplain hseparates
  exact mapDeclaredMethod_ofStore hdescribes hlinked hkeeps hplain
    (fun _ _ => mappingAt?_generated_base source reserved names hlinked hkeeps hdistinct hkeyed)
    hentry hmethod

/-- A method and the one that it overrides get one name. -/
theorem mapDeclaredMethod_base (hlinked : Linked graph.toList) (hkeeps : graph.KeepsNames)
    (hdistinct : DistinctMethods graph.toList) (hplain : PlainNames graph.toList)
    (hseparates : (ofGenerated source reserved names graph).Separates graph.toList)
    {place base : ClassId × Nat} {entry declaring : ClassEntry} {method above : MethodEntry}
    (hentry : graph.at? place.1 = some entry) (hmethod : entry.methods[place.2]? = some method)
    (hbase : method.base = some base) (hdeclaring : graph.at? base.1 = some declaring)
    (habove : declaring.methods[base.2]? = some above) :
    (ofGenerated source reserved names graph).mapDeclaredMethod declaring.name above =
      (ofGenerated source reserved names graph).mapDeclaredMethod entry.name method := by
  have hkeyed := keyed_of_separates (describes_generated source reserved graph names) hplain hseparates
  have hat : graph.methodAt? place = some method := methodAt?_eq_some_iff.2 ⟨entry, hentry, hmethod⟩
  obtain ⟨found, hfound, hsame⟩ := hlinked.methodAt?_base hat hbase
  rw [methodAt?_eq_some_iff.2 ⟨declaring, hdeclaring, habove⟩, Option.some.injEq] at hfound
  subst hfound
  have hchain : baseAt? graph place = some base := by rw [baseAt?, hat, Option.bind_some, hbase]
  rw [mapDeclaredMethod_generated source reserved names hlinked hkeeps hdistinct hplain hseparates
      hdeclaring habove,
    mapDeclaredMethod_generated source reserved names hlinked hkeeps hdistinct hplain hseparates
      hentry hmethod,
    mappingAt?_generated_base source reserved names hlinked hkeeps hdistinct hkeyed hchain,
    (MethodEntry.same_iff.1 hsame).1]

end

end Renamer
end JvmArchive
