import JvmArchive.Proofs.Rename.Generated

/-!
# Overrides under generated names

Names for methods are drawn anew for every class, so a method may get a name that a class above has
already given to another one. Renaming keeps every override, and adds none, exactly if no method meets
another one in its own class or in a class that is searched before the one of its base.
-/
namespace JvmArchive

namespace ClassGraph

/-- The ancestors that are searched for the base of a method before the class of the base; all of them
if there is none. -/
def searchedBefore (ancestors : List ClassId) (base : Option (ClassId × Nat)) : List ClassId :=
  ancestors.takeWhile fun id => base.map (·.1) ≠ some id

/-- When a search along the ancestors has a given result. -/
theorem findSome?_eq_iff (ancestors : List ClassId) (find : ClassId → Option Nat)
    (base : Option (ClassId × Nat)) :
    (ancestors.findSome? fun id => (find id).map fun index => (id, index)) = base ↔
      (∀ id ∈ searchedBefore ancestors base, find id = none) ∧
        ∀ place, base = some place → place.1 ∈ ancestors ∧ find place.1 = some place.2 := by
  induction ancestors with
  | nil => cases base <;> simp [searchedBefore]
  | cons id ancestors ih =>
    rw [List.findSome?_cons]
    cases hfind : find id with
    | none =>
      have hplace : ∀ place : ClassId × Nat, find place.1 = some place.2 → place.1 ≠ id := by
        rintro place h rfl
        rw [hfind] at h
        exact absurd h (by simp)
      rw [Option.map_none]
      refine ih.trans ?_
      by_cases hid : base.map (·.1) = some id
      · obtain ⟨place, rfl, rfl⟩ := Option.map_eq_some_iff.1 hid
        simp [hfind]
      · rw [searchedBefore, searchedBefore, List.takeWhile_cons_of_pos (by simpa using hid)]
        simp only [List.mem_cons, forall_eq_or_imp, hfind, true_and]
        refine and_congr_right fun _ => forall_congr' fun place => imp_congr_right fun _ => ?_
        refine and_congr_left fun h => ?_
        simp [hplace place h]
    | some index =>
      rw [Option.map_some]
      constructor
      · rintro rfl
        simp [searchedBefore, hfind]
      · rintro ⟨hbefore, hbase⟩
        by_cases hid : base.map (·.1) = some id
        · obtain ⟨place, rfl, rfl⟩ := Option.map_eq_some_iff.1 hid
          have hindex := (hbase place rfl).2
          rw [hfind, Option.some.injEq] at hindex
          rw [hindex]
        · rw [searchedBefore, List.takeWhile_cons_of_pos (by simpa using hid)] at hbefore
          rw [hbefore id List.mem_cons_self] at hfind
          exact absurd hfind (by simp)

/-- If something is found in a class that is searched before that of the base, the search ends in such
a class. -/
theorem exists_findSome?_of_mem_searchedBefore {ancestors : List ClassId} {find : ClassId → Option Nat}
    {base : Option (ClassId × Nat)} {id : ClassId} (hid : id ∈ searchedBefore ancestors base)
    (hfind : find id ≠ none) :
    ∃ place, (ancestors.findSome? fun id => (find id).map fun index => (id, index)) = some place ∧
      place.1 ∈ searchedBefore ancestors base ∧ find place.1 = some place.2 := by
  induction ancestors with
  | nil => simp [searchedBefore] at hid
  | cons first ancestors ih =>
    have hhead : base.map (·.1) ≠ some first := by
      intro hhead
      rw [searchedBefore, List.takeWhile_cons_of_neg (by simpa using hhead)] at hid
      exact absurd hid (by simp)
    have hcons : searchedBefore (first :: ancestors) base = first :: searchedBefore ancestors base := by
      rw [searchedBefore, List.takeWhile_cons_of_pos (by simpa using hhead)]
      rfl
    rw [hcons] at hid ⊢
    rw [List.findSome?_cons]
    cases hfirst : find first with
    | some index => exact ⟨(first, index), rfl, List.mem_cons_self, hfirst⟩
    | none =>
      have hrest : id ∈ searchedBefore ancestors base := by
        refine (List.mem_cons.1 hid).resolve_left ?_
        rintro rfl
        exact hfind hfirst
      obtain ⟨place, hplace, hmem, hfound⟩ := ih hrest
      exact ⟨place, hplace, List.mem_cons_of_mem _ hmem, hfound⟩

theorem baseOf_eq_iff {entries : List ClassEntry} {ancestors : List ClassId} {method : MethodEntry}
    {base : Option (ClassId × Nat)} :
    baseOf entries ancestors method = base ↔
      (∀ id ∈ searchedBefore ancestors base, baseIn? entries method id = none) ∧
        ∀ place, base = some place →
          place.1 ∈ ancestors ∧ baseIn? entries method place.1 = some place.2 := by
  rw [← findSome?_eq_iff, baseOf_eq_findSome?]

end ClassGraph

namespace Renamer

open ClassGraph Mapping

variable {renamer : Renamer} {graph renamed : ClassGraph}

/-- Whether the new name of no method, in a list of linked classes, makes it the same as another one in
its class, or as one that is searched before its base. -/
structure KeepsApart (renamer : Renamer) (entries : List ClassEntry) : Prop where
  own : DistinctMethods (entries.map renamer.mapClass)
  above : ∀ entry ∈ entries, ∀ method ∈ entry.methods,
    ∀ id ∈ searchedBefore entry.ancestors method.base,
      ∀ declaring ∈ entries[id.index]?, ∀ other ∈ declaring.methods,
        (renamer.mapMethodEntry declaring.name other).same
          (renamer.mapMethodEntry entry.name method) = false

instance (renamer : Renamer) (entries : List ClassEntry) : Decidable (renamer.KeepsApart entries) :=
  decidable_of_iff (_ ∧ _) ⟨fun h => ⟨h.1, h.2⟩, fun h => ⟨h.own, h.above⟩⟩

/-- The base of a renamed method is looked for among the renamed methods of the same ancestors. -/
theorem baseAt?_renamed (hrenamed : renamed.toList = linkAll (graph.toList.map renamer.mapClass))
    (hlinked : Linked graph.toList) (hseparates : renamer.Separates graph.toList)
    {place : ClassId × Nat} {entry : ClassEntry} {method : MethodEntry}
    (hentry : graph.at? place.1 = some entry) (hmethod : entry.methods[place.2]? = some method) :
    baseAt? renamed place =
      baseOf (graph.toList.map renamer.mapClass) entry.ancestors
        (renamer.mapMethodEntry entry.name method) := by
  obtain ⟨new, hnew⟩ := exists_at?_renamed hrenamed hentry
  have hold := renamed_of_at? hrenamed hlinked hseparates hentry hnew
  have hnode := node_methodAt?_renamed hrenamed hlinked hseparates place
  rw [hentry, Option.bind_some, hmethod, Option.map_some] at hnode
  obtain ⟨moved, hmoved, hnode⟩ := Option.map_eq_some_iff.1 hnode
  obtain ⟨found, hfound, hindex⟩ := methodAt?_eq_some_iff.1 hmoved
  rw [hnew, Option.some.injEq] at hfound
  subst hfound
  have hbase := (linked_linkAll (graph.toList.map renamer.mapClass)).base new
    (hrenamed ▸ mem_of_at? hnew) moved (List.mem_of_getElem? hindex)
  let identity := fun node : MethodNode => (node.name, node.desc, node.access)
  rw [baseAt?, hmoved, Option.bind_some, hbase, hold.ancestors]
  refine baseOf_congr (map_linkAll _ fun declared entry h => ?_) _ (congrArg identity hnode)
  have hidentities := congrArg (List.map identity) h.methods
  rwa [List.map_map, List.map_map] at hidentities

theorem baseIn?_map_eq_none_iff {entries : List ClassEntry} {method : MethodEntry} {id : ClassId} :
    baseIn? (entries.map renamer.mapClass) method id = none ↔
      ∀ declaring ∈ entries[id.index]?, ∀ other ∈ declaring.methods,
        (renamer.mapMethodEntry declaring.name other).same method = false := by
  rw [baseIn?, List.getElem?_map]
  cases entries[id.index]? with
  | none => simp
  | some entry => simp [mapClass, List.findIdx?_eq_none_iff]

theorem exists_of_baseIn?_map {entries : List ClassEntry} {method : MethodEntry} {id : ClassId}
    {index : Nat} (h : baseIn? (entries.map renamer.mapClass) method id = some index) :
    ∃ declaring, entries[id.index]? = some declaring ∧
      ∃ found, declaring.methods[index]? = some found ∧
        (renamer.mapMethodEntry declaring.name found).same method = true := by
  rw [baseIn?, List.getElem?_map] at h
  cases hdeclaring : entries[id.index]? with
  | none => simp [hdeclaring] at h
  | some declaring =>
    rw [hdeclaring, Option.map_some, Option.bind_some, mapClass, List.findIdx?_map,
      List.findIdx?_eq_some_iff_getElem] at h
    obtain ⟨hlt, hsame, -⟩ := h
    exact ⟨declaring, rfl, _, List.getElem?_eq_getElem hlt, hsame⟩

theorem same_mapMethodEntry_iff {owner other : String} {method found : MethodEntry} :
    (renamer.mapMethodEntry other found).same (renamer.mapMethodEntry owner method) = true ↔
      renamer.mapDeclaredMethod other found = renamer.mapDeclaredMethod owner method ∧
        renamer.mapDescriptor found.desc = renamer.mapDescriptor method.desc ∧
          found.access = method.access :=
  MethodEntry.same_iff

/-- If a method and its base get one name and no other method of the class of the base gets it too, the
base is the first that a search finds there. -/
theorem baseIn?_of_mapDeclaredMethod_eq
    (hown : DistinctMethods (graph.toList.map renamer.mapClass)) {base : ClassId × Nat}
    {entry declaring : ClassEntry} {method above : MethodEntry}
    (hdeclaring : graph.at? base.1 = some declaring) (habove : declaring.methods[base.2]? = some above)
    (hsame : above.same method = true)
    (hname : renamer.mapDeclaredMethod declaring.name above =
      renamer.mapDeclaredMethod entry.name method) :
    baseIn? (graph.toList.map renamer.mapClass) (renamer.mapMethodEntry entry.name method) base.1 =
      some base.2 := by
  obtain ⟨-, hdesc, haccess⟩ := MethodEntry.same_iff.1 hsame
  obtain ⟨hlt, hget⟩ := List.getElem?_eq_some_iff.1 habove
  have hmeets : (renamer.mapMethodEntry declaring.name above).same
      (renamer.mapMethodEntry entry.name method) = true :=
    same_mapMethodEntry_iff.2 ⟨hname, by rw [hdesc], haccess⟩
  have hentry : graph.toList[base.1.index]? = some declaring := by
    rw [← at?_eq_getElem?]
    exact hdeclaring
  have hnodup := hown (renamer.mapClass declaring)
    (List.mem_map_of_mem (List.mem_of_getElem? hentry))
  rw [baseIn?, List.getElem?_map, hentry, Option.map_some, Option.bind_some]
  simp only [mapClass] at hnodup ⊢
  rw [List.findIdx?_map, List.findIdx?_eq_some_iff_getElem]
  refine ⟨hlt, by rw [hget]; exact hmeets, fun earlier hearlier hmatch => ?_⟩
  have hkeys := MethodEntry.same_iff.1 hmatch
  have hfirst := MethodEntry.same_iff.1 hmeets
  have hindex : earlier = base.2 := by
    refine (List.getElem?_inj ?_ hnodup).1 ?_
    · simp only [List.length_map]
      omega
    · simp only [List.getElem?_map, habove, List.getElem?_eq_getElem (hearlier.trans hlt),
        Option.map_some, Option.some.injEq, Prod.mk.injEq]
      exact ⟨hkeys.1.trans hfirst.1.symm, hkeys.2.1.trans hfirst.2.1.symm⟩
  omega

section
variable {σ : Type} (source : NameSource σ) (reserved : List String) (names : σ)

/-- Whether all overrides are kept and none is added is a matter of the new names alone. -/
theorem baseAt?_renamed_eq_iff (hlinked : Linked graph.toList) (hkeeps : graph.KeepsNames)
    (hdistinct : DistinctMethods graph.toList) (hplain : PlainNames graph.toList)
    (hseparates : (ofGenerated source reserved names graph).Separates graph.toList)
    (hrenamed : renamed.toList =
      linkAll (graph.toList.map (ofGenerated source reserved names graph).mapClass)) :
    (DistinctMethods renamed.toList ∧ ∀ place, baseAt? renamed place = baseAt? graph place) ↔
      (ofGenerated source reserved names graph).KeepsApart graph.toList := by
  rw [hrenamed, distinctMethods_linkAll]
  have hbaseOf : ∀ {place : ClassId × Nat} {entry : ClassEntry} {method : MethodEntry},
      graph.at? place.1 = some entry → entry.methods[place.2]? = some method →
        (baseAt? renamed place = baseAt? graph place ↔
          (∀ id ∈ searchedBefore entry.ancestors method.base,
            baseIn? (graph.toList.map (ofGenerated source reserved names graph).mapClass)
              ((ofGenerated source reserved names graph).mapMethodEntry entry.name method) id = none) ∧
            ∀ base, method.base = some base → base.1 ∈ entry.ancestors ∧
              baseIn? (graph.toList.map (ofGenerated source reserved names graph).mapClass)
                ((ofGenerated source reserved names graph).mapMethodEntry entry.name method) base.1 =
                  some base.2) := by
    intro place entry method hentry hmethod
    rw [baseAt?_renamed hrenamed hlinked hseparates hentry hmethod, baseOf_eq_iff]
    rw [baseAt?, methodAt?_eq_some_iff.2 ⟨entry, hentry, hmethod⟩, Option.bind_some]
  constructor
  · rintro ⟨hown, hbases⟩
    refine ⟨hown, fun entry hentry method hmethod id hid => ?_⟩
    obtain ⟨index, hindex⟩ := List.getElem?_of_mem hentry
    obtain ⟨k, hk⟩ := List.getElem?_of_mem hmethod
    have hat : graph.at? ⟨index⟩ = some entry := (at?_eq_getElem? graph ⟨index⟩).trans hindex
    have hbase := (hbaseOf hat hk).1 (hbases (⟨index⟩, k))
    exact baseIn?_map_eq_none_iff.1 (hbase.1 id hid)
  · rintro ⟨hown, habove⟩
    refine ⟨hown, fun place => ?_⟩
    cases hmethod : graph.methodAt? place with
    | none =>
      have hnode := node_methodAt?_renamed hrenamed hlinked hseparates place
      rw [methodAt?, Option.bind_eq_none_iff] at hmethod
      have hnone : renamed.methodAt? place = none := by
        rw [← Option.map_eq_none_iff (f := MethodEntry.node), hnode, Option.bind_eq_none_iff]
        exact fun entry hentry => by rw [hmethod entry hentry, Option.map_none]
      rw [baseAt?, baseAt?, hnone, methodAt?, Option.bind_eq_none_iff.2 hmethod]
    | some method =>
      obtain ⟨entry, hentry, hindex⟩ := methodAt?_eq_some_iff.1 hmethod
      have hmem := List.mem_of_getElem? hindex
      refine (hbaseOf hentry hindex).2 ⟨fun id hid => ?_, fun base hbase => ?_⟩
      · exact baseIn?_map_eq_none_iff.2 (habove entry (mem_of_at? hentry) method hmem id hid)
      · obtain ⟨above, hat, hsame⟩ := hlinked.methodAt?_base hmethod hbase
        obtain ⟨declaring, hdeclaring, hk⟩ := methodAt?_eq_some_iff.1 hat
        refine ⟨?_, ?_⟩
        · have hlinkedBase := hlinked.base entry (mem_of_at? hentry) method hmem
          rw [hbase] at hlinkedBase
          exact (baseOf_eq_iff.1 hlinkedBase.symm).2 base rfl |>.1
        · refine baseIn?_of_mapDeclaredMethod_eq hown hdeclaring hk hsame ?_
          exact mapDeclaredMethod_base source reserved names hlinked hkeeps hdistinct hplain
            hseparates hentry hindex hbase hdeclaring hk

/-- Generating succeeds, and where its class names are kept apart, renaming by the store keeps every
override and adds none, and gives no class two methods with one name and descriptor, exactly if the
new names of methods are kept apart too. -/
theorem exists_generated_keepsApart_iff (declared : ClassGraph) (hkeeps : declared.KeepsNames)
    (hdistinct : DistinctMethods declared.toList) (hplain : PlainNames declared.toList) :
    let graph := declared.resolve
    ∃ store rest, generate source reserved graph names = .ok (store, rest) ∧
      ((ofStore graph store).Separates graph.toList →
        ((DistinctMethods (graph.rename store).toList ∧
            ∀ place, baseAt? (graph.rename store) place = baseAt? graph place) ↔
          (ofStore graph store).KeepsApart graph.toList)) := by
  intro graph
  refine ⟨_, _, generate_eq_ok source reserved graph names rfl, fun hseparates => ?_⟩
  have htoList : graph.toList = linkAll declared.toList := toList_resolve declared
  have hdistinct' : DistinctMethods graph.toList := by
    rw [htoList]
    exact distinctMethods_linkAll.2 hdistinct
  have hplain' : PlainNames graph.toList := by
    rw [htoList]
    exact hplain.linkAll
  exact baseAt?_renamed_eq_iff source reserved names (linked_resolve declared) hkeeps.resolve hdistinct'
    hplain' hseparates (toList_rename rfl hkeeps.resolve.nodup hseparates)

/-- Two classes, the lower of which overrides the method of the upper: their methods get one name. -/
theorem generated_keepsApart_overriding :
    ∃ store rest, generate Counters.source reservedMethods overridingGraph.resolve {} =
        .ok (store, rest) ∧
      DistinctMethods (overridingGraph.resolve.rename store).toList ∧
      ∀ place, baseAt? (overridingGraph.resolve.rename store) place =
        baseAt? overridingGraph.resolve place := by
  obtain ⟨store, rest, hgenerate, h⟩ := exists_generated_keepsApart_iff Counters.source reservedMethods
    {} overridingGraph (by decide +kernel) (by decide +kernel) (by decide +kernel)
  refine ⟨store, rest, hgenerate, (h ?_).2 ?_⟩
  all_goals
    rw [generate_eq_ok _ _ _ _ rfl, Except.ok.injEq, Prod.mk.injEq] at hgenerate
    rw [← hgenerate.1]
    decide +kernel

/-- Two classes, each of which declares a method; neither overrides anything. -/
def unrelatedGraph : ClassGraph :=
  .ofList
    [.ofNode
      { access := 1, name := "p/A", superName := some "java/lang/Object"
        methods := [{ access := 1, name := "m", desc := "()V" }] },
    .ofNode
      { access := 1, name := "p/B", superName := some "p/A"
        methods := [{ access := 1, name := "n", desc := "()V" }] }]

/-- Both methods get the first name, and the lower one comes to override the upper. -/
theorem generated_adds_override :
    ((generate Counters.source reservedMethods unrelatedGraph.resolve {}).toOption.map fun result =>
        (baseAt? unrelatedGraph.resolve (⟨1⟩, 0),
          baseAt? (unrelatedGraph.resolve.rename result.1) (⟨1⟩, 0))) =
      some (none, some (⟨0⟩, 0)) := by
  decide +kernel

end

end Renamer
end JvmArchive
