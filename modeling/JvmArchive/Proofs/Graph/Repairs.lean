import JvmArchive.Proofs.Graph.Declarations

/-!
# Outer classes that are repaired

After outer classes have been given to the classes that lack them, none lacks one that the graph could
give. A graph of classes that declare the same needs no repair then.
-/
namespace JvmArchive.ClassGraph

variable {graph again : ClassGraph}

/-! ## Changed classes -/

theorem toList_map (f : ClassEntry → ClassEntry) (graph : ClassGraph) :
    (graph.map f).toList = graph.toList.map f := by
  simp only [toList, map, Table.map, Table.values, List.map_map]
  rfl

theorem names_map (f : ClassEntry → ClassEntry) (graph : ClassGraph) :
    (graph.map f).names = graph.names := by
  simp only [names, map, Table.map, Table.keys, List.map_map]
  rfl

theorem names_update (graph : ClassGraph) (name : String) (f : ClassEntry → ClassEntry) :
    (graph.update name f).names = graph.names := by
  simp only [names, update, Table.update, Table.map, Table.keys, List.map_map]
  rfl

/-- A graph keeps names if every class stands under the name that it has. -/
theorem keepsNames_iff :
    graph.KeepsNames ↔ ∀ pair ∈ graph.classes.entries, pair.1 = pair.2.name := by
  rw [KeepsNames, names, Table.keys, toList, Table.values, List.map_map, List.map_inj_left]
  rfl

theorem KeepsNames.insert (h : graph.KeepsNames) (entry : ClassEntry) :
    (graph.insert entry).KeepsNames := by
  rw [keepsNames_iff] at h ⊢
  intro pair hpair
  rcases Table.mem_entries_insert hpair with rfl | hold
  · rfl
  · exact h pair hold

/-- The class under a name is the class with the name. -/
theorem toList_update (h : graph.KeepsNames) (name : String) (f : ClassEntry → ClassEntry) :
    (graph.update name f).toList =
      graph.toList.map fun entry => if entry.name = name then f entry else entry := by
  simp only [toList, update, Table.update, Table.map, Table.values, List.map_map]
  refine List.map_congr_left fun pair hpair => ?_
  simp only [Function.comp_apply, keepsNames_iff.1 h pair hpair]

theorem contains_eq (graph : ClassGraph) (name : String) :
    graph.contains name = decide (name ∈ graph.names) := by
  rw [contains, Table.contains_eq_isSome, Bool.eq_iff_iff, decide_eq_true_iff, Table.isSome_get?_iff]
  rfl

/-- Nothing changes where no class has the name. -/
theorem update_of_not_contains {name : String} (h : graph.contains name = false)
    (f : ClassEntry → ClassEntry) : graph.update name f = graph := by
  rw [contains_eq, decide_eq_false_iff_not] at h
  have hclasses : graph.classes.update name f = graph.classes := by
    refine Table.eq_of_entries_eq ((List.map_congr_left fun entry hentry => ?_).trans (List.map_id' _))
    have hother : entry.1 ≠ name := by
      rintro rfl
      exact h (List.mem_map_of_mem hentry)
    dsimp only
    rw [if_neg hother]
  rw [update, hclasses]

/-- Classes that are put into an empty graph one by one. -/
theorem foldl_insert (entries : List ClassEntry) :
    entries.foldl insert {} = ofList entries := by
  have hfold : ∀ (entries : List ClassEntry) (table : Table String ClassEntry),
      entries.foldl insert { classes := table, resolved := false } =
        { classes := (entries.map fun entry => (entry.name, entry)).foldl
            (fun table pair => table.insert pair.1 pair.2) table
          resolved := false } := by
    intro entries
    induction entries with
    | nil => exact fun _ => rfl
    | cons entry entries ih => exact fun table => ih (table.insert entry.name entry)
  exact hfold entries .empty

/-! ## Outer classes -/

theorem lacksOuter_eq (entry : ClassEntry) :
    lacksOuter entry = (entry.declaration.name.contains '$' &&
      entry.declaration.outerClass.isNone && !entry.declaration.innerClasses.any fun inner =>
        inner.1 == entry.declaration.name && inner.2.isSome) := by
  simp only [ClassEntry.declaration, List.any_map]
  rfl

/-- Which outer class is missing follows from what the class declares and from the names in the
graph. -/
theorem missingOuter?_congr (hnames : graph.names = again.names) {entry other : ClassEntry}
    (h : entry.declaration = other.declaration) :
    graph.missingOuter? entry = again.missingOuter? other := by
  have hcontains : graph.contains = again.contains := by
    funext name
    rw [contains_eq, contains_eq, hnames]
  have hname : entry.name = other.name := congrArg Declaration.name h
  rw [missingOuter?, missingOuter?, lacksOuter_eq, lacksOuter_eq, h, hname, hcontains]

/-- A class with the outer class that it lacks, if it lacks one. -/
def repaired (graph : ClassGraph) (entry : ClassEntry) : ClassEntry :=
  match graph.missingOuter? entry with
  | some outer => { entry with node := { entry.node with outerClass := some outer } }
  | none => entry

theorem repaired_of_eq_none {entry : ClassEntry} (h : graph.missingOuter? entry = none) :
    graph.repaired entry = entry := by
  rw [repaired, h]

@[simp]
theorem name_repaired (graph : ClassGraph) (entry : ClassEntry) :
    (graph.repaired entry).name = entry.name := by
  rw [repaired]
  split <;> rfl

@[simp]
theorem isMain_repaired (graph : ClassGraph) (entry : ClassEntry) :
    (graph.repaired entry).isMain = entry.isMain := by
  rw [repaired]
  split <;> rfl

/-- A class that has been given its outer class does not lack one. -/
theorem missingOuter?_repaired (graph : ClassGraph) (entry : ClassEntry) :
    graph.missingOuter? (graph.repaired entry) = none := by
  rw [repaired]
  split
  · rename_i outer houter
    simp [missingOuter?, lacksOuter]
  · rename_i hnone
    exact hnone

theorem repairOuter_of_missingOuter? (h : ∀ entry ∈ graph.toList, graph.missingOuter? entry = none) :
    graph.repairOuter.1 = graph := by
  have hcount : graph.toList.countP (fun entry => (graph.missingOuter? entry).isSome) = 0 := by
    rw [List.countP_eq_zero]
    intro entry hentry
    simp [h entry hentry]
  rw [repairOuter, if_pos hcount]

theorem toList_repairOuter (graph : ClassGraph) :
    graph.repairOuter.1.toList = graph.toList.map graph.repaired := by
  by_cases h : graph.toList.countP (fun entry => (graph.missingOuter? entry).isSome) = 0
  · have hwhole : ∀ entry ∈ graph.toList, graph.missingOuter? entry = none := by
      simpa [List.countP_eq_zero] using h
    rw [repairOuter_of_missingOuter? hwhole]
    exact ((List.map_congr_left fun entry hentry =>
      repaired_of_eq_none (hwhole entry hentry)).trans (List.map_id' _)).symm
  · rw [repairOuter, if_neg h]
    exact toList_map _ graph

theorem names_repairOuter (graph : ClassGraph) : graph.repairOuter.1.names = graph.names := by
  rw [repairOuter]
  dsimp only
  split
  · rfl
  · exact names_map _ graph

/-- No class lacks an outer class after the repair. -/
theorem missingOuter?_repairOuter (graph : ClassGraph) :
    ∀ entry ∈ graph.repairOuter.1.toList, graph.repairOuter.1.missingOuter? entry = none := by
  intro entry hentry
  rw [toList_repairOuter] at hentry
  obtain ⟨before, -, rfl⟩ := List.mem_map.1 hentry
  rw [missingOuter?_congr (names_repairOuter graph) rfl, missingOuter?_repaired]

end JvmArchive.ClassGraph
