import JvmArchive.Mapping.Strategy
import JvmArchive.Proofs.Mapping.ClassNames
import JvmArchive.Proofs.Mapping.ClassOrder

/-!
# Inner classes are named below their outer classes

A generated store gives every class that is no main class a counted name, and an inner class stands below
the name that its outer class has in the end: by the time the inner class is named its outer class has
been, and what has been said of a class stays.
-/
namespace JvmArchive.Mapping

open ClassGraph Store

section
variable {σ : Type} (source : NameSource σ) (reserved : List String) (graph : ClassGraph)

/-- The store and the names once some classes have been declared one after the other. -/
def declare (places : List (ClassId × ClassEntry)) (state : Store × σ) : Store × σ :=
  places.foldl (fun state place => mapDeclarations source reserved graph state place.2) state

variable {source reserved graph}

theorem implied_declare {places : List (ClassId × ClassEntry)} {state : Store × σ}
    (himplied : state.1.implied = []) : (declare source reserved graph places state).1.implied = [] :=
  List.foldlRecOn places _ (motive := fun after : Store × σ => after.1.implied = []) himplied
    fun after hafter place _ => (classes_mapDeclarations source reserved graph after place.2).2.trans
      (implied_mapClassName source hafter place.2)

/-- Naming a class says nothing about classes of other names. -/
theorem get?_mapClassName_of_ne {state : Store × σ} (himplied : state.1.implied = [])
    {entry : ClassEntry} {name : String} (hne : entry.name ≠ name) :
    (mapClassName source graph entry state).1.classes.get? name = state.1.classes.get? name := by
  cases hmain : entry.isMain with
  | true => rw [mapClassName_of_isMain source graph state hmain]
  | false =>
    obtain ⟨mapping, -, hstate⟩ := exists_mapClassName_eq source graph state hmain
    rw [hstate, mapClass_eq himplied]
    split
    · rfl
    · rw [Table.get?_insert, if_neg hne]

theorem get?_declare_of_ne {places : List (ClassId × ClassEntry)} {state : Store × σ}
    (himplied : state.1.implied = []) {name : String} (hne : ∀ place ∈ places, place.2.name ≠ name) :
    (declare source reserved graph places state).1.classes.get? name = state.1.classes.get? name := by
  induction places generalizing state with
  | nil => rfl
  | cons place places ih =>
    rw [List.forall_mem_cons] at hne
    obtain ⟨hclasses, hsame⟩ := classes_mapDeclarations source reserved graph state place.2
    rw [declare, List.foldl_cons, ← declare,
      ih (hsame.trans (implied_mapClassName source himplied place.2)) hne.2, hclasses,
      get?_mapClassName_of_ne himplied hne.1]

end

/-! ## Counted names -/

/-- Whether a class gets a new name. -/
def isRenamed (place : ClassId × ClassEntry) : Bool := !place.2.isMain

/-- How many classes are named before a class. -/
def namedBefore (graph : ClassGraph) (id : ClassId) : Nat :=
  ((classOrder graph).takeWhile (·.1 ≠ id)).countP isRenamed

variable {reserved : List String} {graph : ClassGraph} {state : Store × Counters}

theorem count_mapClassName (place : ClassId × ClassEntry) :
    (mapClassName Counters.source graph place.2 state).2.classes =
      state.2.classes + if isRenamed place then 1 else 0 := by
  cases hmain : place.2.isMain with
  | true => simp [mapClassName_of_isMain Counters.source graph state hmain, isRenamed, hmain]
  | false =>
    obtain ⟨mapping, -, hstate⟩ := exists_mapClassName_eq Counters.source graph state hmain
    rw [hstate, isRenamed, hmain]
    rfl

/-- Classes are counted one by one, main classes left out. -/
theorem count_declare (places : List (ClassId × ClassEntry)) :
    (declare Counters.source reserved graph places state).2.classes =
      state.2.classes + places.countP isRenamed := by
  induction places generalizing state with
  | nil => rfl
  | cons place places ih =>
    rw [declare, List.foldl_cons, ← declare, ih, count_mapDeclarations, count_mapClassName,
      List.countP_cons]
    omega

/-- The counted name of a class that is named for the first time, below its outer class if it has one. -/
theorem get?_mapClassName (himplied : state.1.implied = []) {entry : ClassEntry}
    (hmain : entry.isMain = false) (hnew : state.1.classes.get? entry.name = none) :
    (mapClassName Counters.source graph entry state).1.classes.get? entry.name =
      some (match entry.outer.bind graph.nameOf? with
        | some outer => state.1.mappedName outer ++ "$" ++ nthName state.2.classes
        | none => nthName state.2.classes) := by
  unfold mapClassName
  dsimp only
  rw [hmain, if_neg Bool.false_ne_true, mapClass_eq himplied, hnew, if_neg (by simp),
    Table.get?_insert, if_pos rfl]
  rfl

theorem nodup_names_classOrder (hkeeps : graph.KeepsNames) :
    ((classOrder graph).map (·.2.name)).Nodup := by
  have hnames : graph.enumerate.map (·.2.name) = graph.toList.map (·.name) :=
    List.ext_getElem? fun index => by simp [enumerate]; rfl
  rw [((classOrder_perm graph).map _).nodup_iff, hnames]
  exact hkeeps.nodup

/-- A class that is no main class keeps the name that it gets when the classes before it have been
declared, and so do these. -/
theorem get?_declareAll (hkeeps : graph.KeepsNames) (counters : Counters)
    {before behind : List (ClassId × ClassEntry)} {place : ClassId × ClassEntry}
    (hsplit : classOrder graph = before ++ place :: behind) (hmain : place.2.isMain = false)
    (houter : ∀ outer ∈ place.2.outer.bind graph.nameOf?, outer ∈ before.map (·.2.name)) :
    (declareAll Counters.source reserved graph counters).1.classes.get? place.2.name =
      some (match place.2.outer.bind graph.nameOf? with
        | some outer =>
          (declareAll Counters.source reserved graph counters).1.mappedName outer ++ "$" ++
            nthName (counters.classes + before.countP isRenamed)
        | none => nthName (counters.classes + before.countP isRenamed)) := by
  let reached := declare Counters.source reserved graph before (.empty .applying, counters)
  have hall : declareAll Counters.source reserved graph counters =
      declare Counters.source reserved graph (place :: behind) reached := by
    rw [declareAll, hsplit, List.foldl_append]
    rfl
  have himplied : reached.1.implied = [] := implied_declare rfl
  have hcount : reached.2.classes = counters.classes + before.countP isRenamed := count_declare before
  have hnodup := nodup_names_classOrder hkeeps
  rw [hsplit, List.map_append, List.nodup_append] at hnodup
  obtain ⟨-, hrest, hapart⟩ := hnodup
  have hbehind := (List.nodup_cons.1 hrest).1
  have hnew : reached.1.classes.get? place.2.name = none :=
    get?_declare_of_ne rfl fun other hother =>
      hapart _ (List.mem_map_of_mem hother) _ (List.mem_map_of_mem List.mem_cons_self)
  have hkept : ∀ outer ∈ before.map (·.2.name),
      (declareAll Counters.source reserved graph counters).1.mappedName outer =
        reached.1.mappedName outer := by
    intro outer hmem
    rw [mappedName, mappedName, hall, get?_declare_of_ne himplied fun other hother heq =>
      hapart outer hmem _ (List.mem_map_of_mem hother) heq.symm]
  obtain ⟨hclasses, hsame⟩ := classes_mapDeclarations Counters.source reserved graph reached place.2
  have hget : (declareAll Counters.source reserved graph counters).1.classes.get? place.2.name =
      (mapClassName Counters.source graph place.2 reached).1.classes.get? place.2.name := by
    rw [hall, declare, List.foldl_cons, ← declare, ← hclasses]
    exact get?_declare_of_ne (hsame.trans (implied_mapClassName _ himplied _)) fun other hother heq =>
      hbehind (List.mem_map.2 ⟨other, hother, heq⟩)
  rw [hget, get?_mapClassName himplied hmain hnew, hcount]
  cases hname : place.2.outer.bind graph.nameOf? with
  | none => rfl
  | some outer => simp only [hkept outer (houter outer hname)]

/-! ## Numbers -/

theorem nodup_ids_classOrder (graph : ClassGraph) : ((classOrder graph).map (·.1)).Nodup := by
  have hids : graph.enumerate.map (·.1) = (graph.toList.zipIdx.map (·.2)).map ClassId.mk := by
    rw [enumerate, List.map_map, List.map_map]
    rfl
  have hinj : Function.Injective ClassId.mk := fun a b h => ClassId.mk.inj h
  rw [((classOrder_perm graph).map _).nodup_iff, hids, List.zipIdx_map_snd]
  exact (List.nodup_range' _).map hinj

theorem namedBefore_of_split {before behind : List (ClassId × ClassEntry)}
    {place : ClassId × ClassEntry} (hsplit : classOrder graph = before ++ place :: behind) :
    namedBefore graph place.1 = before.countP isRenamed := by
  have hnodup := nodup_ids_classOrder graph
  rw [hsplit, List.map_append, List.nodup_append] at hnodup
  have hother : ∀ other ∈ before, decide (other.1 ≠ place.1) = true := fun other hother => by
    simpa using hnodup.2.2 _ (List.mem_map_of_mem hother) _ (List.mem_map_of_mem List.mem_cons_self)
  rw [namedBefore, hsplit, List.takeWhile_append_of_pos hother]
  simp

/-- A class that gets a name is counted before the next one is named. -/
theorem namedBefore_lt {a b : ClassId × ClassEntry} {before between behind : List (ClassId × ClassEntry)}
    (hsplit : classOrder graph = before ++ a :: (between ++ b :: behind)) (hmain : a.2.isMain = false) :
    namedBefore graph a.1 < namedBefore graph b.1 := by
  have hsplit' : classOrder graph = (before ++ a :: between) ++ b :: behind := by
    rw [hsplit, List.append_assoc, List.cons_append]
  rw [namedBefore_of_split hsplit, namedBefore_of_split hsplit', List.countP_append, List.countP_cons,
    if_pos (by simp [isRenamed, hmain])]
  omega

/-- Classes that get names have different numbers. -/
theorem eq_of_namedBefore_eq {a b : ClassId × ClassEntry} (ha : a ∈ graph.enumerate)
    (hb : b ∈ graph.enumerate) (hmain : a.2.isMain = false) (hmain' : b.2.isMain = false)
    (h : namedBefore graph a.1 = namedBefore graph b.1) : a = b := by
  obtain ⟨before, behind, hsplit⟩ := List.append_of_mem (mem_classOrder ha)
  have hmem := mem_classOrder hb
  rw [hsplit, List.mem_append, List.mem_cons] at hmem
  rcases hmem with hbefore | rfl | hbehind
  · obtain ⟨front, between, rfl⟩ := List.append_of_mem hbefore
    have hsplit' : classOrder graph = front ++ b :: (between ++ a :: behind) := by
      rw [hsplit, List.append_assoc, List.cons_append]
    have hlt := namedBefore_lt hsplit' hmain'
    omega
  · rfl
  · obtain ⟨between, rest, rfl⟩ := List.append_of_mem hbehind
    have hlt := namedBefore_lt hsplit hmain
    omega

/-! ## Generated stores -/

/-- The name of a class in a generated store, told from the one that its outer class has there. -/
theorem get?_classes_generated {declared : ClassGraph} (hkeeps : declared.KeepsNames)
    (hnested : declared.resolve.ProperlyNested) (reserved : List String) (counters : Counters)
    {id : ClassId} {entry : ClassEntry} (hentry : declared.resolve.at? id = some entry)
    (hmain : entry.isMain = false) :
    let graph := declared.resolve
    let store := generated Counters.source reserved graph counters
    match entry.outer with
    | none => store.classes.get? entry.name = some (nthName (counters.classes + namedBefore graph id))
    | some outer => ∃ around, graph.at? outer = some around ∧
        store.classes.get? entry.name = some (store.mappedName around.name ++ "$" ++
          nthName (counters.classes + namedBefore graph id)) := by
  obtain ⟨before, behind, hsplit⟩ := List.append_of_mem (mem_classOrder (mem_enumerate_of_at? hentry))
  have hnumber := namedBefore_of_split hsplit
  dsimp only [mappedName] at hnumber ⊢
  rw [classes_generated, hnumber]
  cases houter : entry.outer with
  | none =>
    rw [get?_declareAll hkeeps.resolve counters hsplit hmain (by simp [houter])]
    simp [houter]
  | some outer =>
    obtain ⟨around, haround, hmem⟩ := outer_mem_before hnested hsplit houter
    have hname : entry.outer.bind declared.resolve.nameOf? = some around.name := by
      rw [houter, Option.bind_some, hkeeps.resolve.nameOf?, haround, Option.map_some]
    have hbefore : ∀ name ∈ entry.outer.bind declared.resolve.nameOf?,
        name ∈ before.map (·.2.name) := by
      rw [hname]
      rintro name ⟨⟩
      exact List.mem_map_of_mem hmem
    refine ⟨around, haround, ?_⟩
    rw [get?_declareAll hkeeps.resolve counters hsplit hmain hbefore]
    simp only [hname, mappedName]

/-- In a resolved graph whose classes stand under their names and do not lie in each other in a circle,
every class is named once, behind its outer class. A class that is no main class gets the name that its
number counts, below the name that its outer class has in the end, and no two classes get one number. -/
theorem classes_generate_alphabetic {ρ : Type} (words : WordSource ρ) (declared : ClassGraph)
    (hkeeps : declared.KeepsNames) (hnested : declared.resolve.ProperlyNested) (reserved : List String)
    (counters : Counters) :
    let graph := declared.resolve
    (classOrder graph).Perm graph.enumerate ∧
    (∀ before place behind, classOrder graph = before ++ place :: behind →
      ∀ outer ∈ place.2.outer, outer ∈ before.map (·.1)) ∧
    (∃ store names,
      generate (Naming.source words) reserved graph (.alphabetic counters) = .ok (store, names) ∧
      ∀ id entry, graph.at? id = some entry → entry.isMain = false →
        match entry.outer with
        | none => store.classes.get? entry.name = some (nthName (counters.classes + namedBefore graph id))
        | some outer => ∃ around, graph.at? outer = some around ∧
            store.classes.get? entry.name = some (store.mappedName around.name ++ "$" ++
              nthName (counters.classes + namedBefore graph id))) ∧
    ∀ id other entry entry', graph.at? id = some entry → graph.at? other = some entry' →
      entry.isMain = false → entry'.isMain = false →
      nthName (counters.classes + namedBefore graph id) =
        nthName (counters.classes + namedBefore graph other) → id = other := by
  refine ⟨classOrder_perm _, fun before place behind hsplit outer houter => ?_,
    ⟨_, _, generate_eq_ok _ _ _ _ rfl, fun id entry hentry hmain => ?_⟩,
    fun id other entry entry' hentry hentry' hmain hmain' hname => ?_⟩
  · obtain ⟨entry, -, hmem⟩ := outer_mem_before hnested hsplit houter
    exact List.mem_map_of_mem hmem
  · rw [(embeds_alphabetic words).generated_eq]
    exact get?_classes_generated hkeeps hnested reserved counters hentry hmain
  · have hnumber := Nat.add_left_cancel (nthName_inj hname)
    exact congrArg Prod.fst (eq_of_namedBefore_eq (mem_enumerate_of_at? hentry)
      (mem_enumerate_of_at? hentry') hmain hmain' hnumber)

/-- Three classes, each inside the next one: the first by its enclosing method, the second by its own
record. -/
def boxedGraph : ClassGraph :=
  .ofList
    [.ofNode { access := 0, name := "p/A$B$1", outerClass := some "p/A$B" },
      .ofNode
        { access := 0, name := "p/A$B"
          innerClasses :=
            [{ name := "p/A$B", outerName := some "p/A", innerName := some "B", access := 0 }] },
      .ofNode { access := 0, name := "p/A" }]

theorem classes_generate_boxedGraph :
    boxedGraph.KeepsNames ∧ boxedGraph.resolve.ProperlyNested ∧
    ∃ store names,
      generate Namer.source [] boxedGraph.resolve (.alphabetic {}) = .ok (store, names) ∧
      ∃ l m n, store.classes.get? "p/A$B$1" =
        some (nthName l ++ "$" ++ nthName m ++ "$" ++ nthName n) := by
  have hnested : boxedGraph.resolve.ProperlyNested :=
    .of_rank (fun id => 3 - id.index) (by decide +kernel)
  have hkeeps : boxedGraph.KeepsNames := by decide +kernel
  obtain ⟨-, -, ⟨store, names, hstore, hmapped⟩, -⟩ :=
    classes_generate_alphabetic generatorWords boxedGraph hkeeps hnested [] {}
  refine ⟨hkeeps, hnested, store, names, hstore, ?_⟩
  obtain ⟨l, htop⟩ : ∃ n, store.classes.get? "p/A" = some (nthName n) :=
    ⟨_, hmapped ⟨2⟩ _ rfl rfl⟩
  obtain ⟨m, hmiddle⟩ : ∃ n, store.classes.get? "p/A$B" =
      some (store.mappedName "p/A" ++ "$" ++ nthName n) := by
    obtain ⟨_, ⟨⟩, hname⟩ := hmapped ⟨1⟩ _ rfl rfl
    exact ⟨_, hname⟩
  obtain ⟨n, hbottom⟩ : ∃ n, store.classes.get? "p/A$B$1" =
      some (store.mappedName "p/A$B" ++ "$" ++ nthName n) := by
    obtain ⟨_, ⟨⟩, hname⟩ := hmapped ⟨0⟩ _ rfl rfl
    exact ⟨_, hname⟩
  rw [mappedName, htop, Option.getD_some] at hmiddle
  rw [mappedName, hmiddle, Option.getD_some] at hbottom
  exact ⟨l, m, n, hbottom⟩

end JvmArchive.Mapping
