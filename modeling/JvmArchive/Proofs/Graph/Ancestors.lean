import JvmArchive.Proofs.Graph.FieldSearch
import Mathlib.Data.List.Sort
import Mathlib.Logic.Relation

/-!
# Ancestors are what links lead to

An ascent takes links upwards, one after the other. The ancestors of a class are the ends of all its
ascents that come to no class twice, in the order in which a depth-first walk makes the choices. On every
graph, circular ones included, these are all the other classes that links lead to.
-/
namespace JvmArchive

/-! ## Ascents -/

/-- Links taken upwards, each given by its place among the links of a class and the class above. -/
abbrev Ascent : Type := List (Nat × ClassId)

namespace Ascent

/-- The choices made on the way. -/
def choices (ascent : Ascent) : List Nat := ascent.map (·.1)

/-- The classes on the way, the one at the start included. -/
def classes (start : ClassId) (ascent : Ascent) : List ClassId := start :: ascent.map (·.2)

/-- The class at the end. -/
def top (start : ClassId) : Ascent → ClassId
  | [] => start
  | (_, above) :: rest => top above rest

/-- Whether every step takes a link of the class that it starts from. -/
def Follows (links : ClassId → List ClassId) (start : ClassId) : Ascent → Prop
  | [] => True
  | (choice, above) :: rest => (links start)[choice]? = some above ∧ Follows links above rest

variable {links : ClassId → List ClassId} {start above : ClassId} {ascent : Ascent}

theorem top_mem_classes (start : ClassId) (ascent : Ascent) : ascent.top start ∈ ascent.classes start := by
  induction ascent generalizing start with
  | nil => exact List.mem_cons_self
  | cons step rest ih => exact List.mem_cons_of_mem _ (ih step.2)

theorem top_mem_map {start : ClassId} {ascent : Ascent} (h : ascent ≠ []) :
    ascent.top start ∈ ascent.map (·.2) := by
  cases ascent with
  | nil => exact absurd rfl h
  | cons step rest => exact top_mem_classes step.2 rest

theorem Follows.reaches (h : ascent.Follows links start) :
    Relation.ReflTransGen (fun below above => above ∈ links below) start (ascent.top start) := by
  induction ascent generalizing start with
  | nil => exact .refl
  | cons step rest ih => exact .head (List.mem_of_getElem? h.1) (ih h.2)

theorem Follows.forall_classes {P : ClassId → Prop} (h : ascent.Follows links start) (hstart : P start)
    (hlinks : ∀ id, ∀ above ∈ links id, P above) : ∀ id ∈ ascent.classes start, P id := by
  induction ascent generalizing start with
  | nil => simpa [classes] using hstart
  | cons step rest ih =>
    have habove : P step.2 := hlinks start step.2 (List.mem_of_getElem? h.1)
    exact List.forall_mem_cons.2 ⟨hstart, ih h.2 habove⟩

/-- What is left of an ascent from a class on its way has the same end, and comes to no class twice if
the whole one does not. -/
theorem Follows.exists_of_mem (h : ascent.Follows links start) (hsimple : (ascent.classes start).Nodup)
    (habove : above ∈ ascent.classes start) :
    ∃ rest : Ascent, rest.Follows links above ∧ (rest.classes above).Nodup ∧
      rest.top above = ascent.top start := by
  induction ascent generalizing start with
  | nil =>
    obtain rfl : above = start := by simpa [classes] using habove
    exact ⟨[], h, hsimple, rfl⟩
  | cons step rest ih =>
    by_cases hstart : above = start
    · subst hstart
      exact ⟨step :: rest, h, hsimple, rfl⟩
    · have hrest : above ∈ classes step.2 rest := by simpa [classes, hstart] using habove
      exact ih h.2 (List.nodup_cons.1 hsimple).2 hrest

/-- Wherever links lead, an ascent leads that comes to no class twice. -/
theorem exists_simple (h : Relation.ReflTransGen (fun below above => above ∈ links below) start above) :
    ∃ ascent : Ascent, ascent.Follows links start ∧ (ascent.classes start).Nodup ∧
      ascent.top start = above := by
  induction h using Relation.ReflTransGen.head_induction_on with
  | refl => exact ⟨[], trivial, by simp [classes], rfl⟩
  | @head start next hlink _ ih =>
    obtain ⟨rest, hrest, hsimple, htop⟩ := ih
    by_cases hstart : start ∈ rest.classes next
    · obtain ⟨shorter, hshorter, hsimple', htop'⟩ := hrest.exists_of_mem hsimple hstart
      exact ⟨shorter, hshorter, hsimple', htop'.trans htop⟩
    · obtain ⟨choice, hchoice⟩ := List.getElem?_of_mem hlink
      exact ⟨(choice, next) :: rest, ⟨hchoice, hrest⟩, List.nodup_cons.2 ⟨hstart, hsimple⟩, htop⟩

/-- Whether a list holds the ascents from a class that lead elsewhere and come to no class twice, in the
order of a depth-first walk: an ascent comes before those that go on from it, and of two choices at one
class the first comes with all that follows it. -/
structure IsWalk (links : ClassId → List ClassId) (start : ClassId) (ascents : List Ascent) : Prop where
  mem_iff : ∀ ascent, ascent ∈ ascents ↔
    ascent ≠ [] ∧ ascent.Follows links start ∧ (ascent.classes start).Nodup
  ordered : ascents.Pairwise fun a b => a.choices < b.choices

/-- There is one such list at most. -/
theorem IsWalk.eq {a b : List Ascent} (ha : IsWalk links start a) (hb : IsWalk links start b) : a = b := by
  have : Std.Irrefl fun a b : Ascent => a.choices < b.choices := ⟨fun a => List.lt_irrefl a.choices⟩
  have : Std.Antisymm fun a b : Ascent => a.choices < b.choices :=
    ⟨fun a _ hab hba => absurd (List.lt_trans hab hba) (List.lt_irrefl a.choices)⟩
  exact ha.ordered.eq_of_mem_iff hb.ordered fun ascent => by rw [ha.mem_iff, hb.mem_iff]

/-- An ascent that comes to no class twice is shorter than a graph that has all the classes on its way. -/
theorem length_lt {size : Nat} (hsimple : (ascent.classes start).Nodup)
    (hsize : ∀ id ∈ ascent.classes start, id.index < size) : ascent.length < size := by
  have hle := ClassId.length_le_of_nodup hsimple hsize
  simp only [classes, List.length_cons, List.length_map] at hle
  omega

end Ascent

namespace ClassGraph

variable {entries : List ClassEntry} {graph : ClassGraph}

/-! ## The walk -/

/-- The ascents that the walk to the ancestors of a class makes. -/
def ascentsFrom (entries : List ClassEntry) (path : List ClassId) (id : ClassId) : List Ascent :=
  (parentsAt entries id).zipIdx.flatMap fun (parent, choice) =>
    if path.contains parent then []
    else if parent.index < entries.length then
      [(choice, parent)] :: (ascentsFrom entries (parent :: path) parent).map ((choice, parent) :: ·)
    else [[(choice, parent)]]
termination_by unvisited entries.length path
decreasing_by exact unvisited_cons_lt (by assumption) (by simp_all)

/-- The ancestors are the ends of these ascents. -/
theorem ancestorsFrom_eq_map_top (path : List ClassId) (id : ClassId) :
    ancestorsFrom entries path id = (ascentsFrom entries path id).map (Ascent.top id) := by
  induction path, id using ancestorsFrom.induct entries with
  | case1 path id ih =>
    rw [ancestorsFrom, ascentsFrom, List.map_flatMap]
    conv_lhs => rw [← List.zipIdx_map_fst 0 (parentsAt entries id), List.flatMap_map]
    congr 1
    funext link
    obtain ⟨parent, choice⟩ := link
    dsimp only
    split
    · rfl
    · rename_i hpath
      split
      · rename_i hlt
        rw [ih parent hpath hlt]
        simp [Ascent.top, Function.comp_def]
      · rfl

/-- The ascents through one parent. -/
def ascentsThrough (entries : List ClassEntry) (path : List ClassId) (link : ClassId × Nat) :
    List Ascent :=
  if path.contains link.1 then []
  else ([] :: ascentsFrom entries (link.1 :: path) link.1).map ((link.2, link.1) :: ·)

theorem ascentsFrom_of_le {id : ClassId} (h : entries.length ≤ id.index) (path : List ClassId) :
    ascentsFrom entries path id = [] := by
  rw [ascentsFrom, parentsAt, List.getElem?_eq_none h]
  rfl

/-- From a position without a class no ascent goes on, so it needs no case of its own. -/
theorem ascentsFrom_eq (path : List ClassId) (id : ClassId) :
    ascentsFrom entries path id =
      (parentsAt entries id).zipIdx.flatMap (ascentsThrough entries path) := by
  rw [ascentsFrom]
  congr 1
  funext link
  obtain ⟨parent, choice⟩ := link
  unfold ascentsThrough
  by_cases hlt : parent.index < entries.length
  · simp [hlt]
  · simp [hlt, ascentsFrom_of_le (Nat.not_lt.1 hlt)]

theorem nil_notMem_ascentsFrom (path : List ClassId) (id : ClassId) :
    [] ∉ ascentsFrom entries path id := by
  simp only [ascentsFrom_eq, ascentsThrough, List.mem_flatMap, not_exists, not_and]
  intro link _
  split <;> simp

theorem cons_mem_ascentsFrom_iff {path : List ClassId} {id parent : ClassId} {choice : Nat}
    {rest : Ascent} :
    (choice, parent) :: rest ∈ ascentsFrom entries path id ↔
      (parentsAt entries id)[choice]? = some parent ∧ parent ∉ path ∧
        (rest = [] ∨ rest ∈ ascentsFrom entries (parent :: path) parent) := by
  rw [ascentsFrom_eq, List.mem_flatMap]
  constructor
  · rintro ⟨⟨above, place⟩, hlink, hmem⟩
    unfold ascentsThrough at hmem
    split at hmem
    · simp at hmem
    · rename_i hpath
      obtain ⟨shorter, hshorter, heq⟩ := List.mem_map.1 hmem
      simp only [List.cons.injEq, Prod.mk.injEq] at heq
      obtain ⟨⟨rfl, rfl⟩, rfl⟩ := heq
      exact ⟨List.mem_zipIdx_iff_getElem?.1 hlink, by simpa using hpath, List.mem_cons.1 hshorter⟩
  · rintro ⟨hlink, hpath, hrest⟩
    refine ⟨(parent, choice), List.mem_zipIdx_iff_getElem?.2 hlink, ?_⟩
    rw [ascentsThrough, if_neg (by simpa using hpath)]
    exact List.mem_map.2 ⟨rest, List.mem_cons.2 hrest, rfl⟩

/-- They are the ascents that come to no class twice and to none on the path. -/
theorem mem_ascentsFrom {path : List ClassId} {id : ClassId} {ascent : Ascent} :
    ascent ∈ ascentsFrom entries path id ↔
      ascent ≠ [] ∧ Ascent.Follows (parentsAt entries) id ascent ∧ (ascent.map (·.2)).Nodup ∧
        ∀ above ∈ ascent.map (·.2), above ∉ path := by
  induction ascent generalizing path id with
  | nil => simp [nil_notMem_ascentsFrom]
  | cons step rest ih =>
    obtain ⟨choice, parent⟩ := step
    have hrest : (rest = [] ∨ rest ∈ ascentsFrom entries (parent :: path) parent) ↔
        Ascent.Follows (parentsAt entries) parent rest ∧ (rest.map (·.2)).Nodup ∧
          ∀ above ∈ rest.map (·.2), above ∉ parent :: path := by
      rw [ih]
      by_cases hnil : rest = [] <;> simp [hnil, Ascent.Follows]
    rw [cons_mem_ascentsFrom_iff, hrest, Ascent.Follows, List.map_cons, List.nodup_cons,
      List.forall_mem_cons]
    simp only [List.mem_cons, not_or]
    constructor
    · rintro ⟨hlink, hnew, hfollows, hnodup, hall⟩
      exact ⟨by simp, ⟨hlink, hfollows⟩, ⟨fun hmem => (hall parent hmem).1 rfl, hnodup⟩, hnew,
        fun above habove => (hall above habove).2⟩
    · rintro ⟨-, ⟨hlink, hfollows⟩, ⟨hparent, hnodup⟩, hnew, hall⟩
      exact ⟨hlink, hnew, hfollows, hnodup, fun above habove =>
        ⟨fun heq => hparent (heq ▸ habove), hall above habove⟩⟩

/-- An ascent through a parent starts with the choice of it. -/
theorem choices_of_mem_ascentsThrough {path : List ClassId} {link : ClassId × Nat} {ascent : Ascent}
    (h : ascent ∈ ascentsThrough entries path link) :
    ∃ rest, ascent.choices = link.2 :: rest := by
  unfold ascentsThrough at h
  split at h
  · simp at h
  · obtain ⟨rest, -, rfl⟩ := List.mem_map.1 h
    exact ⟨Ascent.choices rest, rfl⟩

/-- The walk makes its choices in order. -/
theorem pairwise_ascentsFrom (path : List ClassId) (id : ClassId) :
    (ascentsFrom entries path id).Pairwise fun a b => a.choices < b.choices := by
  induction path, id using ancestorsFrom.induct entries with
  | case1 path id ih =>
    rw [ascentsFrom_eq, List.pairwise_flatMap]
    constructor
    · -- through one parent: the parent itself, then the walk above it
      rintro ⟨parent, choice⟩ hlink
      unfold ascentsThrough
      split
      · exact List.Pairwise.nil
      · rename_i hpath
        have hrest : (ascentsFrom entries (parent :: path) parent).Pairwise
            fun a b => a.choices < b.choices := by
          by_cases hlt : parent.index < entries.length
          · exact ih parent hpath hlt
          · rw [ascentsFrom_of_le (Nat.not_lt.1 hlt)]
            exact List.Pairwise.nil
        refine List.pairwise_map.2 (List.pairwise_cons.2 ⟨fun ascent hascent => ?_, ?_⟩)
        · cases ascent with
          | nil => exact absurd hascent (nil_notMem_ascentsFrom _ _)
          | cons step rest => simp [Ascent.choices]
        · exact hrest.imp fun h => List.cons_lt_cons_iff.2 (.inr ⟨rfl, h⟩)
    · -- through two parents: the choice of the parent decides
      have hchoices : (parentsAt entries id).zipIdx.Pairwise fun a b => a.2 < b.2 := by
        rw [← List.pairwise_map (f := Prod.snd) (R := (· < ·)), List.zipIdx_map_snd]
        exact List.pairwise_lt_range' 1
      refine hchoices.imp fun {a b} hlt x hx y hy => ?_
      obtain ⟨xs, hxs⟩ := choices_of_mem_ascentsThrough hx
      obtain ⟨ys, hys⟩ := choices_of_mem_ascentsThrough hy
      rw [hxs, hys]
      exact List.cons_lt_cons_iff.2 (.inl hlt)

theorem isWalk_ascentsFrom (id : ClassId) :
    Ascent.IsWalk (parentsAt entries) id (ascentsFrom entries [id] id) where
  mem_iff ascent := by
    rw [mem_ascentsFrom, Ascent.classes, List.nodup_cons]
    constructor
    · rintro ⟨hne, hfollows, hnodup, hpath⟩
      exact ⟨hne, hfollows, fun hid => hpath id hid (List.mem_singleton_self id), hnodup⟩
    · rintro ⟨hne, hfollows, hid, hnodup⟩
      exact ⟨hne, hfollows, hnodup, fun above habove heq => hid (List.mem_singleton.1 heq ▸ habove)⟩
  ordered := pairwise_ascentsFrom [id] id

/-! ## Links by name -/

/-- The classes that a class names right above it, as far as the graph has them: its superclass, then
its interfaces. -/
def namedAbove (graph : ClassGraph) (id : ClassId) : List ClassId :=
  match graph.at? id with
  | some entry => (entry.node.superName.toList ++ entry.node.interfaces).filterMap graph.idOf?
  | none => []

theorem name_of_lookUp {name : String} {id : ClassId} (h : lookUp entries name = some id) :
    ∃ entry, entries[id.index]? = some entry ∧ entry.name = name := by
  obtain ⟨index, hindex, rfl⟩ := Option.map_eq_some_iff.1 h
  obtain ⟨place, hplace, rfl⟩ := Option.map_eq_some_iff.1 hindex
  obtain ⟨hlt, hname, -⟩ := List.findIdx?_eq_some_iff_getElem.1 hplace
  rw [List.getElem_reverse, beq_iff_eq] at hname
  exact ⟨_, List.getElem?_eq_getElem _, hname⟩

theorem lookUp_eq_none_iff {name : String} :
    lookUp entries name = none ↔ ∀ entry ∈ entries, entry.name ≠ name := by
  simp [lookUp, lastIndexWhere?]

/-- Where every class stands under its own name, a lookup finds the class under the name. -/
theorem KeepsNames.lookUp_eq (h : graph.KeepsNames) : lookUp graph.toList = graph.idOf? := by
  funext name
  cases hfound : lookUp graph.toList name with
  | some id =>
    obtain ⟨entry, hentry, rfl⟩ := name_of_lookUp hfound
    rw [h.idOf? (by rw [at?_eq_getElem?]; exact hentry)]
  | none =>
    rw [lookUp_eq_none_iff] at hfound
    have hnames : ∀ key ∈ graph.names, key ≠ name := by
      rw [h]
      simpa using hfound
    symm
    simpa [ClassGraph.idOf?, Table.indexOf?, names, Table.keys] using hnames

/-- The links of a resolved graph are those that the classes name. -/
theorem KeepsNames.parentsAt_resolve (h : graph.KeepsNames) :
    parentsAt graph.resolve.toList = graph.namedAbove := by
  funext id
  rw [toList_resolve, parentsAt, namedAbove, at?_eq_getElem?]
  cases hentry : (linkAll graph.toList)[id.index]? with
  | none =>
    rw [List.getElem?_eq_none_iff, length_linkAll, ← List.getElem?_eq_none_iff] at hentry
    rw [hentry]
  | some entry =>
    obtain ⟨declared, hdeclared, hlinked⟩ := exists_of_getElem?_linkAll hentry
    rw [hdeclared]
    dsimp only
    rw [parents, hlinked.superclass, hlinked.interfaces, h.lookUp_eq, List.filterMap_append]
    cases hsuper : declared.node.superName with
    | none => rfl
    | some name => cases hfound : graph.idOf? name <;> simp [hfound]

theorem index_lt_of_mem_namedAbove {id above : ClassId} (h : above ∈ graph.namedAbove id) :
    above.index < graph.size := by
  unfold namedAbove at h
  split at h
  · obtain ⟨name, -, hname⟩ := List.mem_filterMap.1 h
    obtain ⟨index, hindex, rfl⟩ := Option.map_eq_some_iff.1 hname
    exact (List.findIdx?_eq_some_iff_getElem.1 hindex).1
  · simp at h

/-! ## The ancestors -/

/-- Whether the method at a place has the name, the descriptor and the access word of another one. -/
def IsSameAs (graph : ClassGraph) (method : MethodEntry) (place : ClassId × Nat) : Prop :=
  ∃ other, graph.methodAt? place = some other ∧ other.name = method.name ∧ other.desc = method.desc ∧
    other.access = method.access

theorem findsFirst_baseIn? (graph : ClassGraph) (method : MethodEntry) :
    FindsFirst (baseIn? graph.toList method) (graph.IsSameAs method) := by
  have hfind : baseIn? graph.toList method =
      fun id => (graph.at? id).bind fun entry => entry.methods.findIdx? (·.same method) := by
    funext id
    rw [baseIn?, at?_eq_getElem?]
  have hsame : graph.IsSameAs method = fun place =>
      ∃ other, graph.methodAt? place = some other ∧ other.same method = true := by
    funext place
    simp [IsSameAs, MethodEntry.same, and_assoc]
  rw [hfind, hsame]
  exact findsFirst_findIdx? graph (·.methods) _

/-- A class is an ancestor of all the other ones from which links lead to it. -/
theorem mem_map_top_iff {links : ClassId → List ClassId} {id above : ClassId} {ascents : List Ascent}
    (h : Ascent.IsWalk links id ascents) :
    above ∈ ascents.map (Ascent.top id) ↔
      above ≠ id ∧ Relation.ReflTransGen (fun below above => above ∈ links below) id above := by
  rw [List.mem_map]
  constructor
  · rintro ⟨ascent, hascent, rfl⟩
    obtain ⟨hne, hfollows, hsimple⟩ := (h.mem_iff ascent).1 hascent
    refine ⟨fun htop => (List.nodup_cons.1 hsimple).1 ?_, hfollows.reaches⟩
    have hmem : ascent.top id ∈ ascent.map (·.2) := Ascent.top_mem_map hne
    rwa [htop] at hmem
  · rintro ⟨hne, hreaches⟩
    obtain ⟨ascent, hfollows, hsimple, rfl⟩ := Ascent.exists_simple hreaches
    refine ⟨ascent, (h.mem_iff ascent).2 ⟨?_, hfollows, hsimple⟩, rfl⟩
    rintro rfl
    exact hne rfl

/-- In a resolved graph whose classes stand under their own names, circular or not: the ancestors of a
class are the ends of the ascents of a depth-first walk along the links that the classes name, which goes
nowhere deeper than the graph has classes; they are the other classes that these links lead to; and a
method overrides the first method that is the same in the first ancestor with one. -/
theorem ancestors_and_bases_resolve (hkeeps : graph.KeepsNames) {id : ClassId} {entry : ClassEntry}
    (hentry : graph.resolve.at? id = some entry) :
    (∃ ascents, Ascent.IsWalk graph.namedAbove id ascents ∧
      (∀ others, Ascent.IsWalk graph.namedAbove id others → others = ascents) ∧
      (∀ ascent ∈ ascents, ascent.length < graph.size) ∧
      entry.ancestors = ascents.map (Ascent.top id)) ∧
    (∀ above, above ∈ entry.ancestors ↔ above ≠ id ∧
      Relation.ReflTransGen (fun below above => above ∈ graph.namedAbove below) id above) ∧
    ∀ method ∈ entry.methods,
      (∀ place, method.base = some place ↔
        IsFirst (graph.resolve.IsSameAs method) entry.ancestors place) ∧
      (method.base = none ↔
        ∀ above ∈ entry.ancestors, ∀ index, ¬graph.resolve.IsSameAs method (above, index)) := by
  have hlinked := linked_resolve graph
  have hindex : graph.resolve.toList[id.index]? = some entry := by rw [← at?_eq_getElem?, hentry]
  have hwalk : Ascent.IsWalk graph.namedAbove id (ascentsFrom graph.resolve.toList [id] id) :=
    hkeeps.parentsAt_resolve ▸ isWalk_ascentsFrom id
  have hancestors : entry.ancestors =
      (ascentsFrom graph.resolve.toList [id] id).map (Ascent.top id) := by
    rw [hlinked.ancestors hindex, ancestorsOf, ancestorsFrom_eq_map_top]
  refine ⟨⟨_, hwalk, fun others hothers => hothers.eq hwalk, ?_, hancestors⟩, fun above => ?_, ?_⟩
  · intro ascent hascent
    obtain ⟨-, hfollows, hsimple⟩ := (hwalk.mem_iff ascent).1 hascent
    have hstart : id.index < graph.size := by
      have hlt := (List.getElem?_eq_some_iff.1 hindex).1
      rwa [toList_resolve, length_linkAll, toList, Table.values, List.length_map] at hlt
    exact Ascent.length_lt hsimple
      (hfollows.forall_classes hstart fun _ _ habove => index_lt_of_mem_namedAbove habove)
  · rw [hancestors, mem_map_top_iff hwalk]
  · intro method hmethod
    have hfirst := findsFirst_baseIn? graph.resolve method
    rw [hlinked.base entry (List.mem_of_getElem? hindex) method hmethod, baseOf_eq_findSome?]
    exact ⟨fun place => hfirst.firstIn?_eq_some_iff, hfirst.firstIn?_eq_none_iff⟩

/-- Two classes that extend each other and implement one interface, which declares a method like that
of the first. -/
def circularGraph : ClassGraph :=
  .ofList
    [.ofNode
      { access := 1, name := "p/A", superName := some "p/B", interfaces := ["p/I"]
        methods := [{ access := 1, name := "m", desc := "()V" }] },
    .ofNode { access := 1, name := "p/B", superName := some "p/A", interfaces := ["p/I"] },
    .ofNode
      { access := 0x601, name := "p/I", superName := some "java/lang/Object"
        methods := [{ access := 1, name := "m", desc := "()V" }] }]

/-- The interface is met twice above the first class, and the class itself not again. -/
theorem ancestors_and_bases_circular :
    circularGraph.KeepsNames ∧ ∃ entry method, circularGraph.resolve.at? ⟨0⟩ = some entry ∧
      method ∈ entry.methods ∧ entry.ancestors = [⟨1⟩, ⟨2⟩, ⟨2⟩] ∧
      (∃ ascents, Ascent.IsWalk circularGraph.namedAbove ⟨0⟩ ascents ∧
        entry.ancestors = ascents.map (Ascent.top ⟨0⟩)) ∧
      (⟨2⟩ : ClassId) ≠ ⟨0⟩ ∧
      Relation.ReflTransGen (fun below above => above ∈ circularGraph.namedAbove below) ⟨0⟩ ⟨2⟩ ∧
      IsFirst (circularGraph.resolve.IsSameAs method) entry.ancestors (⟨2⟩, 0) := by
  have hkeeps : circularGraph.KeepsNames := by decide +kernel
  obtain ⟨entry, hentry⟩ :=
    Option.isSome_iff_exists.1 (by decide +kernel : (circularGraph.resolve.at? ⟨0⟩).isSome)
  obtain ⟨method, hmethod⟩ := Option.isSome_iff_exists.1
    (by decide +kernel :
      ((circularGraph.resolve.at? ⟨0⟩).bind fun entry => entry.methods[0]?).isSome)
  have hbase : ((circularGraph.resolve.at? ⟨0⟩).bind fun entry =>
      (entry.methods[0]?).bind (·.base)) = some (⟨2⟩, 0) := by decide +kernel
  have hlist : (circularGraph.resolve.at? ⟨0⟩).map (·.ancestors) = some [⟨1⟩, ⟨2⟩, ⟨2⟩] := by
    decide +kernel
  rw [hentry, Option.bind_some] at hmethod hbase
  rw [hmethod, Option.bind_some] at hbase
  rw [hentry, Option.map_some, Option.some.injEq] at hlist
  have hmem := List.mem_of_getElem? hmethod
  obtain ⟨⟨ascents, hwalk, -, -, htops⟩, hreaches, hbases⟩ :=
    ancestors_and_bases_resolve hkeeps hentry
  have habove := (hreaches ⟨2⟩).1 (by simp [hlist])
  exact ⟨hkeeps, entry, method, hentry, hmem, hlist, ⟨ascents, hwalk, htops⟩, habove.1, habove.2,
    ((hbases method hmem).1 _).1 hbase⟩

end ClassGraph
end JvmArchive
