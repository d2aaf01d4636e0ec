import JvmArchive.Proofs.Graph.Linked

/-!
# Fields along the ancestors

The search for a field visits no class twice, while the ancestors of a class are listed once for every
path that leads to them. The first match is the same: a class that has been left has had everything
above it visited, but for what lies beyond the classes on the current path, so a second path through it
meets nothing new. So an instruction reaches the first field along the ancestors that it may mean.
-/
namespace JvmArchive.ClassGraph

/-- The index of the first field of the class at a position that an instruction may mean. -/
def fieldIn? (entries : List ClassEntry) (opcode : Opcode) (name desc : String) (id : ClassId) :
    Option Nat :=
  (entries[id.index]?).bind fun entry => ownField? entry opcode name desc

/-- The first match among classes, with its class. -/
def firstIn? (find : ClassId → Option Nat) (ids : List ClassId) : Option (ClassId × Nat) :=
  ids.findSome? fun id => (find id).map fun index => (id, index)

variable {entries : List ClassEntry} {opcode : Opcode} {name desc : String}

theorem firstIn?_append (find : ClassId → Option Nat) (ids others : List ClassId) :
    firstIn? find (ids ++ others) = (firstIn? find ids).or (firstIn? find others) :=
  List.findSome?_append

theorem firstIn?_eq_none_iff {find : ClassId → Option Nat} {ids : List ClassId} :
    firstIn? find ids = none ↔ ∀ id ∈ ids, find id = none := by
  simp [firstIn?]

theorem fieldIn?_of_le {id : ClassId} (h : entries.length ≤ id.index) :
    fieldIn? entries opcode name desc id = none := by
  rw [fieldIn?, List.getElem?_eq_none h]
  rfl

/-! ## One step of the search -/

theorem searchField_of_mem {visited pending : List ClassId} {id : ClassId} (h : id ∈ visited) :
    searchField entries opcode name desc visited (id :: pending) =
      searchField entries opcode name desc visited pending := by
  rw [searchField, dif_pos (by simpa using h)]

theorem searchField_of_le {visited pending : List ClassId} {id : ClassId}
    (h : entries.length ≤ id.index) :
    searchField entries opcode name desc visited (id :: pending) =
      searchField entries opcode name desc visited pending := by
  rw [searchField]
  split
  · rfl
  · split
    · rfl
    · rename_i hget
      rw [List.getElem?_eq_none h] at hget
      exact absurd hget (by simp)

/-- A class that has not been visited either has the field or is left for the classes above it. -/
theorem searchField_of_not_mem {visited pending : List ClassId} {id : ClassId} (h : id ∉ visited)
    (hlt : id.index < entries.length) :
    searchField entries opcode name desc visited (id :: pending) =
      ((fieldIn? entries opcode name desc id).map fun index => (id, index)).or
        (if fieldIn? entries opcode name desc id = none then
          searchField entries opcode name desc (id :: visited) (parentsAt entries id ++ pending)
        else none) := by
  rw [searchField, dif_neg (by simpa using h)]
  have hget : entries[id.index]? = some entries[id.index] := List.getElem?_eq_getElem hlt
  split
  · rename_i hnone
    rw [hget] at hnone
    exact absurd hnone (by simp)
  · rename_i entry hentry
    rw [fieldIn?, parentsAt, hentry, Option.bind_some]
    split
    · rename_i index hown
      simp [hown]
    · rename_i hown
      simp [hown, parents]

/-! ## The invariant -/

/-- What has been visited without a match: the classes on the path and others, all of whose parents
have been visited too. -/
structure Searched (entries : List ClassEntry) (find : ClassId → Option Nat)
    (path visited : List ClassId) : Prop where
  onPath : ∀ id ∈ path, id ∈ visited
  misses : ∀ id ∈ visited, find id = none
  closed : ∀ id ∈ visited, id ∉ path → ∀ parent ∈ parentsAt entries id,
    parent ∈ visited ∨ entries.length ≤ parent.index

variable {find : ClassId → Option Nat} {path visited : List ClassId}

/-- Above a class that has been left, no path that avoids the current one meets a match. -/
theorem Searched.misses_above (h : Searched entries find path visited)
    (hfind : ∀ id : ClassId, entries.length ≤ id.index → find id = none) {longer : List ClassId}
    {id : ClassId} (hlonger : ∀ other ∈ path, other ∈ longer) (hid : id ∈ visited)
    (hleft : id ∉ path) : ∀ above ∈ ancestorsFrom entries longer id, find above = none := by
  induction longer, id using ancestorsFrom.induct entries with
  | case1 longer id ih =>
    intro above habove
    rw [ancestorsFrom, List.mem_flatMap] at habove
    obtain ⟨parent, hparent, habove⟩ := habove
    split at habove
    · simp at habove
    · rename_i hpath
      have hnew : parent ∉ path := fun hmem => hpath (by simpa using hlonger parent hmem)
      rcases h.closed id hid hleft parent hparent with hvisited | houtside
      · split at habove
        · rename_i hlt
          rcases List.mem_cons.1 habove with rfl | habove
          · exact h.misses _ hvisited
          · exact ih parent hpath hlt (fun other hother => List.mem_cons_of_mem _ (hlonger other hother))
              hvisited hnew above habove
        · rw [List.mem_singleton] at habove
          exact habove ▸ h.misses parent hvisited
      · rw [if_neg (by omega), List.mem_singleton] at habove
        exact habove ▸ hfind parent houtside

/-- Visiting one more class puts it on the path. -/
theorem Searched.enter (h : Searched entries find path visited) {id : ClassId}
    (hid : find id = none) : Searched entries find (id :: path) (id :: visited) where
  onPath other hother := by
    rcases List.mem_cons.1 hother with rfl | hother
    · exact List.mem_cons_self
    · exact List.mem_cons_of_mem _ (h.onPath other hother)
  misses other hother := by
    rcases List.mem_cons.1 hother with rfl | hother
    · exact hid
    · exact h.misses other hother
  closed other hother hleft parent hparent := by
    rw [List.mem_cons, not_or] at hleft
    rcases List.mem_cons.1 hother with rfl | hother
    · exact absurd rfl hleft.1
    · exact (h.closed other hother hleft.2 parent hparent).imp_left (List.mem_cons_of_mem _)

/-- A class all of whose parents have been visited can be left. -/
theorem Searched.leave {id : ClassId} (h : Searched entries find (id :: path) visited)
    (hparents : ∀ parent ∈ parentsAt entries id,
      parent ∈ visited ∨ entries.length ≤ parent.index) :
    Searched entries find path visited where
  onPath other hother := h.onPath other (List.mem_cons_of_mem _ hother)
  misses := h.misses
  closed other hother hleft parent hparent := by
    by_cases hid : other = id
    · exact hparents parent (hid ▸ hparent)
    · exact h.closed other hother (by simp [hid, hleft]) parent hparent

/-! ## The search along all paths -/

/-- The ancestors through one parent. -/
def ancestorsThrough (entries : List ClassEntry) (path : List ClassId) (parent : ClassId) :
    List ClassId :=
  if path.contains parent then []
  else if parent.index < entries.length then
    parent :: ancestorsFrom entries (parent :: path) parent
  else [parent]

theorem ancestorsFrom_eq (path : List ClassId) (id : ClassId) :
    ancestorsFrom entries path id = (parentsAt entries id).flatMap (ancestorsThrough entries path) := by
  rw [ancestorsFrom]
  rfl

/-- The search for a field and what is left of it after some classes: either they have the field, or all
of them have been visited in vain and the search goes on with the others. -/
def SearchesLike (entries : List ClassEntry) (opcode : Opcode) (name desc : String)
    (path visited ids ancestors pending : List ClassId) : Prop :=
  let find := fieldIn? entries opcode name desc
  ∃ further, searchField entries opcode name desc visited (ids ++ pending) =
      (firstIn? find ancestors).or (searchField entries opcode name desc further pending) ∧
    (firstIn? find ancestors = none → Searched entries find path further ∧
      (∀ id ∈ visited, id ∈ further) ∧ ∀ id ∈ ids, id ∈ further ∨ entries.length ≤ id.index)

theorem SearchesLike.append {path visited ids others ancestors further pending : List ClassId}
    (h : SearchesLike entries opcode name desc path visited ids ancestors (others ++ pending))
    (hothers : ∀ visited, Searched entries (fieldIn? entries opcode name desc) path visited →
      SearchesLike entries opcode name desc path visited others further pending) :
    SearchesLike entries opcode name desc path visited (ids ++ others) (ancestors ++ further)
      pending := by
  obtain ⟨left, hsearch, hleft⟩ := h
  rw [SearchesLike, firstIn?_append, List.append_assoc, hsearch]
  cases hfirst : firstIn? (fieldIn? entries opcode name desc) ancestors with
  | some place => exact ⟨visited, by simp, by simp⟩
  | none =>
    obtain ⟨hsearched, hvisited, hids⟩ := hleft hfirst
    obtain ⟨last, hlast, hrest⟩ := hothers left hsearched
    refine ⟨last, by simpa using hlast, fun hnone => ?_⟩
    obtain ⟨hsearched, hgrows, hothers⟩ := hrest (by simpa using hnone)
    refine ⟨hsearched, fun id hid => hgrows id (hvisited id hid), fun id hid => ?_⟩
    rcases List.mem_append.1 hid with hid | hid
    · exact (hids id hid).imp_left (hgrows id)
    · exact hothers id hid

/-- A parent that the search passes over, through which no ancestor has a match. -/
theorem searchesLike_of_pass {path visited pending ancestors : List ClassId} {parent : ClassId}
    (h : Searched entries (fieldIn? entries opcode name desc) path visited)
    (hnone : firstIn? (fieldIn? entries opcode name desc) ancestors = none)
    (hpass : searchField entries opcode name desc visited (parent :: pending) =
      searchField entries opcode name desc visited pending)
    (hparent : parent ∈ visited ∨ entries.length ≤ parent.index) :
    SearchesLike entries opcode name desc path visited [parent] ancestors pending := by
  refine ⟨visited, ?_, fun _ => ⟨h, fun _ hid => hid, by simpa using hparent⟩⟩
  rw [List.singleton_append, hpass, hnone, Option.none_or]

/-- A parent that has not been visited has the field, or the search goes on above it first. -/
theorem searchesLike_of_not_mem {path visited pending ancestors : List ClassId} {parent : ClassId}
    (h : Searched entries (fieldIn? entries opcode name desc) path visited)
    (hvisited : parent ∉ visited) (hlt : parent.index < entries.length)
    (habove : Searched entries (fieldIn? entries opcode name desc) (parent :: path)
        (parent :: visited) →
      SearchesLike entries opcode name desc (parent :: path) (parent :: visited)
        (parentsAt entries parent) ancestors pending) :
    SearchesLike entries opcode name desc path visited [parent] (parent :: ancestors) pending := by
  have hstep : searchField entries opcode name desc visited (parent :: pending) = _ :=
    searchField_of_not_mem hvisited hlt
  cases hfind : fieldIn? entries opcode name desc parent with
  | some index =>
    refine ⟨visited, ?_, fun hnone => ?_⟩
    · rw [List.singleton_append, hstep, hfind]
      simp [firstIn?, hfind]
    · rw [firstIn?_eq_none_iff] at hnone
      rw [hnone parent List.mem_cons_self] at hfind
      exact absurd hfind (by simp)
  | none =>
    obtain ⟨further, hsearch, hrest⟩ := habove (h.enter hfind)
    have hfirst : firstIn? (fieldIn? entries opcode name desc) (parent :: ancestors) =
        firstIn? (fieldIn? entries opcode name desc) ancestors := by
      simp [firstIn?, hfind]
    rw [SearchesLike, hfirst]
    refine ⟨further, ?_, fun hnone => ?_⟩
    · rw [List.singleton_append, hstep, hfind, if_pos rfl, hsearch]
      rfl
    · obtain ⟨hsearched, hgrows, hparents⟩ := hrest hnone
      exact ⟨hsearched.leave hparents, fun id hid => hgrows id (List.mem_cons_of_mem _ hid),
        by simpa using Or.inl (hgrows parent List.mem_cons_self)⟩

/-- The search through one parent. If the parent is on the path or has been left, the search passes it
over, and the ancestors through it have nothing that it would find. -/
theorem searchesLike_through {path visited pending : List ClassId} {parent : ClassId}
    (h : Searched entries (fieldIn? entries opcode name desc) path visited)
    (habove : parent ∉ path → parent.index < entries.length → ∀ visited pending,
      Searched entries (fieldIn? entries opcode name desc) (parent :: path) visited →
        SearchesLike entries opcode name desc (parent :: path) visited (parentsAt entries parent)
          (ancestorsFrom entries (parent :: path) parent) pending) :
    SearchesLike entries opcode name desc path visited [parent]
      (ancestorsThrough entries path parent) pending := by
  rw [ancestorsThrough]
  by_cases hpath : parent ∈ path
  · have hvisited := h.onPath parent hpath
    rw [if_pos (by simpa using hpath)]
    exact searchesLike_of_pass h rfl (searchField_of_mem hvisited) (.inl hvisited)
  rw [if_neg (by simpa using hpath)]
  by_cases hlt : parent.index < entries.length
  · rw [if_pos hlt]
    by_cases hvisited : parent ∈ visited
    · refine searchesLike_of_pass h (firstIn?_eq_none_iff.2 fun above hmem => ?_)
        (searchField_of_mem hvisited) (.inl hvisited)
      rcases List.mem_cons.1 hmem with rfl | hmem
      · exact h.misses _ hvisited
      · exact h.misses_above (fun _ => fieldIn?_of_le)
          (fun other hother => List.mem_cons_of_mem _ hother) hvisited hpath above hmem
    · exact searchesLike_of_not_mem h hvisited hlt (habove hpath hlt _ pending)
  · rw [if_neg hlt]
    have hle : entries.length ≤ parent.index := Nat.not_lt.1 hlt
    refine searchesLike_of_pass h ?_ (searchField_of_le hle) (.inr hle)
    rw [firstIn?_eq_none_iff]
    intro other hother
    rw [List.mem_singleton] at hother
    exact hother ▸ fieldIn?_of_le hle

/-- The search for a field above a class goes through the classes in the order of the ancestors. -/
theorem searchesLike_ancestorsFrom (path : List ClassId) (id : ClassId)
    (visited pending : List ClassId)
    (h : Searched entries (fieldIn? entries opcode name desc) path visited) :
    SearchesLike entries opcode name desc path visited (parentsAt entries id)
      (ancestorsFrom entries path id) pending := by
  induction path, id using ancestorsFrom.induct entries generalizing visited pending with
  | case1 path id ih =>
    rw [ancestorsFrom_eq]
    generalize parentsAt entries id = parents
    induction parents generalizing visited with
    | nil => exact ⟨visited, rfl, fun _ => ⟨h, fun _ hid => hid, by simp⟩⟩
    | cons parent parents ihparents =>
      rw [List.flatMap_cons, ← List.singleton_append]
      refine (searchesLike_through h fun hpath hlt visited pending hsearched => ?_).append
        fun visited hsearched => ihparents visited hsearched
      exact ih parent (by simpa using hpath) hlt visited pending hsearched

/-- The field that an instruction reaches is the first match in the class and its ancestors, in their
order. -/
theorem findField_eq_firstIn? {graph : ClassGraph} (hlinked : Linked graph.toList) {id : ClassId}
    {entry : ClassEntry} (hentry : graph.at? id = some entry) (opcode : Opcode) (name desc : String) :
    graph.findField id opcode name desc =
      firstIn? (fieldIn? graph.toList opcode name desc) (id :: entry.ancestors) := by
  rw [at?_eq_getElem?] at hentry
  have hlt : id.index < graph.toList.length := (List.getElem?_eq_some_iff.1 hentry).1
  rw [findField, searchField_of_not_mem (by simp) hlt, hlinked.ancestors hentry, ancestorsOf]
  cases hfind : fieldIn? graph.toList opcode name desc id with
  | some index => simp [firstIn?, hfind]
  | none =>
    have hstart : Searched graph.toList (fieldIn? graph.toList opcode name desc) [id] [id] :=
      ⟨fun _ h => h, fun other hother => by rw [List.mem_singleton.1 hother]; exact hfind,
        fun other hother hleft => absurd hother hleft⟩
    obtain ⟨further, hsearch, -⟩ := searchesLike_ancestorsFrom [id] id [id] [] hstart
    have hend : searchField graph.toList opcode name desc further [] = none := by rw [searchField]
    rw [if_pos rfl, hsearch, hend]
    simp [firstIn?, hfind]

/-- In a resolved graph the search for a field runs along the ancestors of the class. -/
theorem findField_resolve (graph : ClassGraph) (id : ClassId) (opcode : Opcode)
    (name desc : String) :
    graph.resolve.findField id opcode name desc =
      (graph.resolve.at? id).bind fun entry =>
        firstIn? (fieldIn? graph.resolve.toList opcode name desc) (id :: entry.ancestors) := by
  cases hentry : graph.resolve.at? id with
  | some entry => exact findField_eq_firstIn? (linked_resolve graph) hentry opcode name desc
  | none =>
    rw [at?_eq_getElem?, List.getElem?_eq_none_iff] at hentry
    rw [findField, searchField_of_le hentry, searchField]
    rfl

/-! ## First matches -/

/-- Whether a place is the first of those that match, by the order of the classes and the order of the
members in each. -/
structure IsFirst (Matches : ClassId × Nat → Prop) (ids : List ClassId) (place : ClassId × Nat) :
    Prop where
  found : Matches place
  inClass : ∀ index < place.2, ¬Matches (place.1, index)
  inList : ∃ before after, ids = before ++ place.1 :: after ∧
    ∀ id ∈ before, ∀ index, ¬Matches (id, index)

/-- Whether a search in single classes finds the first match in each. -/
def FindsFirst (find : ClassId → Option Nat) (Matches : ClassId × Nat → Prop) : Prop :=
  ∀ id index, find id = some index ↔ Matches (id, index) ∧ ∀ earlier < index, ¬Matches (id, earlier)

namespace FindsFirst

variable {find : ClassId → Option Nat} {Matches : ClassId × Nat → Prop}

theorem eq_none_iff (h : FindsFirst find Matches) {id : ClassId} :
    find id = none ↔ ∀ index, ¬Matches (id, index) := by
  constructor
  · intro hnone index
    induction index using Nat.strongRecOn with
    | ind index ih =>
      intro hmatch
      rw [(h id index).2 ⟨hmatch, ih⟩] at hnone
      cases hnone
  · intro hnone
    cases hfind : find id with
    | none => rfl
    | some index => exact absurd ((h id index).1 hfind).1 (hnone index)

theorem firstIn?_eq_some_iff (h : FindsFirst find Matches) {ids : List ClassId}
    {place : ClassId × Nat} : firstIn? find ids = some place ↔ IsFirst Matches ids place := by
  rw [firstIn?, List.findSome?_eq_some_iff]
  constructor
  · rintro ⟨before, id, after, rfl, hfound, hbefore⟩
    obtain ⟨index, hindex, rfl⟩ := Option.map_eq_some_iff.1 hfound
    obtain ⟨hmatch, hleast⟩ := (h id index).1 hindex
    refine ⟨hmatch, hleast, before, after, rfl, fun other hother => h.eq_none_iff.1 ?_⟩
    simpa using hbefore other hother
  · rintro ⟨hmatch, hleast, before, after, rfl, hbefore⟩
    refine ⟨before, place.1, after, rfl, ?_, fun other hother => ?_⟩
    · rw [(h place.1 place.2).2 ⟨hmatch, hleast⟩]
      rfl
    · rw [h.eq_none_iff.2 (hbefore other hother)]
      rfl

theorem firstIn?_eq_none_iff (h : FindsFirst find Matches) {ids : List ClassId} :
    firstIn? find ids = none ↔ ∀ id ∈ ids, ∀ index, ¬Matches (id, index) := by
  rw [ClassGraph.firstIn?_eq_none_iff]
  exact forall₂_congr fun id _ => h.eq_none_iff

end FindsFirst

/-- The first index in a list of members of each class is such a search. -/
theorem findsFirst_findIdx? {α : Type} (graph : ClassGraph) (members : ClassEntry → List α)
    (p : α → Bool) :
    FindsFirst (fun id => (graph.at? id).bind fun entry => (members entry).findIdx? p) fun place =>
      ∃ member, ((graph.at? place.1).bind fun entry => (members entry)[place.2]?) = some member ∧
        p member = true := by
  intro id index
  cases hentry : graph.at? id with
  | none => simp [hentry]
  | some entry =>
    simp only [hentry, Option.bind_some, List.findIdx?_eq_some_iff_getElem, List.getElem?_eq_some_iff]
    constructor
    · rintro ⟨hlt, hmatch, hbefore⟩
      refine ⟨⟨_, ⟨hlt, rfl⟩, hmatch⟩, ?_⟩
      rintro earlier hearlier ⟨_, ⟨hlt', rfl⟩, hmatch'⟩
      exact hbefore earlier hearlier hmatch'
    · rintro ⟨⟨_, ⟨hlt, rfl⟩, hmatch⟩, hbefore⟩
      exact ⟨hlt, hmatch, fun earlier hearlier hmatch' =>
        hbefore earlier hearlier ⟨_, ⟨by omega, rfl⟩, hmatch'⟩⟩

/-- Whether an instruction may mean the field at a place. -/
def IsMeant (graph : ClassGraph) (opcode : Opcode) (name desc : String) (place : ClassId × Nat) : Prop :=
  ∃ field, graph.fieldAt? place = some field ∧ field.name = name ∧ field.desc = desc ∧
    suits opcode field = true

theorem findsFirst_fieldIn? (graph : ClassGraph) (opcode : Opcode) (name desc : String) :
    FindsFirst (fieldIn? graph.toList opcode name desc) (graph.IsMeant opcode name desc) := by
  have hfind : fieldIn? graph.toList opcode name desc =
      fun id => (graph.at? id).bind fun entry => ownField? entry opcode name desc := by
    funext id
    rw [fieldIn?, at?_eq_getElem?]
  have hmeant : graph.IsMeant opcode name desc = fun place =>
      ∃ field, graph.fieldAt? place = some field ∧
        (field.name == name && field.desc == desc && suits opcode field) = true := by
    funext place
    simp [IsMeant, and_assoc]
  rw [hfind, hmeant]
  exact findsFirst_findIdx? graph (·.fields) _

/-- The ancestors of the class at a position; without a class there, none. -/
def ancestorsAt (graph : ClassGraph) (id : ClassId) : List ClassId :=
  ((graph.at? id).map (·.ancestors)).getD []

/-- In a resolved graph, circular or not, an instruction reaches the first field that it may mean in the
class and its ancestors, and none only if none of them has one. -/
theorem findField_resolve_iff_isFirst (graph : ClassGraph) (id : ClassId) (opcode : Opcode)
    (name desc : String) :
    (∀ place, graph.resolve.findField id opcode name desc = some place ↔
      IsFirst (graph.resolve.IsMeant opcode name desc) (id :: graph.resolve.ancestorsAt id) place) ∧
    (graph.resolve.findField id opcode name desc = none ↔
      ∀ above ∈ id :: graph.resolve.ancestorsAt id, ∀ index,
        ¬graph.resolve.IsMeant opcode name desc (above, index)) := by
  have hfirst := findsFirst_fieldIn? graph.resolve opcode name desc
  have hsearch : graph.resolve.findField id opcode name desc =
      firstIn? (fieldIn? graph.resolve.toList opcode name desc)
        (id :: graph.resolve.ancestorsAt id) := by
    rw [findField_resolve, ancestorsAt]
    cases hentry : graph.resolve.at? id with
    | some entry => rfl
    | none =>
      rw [at?_eq_getElem?, List.getElem?_eq_none_iff] at hentry
      simp [firstIn?, fieldIn?_of_le hentry]
  rw [hsearch]
  exact ⟨fun place => hfirst.firstIn?_eq_some_iff, hfirst.firstIn?_eq_none_iff⟩

end JvmArchive.ClassGraph
