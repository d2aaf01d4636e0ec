import JvmArchive.Proofs.Mapping.Described

/-!
# Overrides in generated stores

Once all classes have been declared, only methods that override nothing have mappings. Mapping the
overrides keeps these and gives every other method the mapping of the declaration at the end of its
chain, whatever the order of the classes is; a method on a chain that goes around gets none. So a method
and the one that it overrides have one mapping, or none both.
-/
namespace JvmArchive.Mapping

open ClassGraph Store

/-- A fold over steps each of which settles something and keeps what others have settled. -/
theorem foldl_settles {α β : Type} {P : β → Prop} {Q : α → β → Prop} {f : β → α → β}
    (items : List α) {start : β} (hstart : P start)
    (hstep : ∀ state, P state → ∀ item ∈ items, P (f state item) ∧ Q item (f state item))
    (hkeep : ∀ state, P state → ∀ item ∈ items, ∀ other, Q other state → Q other (f state item)) :
    P (items.foldl f start) ∧ ∀ item ∈ items, Q item (items.foldl f start) := by
  induction items using List.reverseRecOn with
  | nil => exact ⟨hstart, by simp⟩
  | append_singleton items last ih =>
    obtain ⟨hinvariant, hsettled⟩ :=
      ih (fun state h item hitem => hstep state h item (by simp [hitem]))
        fun state h item hitem => hkeep state h item (by simp [hitem])
    rw [List.foldl_append, List.foldl_cons, List.foldl_nil]
    obtain ⟨hnext, hlast⟩ := hstep _ hinvariant last (by simp)
    refine ⟨hnext, fun item hitem => ?_⟩
    rcases List.mem_append.1 hitem with hold | hnew
    · exact hkeep _ hinvariant last (by simp) item (hsettled item hold)
    · rw [List.mem_singleton] at hnew
      exact hnew ▸ hlast

variable {graph : ClassGraph} {store : Store}

/-- The mapping of a method that a class declares. -/
def mappingOf? (store : Store) (entry : ClassEntry) (method : MethodEntry) : Option String :=
  (store.methodRow? entry.name method.name method.desc).map (·.mapping)

/-- The mapping of the method at a place. -/
def mappingAt? (graph : ClassGraph) (store : Store) (place : ClassId × Nat) : Option String :=
  (graph.at? place.1).bind fun entry => (entry.methods[place.2]?).bind (mappingOf? store entry)

theorem mappingAt?_eq {place : ClassId × Nat} {entry : ClassEntry} {method : MethodEntry}
    (hentry : graph.at? place.1 = some entry) (hmethod : entry.methods[place.2]? = some method) :
    mappingAt? graph store place = mappingOf? store entry method := by
  rw [mappingAt?, hentry, Option.bind_some, hmethod, Option.bind_some]

/-- Whether the members of every class of a graph are looked up under its own name. -/
def Keyed (graph : ClassGraph) (store : Store) : Prop :=
  ∀ entry ∈ graph.toList, store.memberKey entry.name = entry.name

/-- Whether no class that a store leaves without a mapping is named like the mapping of another one. -/
def UnmappedApart (graph : ClassGraph) (store : Store) : Prop :=
  ∀ entry ∈ graph.toList, store.classes.get? entry.name = none → entry.name ∉ store.classes.values

instance (graph : ClassGraph) (store : Store) : Decidable (UnmappedApart graph store) :=
  inferInstanceAs (Decidable (∀ entry ∈ graph.toList, _ → _))

/-- Where every new name leads back to a class that has it. -/
theorem UnmappedApart.keyed (hapart : UnmappedApart graph store)
    (hnames : ∀ mapping name, store.names.get? mapping = some name →
      store.classes.get? name = some mapping) : Keyed graph store := by
  intro entry hentry
  rw [memberKey, Table.contains_eq_isSome]
  cases hclass : store.classes.get? entry.name with
  | some mapping => rfl
  | none =>
    cases hname : store.names.get? entry.name with
    | none => rfl
    | some name =>
      have hmapping := Table.mem_entries_of_get? (hnames entry.name name hname)
      exact absurd (List.mem_map_of_mem (f := Prod.snd) hmapping) (hapart entry hentry hclass)

theorem Keyed.method?_eq (h : Keyed graph store) {entry : ClassEntry} (hentry : entry ∈ graph.toList)
    (name desc : String) :
    store.method? entry.name name desc = store.methodRow? entry.name name desc := by
  rw [Store.method?, methodsOf, h entry hentry]
  rfl

theorem rootMapping?_eq (hkeeps : graph.KeepsNames) (hkeyed : Keyed graph store)
    (method : MethodEntry) :
    rootMapping? graph store method = method.base.bind fun base =>
      mappingAt? graph store (rootDeclaration graph graph.size base) := by
  cases hbase : method.base with
  | none => simp [rootMapping?, hbase]
  | some base =>
    simp only [rootMapping?, hbase, Option.bind_eq_bind, Option.bind_some, hkeeps.nameOf?, methodAt?,
      mappingAt?]
    cases hentry : graph.at? (rootDeclaration graph graph.size base).1 with
    | none => rfl
    | some entry =>
      simp only [Option.map_some, Option.bind_some, hkeyed.method?_eq (mem_of_at? hentry)]
      cases entry.methods[(rootDeclaration graph graph.size base).2]? with
      | none => rfl
      | some declared =>
        rw [Option.bind_some, Option.bind_some, mappingOf?, Option.map_eq_bind]
        rfl

/-- Two places whose classes, methods and descriptors have the same names are one. -/
theorem place_eq_of_names (hkeeps : graph.KeepsNames) (hdistinct : DistinctMethods graph.toList)
    {a b : ClassId × Nat} {entry other : ClassEntry} {method found : MethodEntry}
    (hentry : graph.at? a.1 = some entry) (hother : graph.at? b.1 = some other)
    (hmethod : entry.methods[a.2]? = some method) (hfound : other.methods[b.2]? = some found)
    (hclass : entry.name = other.name) (hname : method.name = found.name)
    (hdesc : method.desc = found.desc) : a = b := by
  have hid : a.1 = b.1 := by
    rw [at?_eq_getElem?] at hentry hother
    have hlt := (List.getElem?_eq_some_iff.1 hentry).1
    have hindex : a.1.index = b.1.index := by
      refine (List.getElem?_inj (by simpa using hlt) hkeeps.nodup).1 ?_
      rw [List.getElem?_map, List.getElem?_map, hentry, hother, Option.map_some, Option.map_some,
        hclass]
    exact congrArg ClassId.mk hindex
  exact hdistinct.place_eq (methodAt?_eq_some_iff.2 ⟨entry, hentry, hmethod⟩)
    (methodAt?_eq_some_iff.2 ⟨other, hother, hfound⟩) hid hname hdesc

/-- A mapping for the method at a place answers for that place alone. -/
theorem mappingAt?_mapMethod (hkeeps : graph.KeepsNames) (hdistinct : DistinctMethods graph.toList)
    {place : ClassId × Nat} {entry : ClassEntry} {method : MethodEntry}
    (hentry : graph.at? place.1 = some entry) (hmethod : entry.methods[place.2]? = some method)
    (mapping : String) (other : ClassId × Nat) :
    mappingAt? graph
        (store.mapMethod entry.name { name := method.name, mapping, desc := method.desc }) other =
      (mappingAt? graph store other).or (if place = other then some mapping else none) := by
  by_cases hother : ∃ above declared, graph.at? other.1 = some above ∧
      above.methods[other.2]? = some declared
  · obtain ⟨above, declared, habove, hdeclared⟩ := hother
    rw [mappingAt?_eq habove hdeclared, mappingAt?_eq habove hdeclared, mappingOf?, mappingOf?,
      methodRow?_mapMethod, Option.map_or]
    congr 1
    by_cases hplace : place = other
    · subst hplace
      rw [habove, Option.some.injEq] at hentry
      subst hentry
      rw [hdeclared, Option.some.injEq] at hmethod
      subst hmethod
      simp
    · rw [if_neg hplace, if_neg]
      · rfl
      · rintro ⟨hclass, hname, hdesc⟩
        exact hplace (place_eq_of_names hkeeps hdistinct hentry habove hmethod hdeclared hclass hname
          hdesc)
  · have hnone : ∀ store, mappingAt? graph store other = none := by
      intro store
      cases habove : graph.at? other.1 with
      | none => simp [mappingAt?, habove]
      | some above =>
        cases hdeclared : above.methods[other.2]? with
        | none => simp [mappingAt?, habove, hdeclared]
        | some declared => exact absurd ⟨above, declared, habove, hdeclared⟩ hother
    have hplace : place ≠ other := by
      rintro rfl
      exact hother ⟨entry, method, hentry, hmethod⟩
    rw [hnone, hnone, if_neg hplace]
    rfl

/-! ## Mapping one override -/

/-- The mapping of the declaration at the end of the chain from a place. -/
def target? (graph : ClassGraph) (declared : Store) (place : ClassId × Nat) : Option String :=
  (rootOf? graph place).bind (mappingAt? graph declared)

/-- Whether a store differs from that of the declarations by no more than some overrides, each of which
has the mapping of the end of its chain. -/
structure Settling (graph : ClassGraph) (declared store : Store) : Prop where
  keyed : Keyed graph store
  ends : ∀ place, baseAt? graph place = none →
    mappingAt? graph store place = mappingAt? graph declared place
  overrides : ∀ place,
    mappingAt? graph store place = none ∨
      mappingAt? graph store place = target? graph declared place

variable {declared : Store}

theorem rootOf?_rootDeclaration (hlinked : Linked graph.toList)
    (hdistinct : DistinctMethods graph.toList) (room : Nat) (place : ClassId × Nat) :
    rootOf? graph (rootDeclaration graph room place) = rootOf? graph place := by
  induction room generalizing place with
  | zero => rfl
  | succ room ih =>
    cases h : baseAt? graph place with
    | none => rw [rootDeclaration_of_end h]
    | some base => rw [rootDeclaration_of_base h, ih, rootOf?_base hlinked hdistinct h]

/-- What the walk to the root of a chain finds is the mapping of its end, or nothing if there is
none. -/
theorem Settling.mappingAt?_rootDeclaration (h : Settling graph declared store)
    (hlinked : Linked graph.toList) (hdistinct : DistinctMethods graph.toList)
    (place : ClassId × Nat) :
    mappingAt? graph store (rootDeclaration graph graph.size place) =
      target? graph declared place := by
  cases hroot : rootOf? graph place with
  | some root =>
    rw [rootDeclaration_of_rootOf? hroot, h.ends root (baseAt?_of_rootOf? hroot), target?, hroot,
      Option.bind_some]
  | none =>
    have htarget : target? graph declared (rootDeclaration graph graph.size place) = none := by
      rw [target?, rootOf?_rootDeclaration hlinked hdistinct, hroot, Option.bind_none]
    rw [target?, hroot, Option.bind_none]
    rcases h.overrides (rootDeclaration graph graph.size place) with hnone | htaken
    · exact hnone
    · rw [htaken, htarget]

/-- The mapping of one method of a class. -/
def mapOverride (graph : ClassGraph) (store : Store) (place : ClassEntry × MethodEntry) : Store :=
  (rootMapping? graph store place.2).elim store fun mapping =>
    store.mapMethod place.1.name { name := place.2.name, mapping, desc := place.2.desc }

theorem foldl_mapOverrides (entries : List ClassEntry) (store : Store) :
    entries.foldl (mapOverrides graph) store =
      (entries.flatMap fun entry => entry.methods.map (entry, ·)).foldl (mapOverride graph) store := by
  rw [List.foldl_flatMap]
  congr 1
  funext store entry
  rw [List.foldl_map, mapOverrides]
  congr 1
  funext store method
  rw [mapOverride]
  cases rootMapping? graph store method <;> rfl

/-- Mapping an override adds the mapping of the end of its chain in its place. -/
theorem mappingAt?_mapOverride (hlinked : Linked graph.toList) (hkeeps : graph.KeepsNames)
    (hdistinct : DistinctMethods graph.toList) (h : Settling graph declared store)
    {place : ClassId × Nat} {entry : ClassEntry} {method : MethodEntry}
    (hentry : graph.at? place.1 = some entry) (hmethod : entry.methods[place.2]? = some method)
    (other : ClassId × Nat) :
    mappingAt? graph (mapOverride graph store (entry, method)) other =
      (mappingAt? graph store other).or
        (if place = other ∧ method.base.isSome then target? graph declared other else none) := by
  rw [mapOverride, rootMapping?_eq hkeeps h.keyed]
  have hat : baseAt? graph place = method.base := by
    rw [baseAt?, methodAt?_eq_some_iff.2 ⟨entry, hentry, hmethod⟩, Option.bind_some]
  cases hbase : method.base with
  | none => simp
  | some base =>
    rw [Option.bind_some, h.mappingAt?_rootDeclaration hlinked hdistinct]
    have htarget : target? graph declared base = target? graph declared place := by
      rw [target?, target?, rootOf?_base hlinked hdistinct (hat.trans hbase)]
    rw [htarget]
    cases hmapping : target? graph declared place with
    | none =>
      by_cases hplace : place = other
      · subst hplace
        simp [hmapping]
      · simp [hplace]
    | some mapping =>
      rw [Option.elim_some, mappingAt?_mapMethod hkeeps hdistinct hentry hmethod]
      congr 1
      by_cases hplace : place = other
      · subst hplace
        simp [hmapping]
      · simp [hplace]

theorem keyed_mapOverride (h : Keyed graph store) (place : ClassEntry × MethodEntry) :
    Keyed graph (mapOverride graph store place) := by
  intro entry hentry
  rw [mapOverride]
  cases rootMapping? graph store place.2 with
  | none => exact h entry hentry
  | some mapping =>
    rw [Option.elim_some, mapMethod_eq_with]
    exact h entry hentry

theorem settling_mapOverride (hlinked : Linked graph.toList) (hkeeps : graph.KeepsNames)
    (hdistinct : DistinctMethods graph.toList) (h : Settling graph declared store)
    {place : ClassId × Nat} {entry : ClassEntry} {method : MethodEntry}
    (hentry : graph.at? place.1 = some entry) (hmethod : entry.methods[place.2]? = some method) :
    Settling graph declared (mapOverride graph store (entry, method)) where
  keyed := keyed_mapOverride h.keyed _
  ends other hother := by
    rw [mappingAt?_mapOverride hlinked hkeeps hdistinct h hentry hmethod, if_neg, Option.or_none,
      h.ends other hother]
    rintro ⟨rfl, hbase⟩
    rw [baseAt?, methodAt?_eq_some_iff.2 ⟨entry, hentry, hmethod⟩, Option.bind_some] at hother
    rw [hother] at hbase
    exact absurd hbase (by simp)
  overrides other := by
    rw [mappingAt?_mapOverride hlinked hkeeps hdistinct h hentry hmethod]
    rcases h.overrides other with hnone | htaken
    · rw [hnone, Option.none_or]
      split
      · exact .inr rfl
      · exact .inl rfl
    · rw [htaken]
      split
      · simp
      · simp

/-! ## Mapping all overrides -/

theorem target?_of_end {place : ClassId × Nat} (h : baseAt? graph place = none) :
    target? graph declared place = mappingAt? graph declared place := by
  rw [target?, rootOf?_of_end h, Option.bind_some]

theorem settling_declared (hkeyed : Keyed graph declared)
    (hdeclared : ∀ place, (baseAt? graph place).isSome → mappingAt? graph declared place = none) :
    Settling graph declared declared := by
  refine ⟨hkeyed, fun _ _ => rfl, fun place => ?_⟩
  cases h : baseAt? graph place with
  | none => exact .inr (target?_of_end h).symm
  | some base => exact .inl (hdeclared place (by rw [h]; rfl))

/-- Whether a method has the mapping of the end of its chain if it is an override. -/
def IsSettled (graph : ClassGraph) (declared : Store) (pair : ClassEntry × MethodEntry)
    (store : Store) : Prop :=
  ∀ place : ClassId × Nat, graph.at? place.1 = some pair.1 →
    pair.1.methods[place.2]? = some pair.2 → pair.2.base.isSome →
      mappingAt? graph store place = target? graph declared place

theorem isSettled_mapOverride (hlinked : Linked graph.toList) (hkeeps : graph.KeepsNames)
    (hdistinct : DistinctMethods graph.toList) (h : Settling graph declared store)
    (pair : ClassEntry × MethodEntry) :
    IsSettled graph declared pair (mapOverride graph store pair) := by
  intro place hentry hmethod hbase
  rw [mappingAt?_mapOverride hlinked hkeeps hdistinct h hentry hmethod, if_pos ⟨rfl, hbase⟩]
  rcases h.overrides place with hnone | htaken
  · rw [hnone, Option.none_or]
  · rw [htaken, Option.or_self]

/-- Mapping another override does not change what an override is mapped to. -/
theorem IsSettled.mapOverride (hlinked : Linked graph.toList) (hkeeps : graph.KeepsNames)
    (hdistinct : DistinctMethods graph.toList) (h : Settling graph declared store)
    {pair other : ClassEntry × MethodEntry} {place : ClassId × Nat}
    (hentry : graph.at? place.1 = some pair.1) (hmethod : pair.1.methods[place.2]? = some pair.2)
    (hsettled : IsSettled graph declared other store) :
    IsSettled graph declared other (mapOverride graph store pair) := by
  intro found hfound hindex hbase
  rw [mappingAt?_mapOverride hlinked hkeeps hdistinct h hentry hmethod,
    hsettled found hfound hindex hbase]
  split
  · rw [Option.or_self]
  · rw [Option.or_none]

/-- Once every override has been mapped, each method has the mapping of the end of its chain. -/
theorem mappingAt?_foldl_mapOverrides (hlinked : Linked graph.toList) (hkeeps : graph.KeepsNames)
    (hdistinct : DistinctMethods graph.toList) (hkeyed : Keyed graph declared)
    (hdeclared : ∀ place, (baseAt? graph place).isSome → mappingAt? graph declared place = none)
    (place : ClassId × Nat) :
    mappingAt? graph (graph.toList.foldl (mapOverrides graph) declared) place =
      target? graph declared place := by
  have hplace : ∀ pair ∈ graph.toList.flatMap fun entry => entry.methods.map (entry, ·),
      ∃ place : ClassId × Nat, graph.at? place.1 = some pair.1 ∧
        pair.1.methods[place.2]? = some pair.2 := by
    intro pair hpair
    obtain ⟨entry, hentry, hpair⟩ := List.mem_flatMap.1 hpair
    obtain ⟨method, hmethod, rfl⟩ := List.mem_map.1 hpair
    exact exists_place hentry hmethod
  have hstep : ∀ store, Settling graph declared store →
      ∀ pair ∈ graph.toList.flatMap fun entry => entry.methods.map (entry, ·),
        Settling graph declared (mapOverride graph store pair) ∧
          IsSettled graph declared pair (mapOverride graph store pair) := by
    intro store hstore pair hpair
    obtain ⟨_, hentry, hmethod⟩ := hplace pair hpair
    exact ⟨settling_mapOverride hlinked hkeeps hdistinct hstore hentry hmethod,
      isSettled_mapOverride hlinked hkeeps hdistinct hstore pair⟩
  have hkeep : ∀ store, Settling graph declared store →
      ∀ pair ∈ graph.toList.flatMap fun entry => entry.methods.map (entry, ·),
        ∀ other, IsSettled graph declared other store →
          IsSettled graph declared other (mapOverride graph store pair) := by
    intro store hstore pair hpair other hsettled
    obtain ⟨_, hentry, hmethod⟩ := hplace pair hpair
    exact hsettled.mapOverride hlinked hkeeps hdistinct hstore hentry hmethod
  obtain ⟨hall, hsettled⟩ := foldl_settles _ (settling_declared hkeyed hdeclared) hstep hkeep
  rw [foldl_mapOverrides]
  cases hbase : baseAt? graph place with
  | none => rw [hall.ends place hbase, target?_of_end hbase]
  | some base =>
    obtain ⟨method, hmethod, hbase⟩ := Option.bind_eq_some_iff.1 hbase
    obtain ⟨entry, hentry, hindex⟩ := methodAt?_eq_some_iff.1 hmethod
    refine hsettled (entry, method) ?_ place hentry hindex (by rw [hbase]; rfl)
    exact List.mem_flatMap.2 ⟨entry, mem_of_at? hentry,
      List.mem_map.2 ⟨method, List.mem_of_getElem? hindex, rfl⟩⟩

/-! ## Generated stores -/

/-- A method with a mapping has the property of those that the store describes. -/
theorem Describes.of_mappingAt? {property : MethodEntry → Prop} (h : Describes property graph store)
    (hkeeps : graph.KeepsNames) (hdistinct : DistinctMethods graph.toList) {place : ClassId × Nat}
    {method : MethodEntry} (hmethod : graph.methodAt? place = some method)
    (hmapping : (mappingAt? graph store place).isSome) : property method := by
  obtain ⟨entry, hentry, hindex⟩ := methodAt?_eq_some_iff.1 hmethod
  rw [mappingAt?_eq hentry hindex, mappingOf?, Option.isSome_map] at hmapping
  obtain ⟨row, hrow⟩ := Option.isSome_iff_exists.1 hmapping
  have hmatch := List.find?_some hrow
  rw [Bool.and_eq_true, beq_iff_eq, beq_iff_eq] at hmatch
  obtain ⟨other, hother, hclass, found, hfound, hproperty, hname, hdesc⟩ :=
    h.methods entry.name row (List.mem_of_find?_eq_some hrow)
  obtain ⟨index, hat⟩ := List.getElem?_of_mem hother
  obtain ⟨k, hk⟩ := List.getElem?_of_mem hfound
  have hplace : place = (⟨index⟩, k) := by
    refine place_eq_of_names hkeeps hdistinct hentry ?_ hindex hk hclass.symm
      (hmatch.1.symm.trans hname.symm) (hmatch.2.symm.trans hdesc.symm)
    rw [at?_eq_getElem?]
    exact hat
  have hsame : graph.methodAt? place = some found := by
    rw [hplace]
    exact methodAt?_eq_some_iff.2 ⟨other, by rw [at?_eq_getElem?]; exact hat, hk⟩
  rw [hmethod, Option.some.injEq] at hsame
  exact hsame ▸ hproperty

section
variable {σ : Type} (source : NameSource σ) (reserved : List String) (names : σ)

/-- After the declarations no class gets another mapping. -/
theorem memberKey_generated (name : String) :
    (generated source reserved graph names).memberKey name =
      (declareAll source reserved graph names).1.memberKey name := by
  let P := fun store : Store =>
    store.memberKey name = (declareAll source reserved graph names).1.memberKey name
  have hoverride : P (overrideAll source reserved graph names) := by
    refine List.foldlRecOn graph.toList _ (motive := P) rfl fun store hstore entry _ => ?_
    refine mapOverrides_induction hstore fun store hstore method _ _ _ _ => ?_
    show Store.memberKey _ name = _
    rw [mapMethod_eq_with]
    exact hstore
  refine List.foldlRecOn graph.enumerate _ (motive := P) hoverride fun store hstore place _ => ?_
  refine mapInheritedFields_induction hstore fun store hstore owner row _ => ?_
  show Store.memberKey _ name = _
  rw [mapField_eq_with]
  exact hstore

/-- Inherited fields leave the methods alone. -/
theorem classMethods_inheritAll (className : String) :
    (inheritAll source reserved graph names).classMethods className =
      (overrideAll source reserved graph names).classMethods className := by
  let P := fun store : Store =>
    store.classMethods className = (overrideAll source reserved graph names).classMethods className
  refine List.foldlRecOn graph.enumerate _ (motive := P) rfl fun store hstore place _ => ?_
  refine mapInheritedFields_induction hstore fun store hstore owner row _ => ?_
  exact (classMethods_mapField store place.2.name className row).trans hstore

theorem mappingAt?_generated_eq_overrideAll (place : ClassId × Nat) :
    mappingAt? graph (generated source reserved graph names) place =
      mappingAt? graph (overrideAll source reserved graph names) place := by
  have hmapping : ∀ entry method, mappingOf? (generated source reserved graph names) entry method =
      mappingOf? (overrideAll source reserved graph names) entry method := by
    intro entry method
    rw [mappingOf?, mappingOf?, methodRow?, methodRow?, generated, classMethods_completeDescriptors,
      classMethods_inheritAll, List.find?_map, Option.map_map]
    rfl
  rw [mappingAt?, mappingAt?]
  simp only [funext (hmapping _)]

/-- In a generated store every method has the mapping of the end of its chain, and methods on chains
that go around have none. -/
theorem mappingAt?_generated (hlinked : Linked graph.toList) (hkeeps : graph.KeepsNames)
    (hdistinct : DistinctMethods graph.toList)
    (hkeyed : Keyed graph (generated source reserved graph names)) (place : ClassId × Nat) :
    mappingAt? graph (generated source reserved graph names) place =
      target? graph (declareAll source reserved graph names).1 place := by
  rw [mappingAt?_generated_eq_overrideAll]
  refine mappingAt?_foldl_mapOverrides hlinked hkeeps hdistinct ?_ ?_ place
  · intro entry hentry
    rw [← memberKey_generated]
    exact hkeyed entry hentry
  · intro place hbase
    obtain ⟨base, hbase⟩ := Option.isSome_iff_exists.1 hbase
    obtain ⟨method, hmethod, hbase⟩ := Option.bind_eq_some_iff.1 hbase
    by_contra hsome
    have hdescribes : Describes (IsNamed reserved) graph (declareAll source reserved graph names).1 :=
      describes_declareAll source names
    have hnamed := hdescribes.of_mappingAt? hkeeps hdistinct hmethod
      (Option.isSome_iff_ne_none.2 hsome)
    rw [hnamed.1] at hbase
    exact absurd hbase (by simp)

/-- A method and the one that it overrides have one mapping, or none both. -/
theorem mappingAt?_generated_base (hlinked : Linked graph.toList) (hkeeps : graph.KeepsNames)
    (hdistinct : DistinctMethods graph.toList)
    (hkeyed : Keyed graph (generated source reserved graph names)) {place base : ClassId × Nat}
    (hbase : baseAt? graph place = some base) :
    mappingAt? graph (generated source reserved graph names) base =
      mappingAt? graph (generated source reserved graph names) place := by
  rw [mappingAt?_generated source reserved names hlinked hkeeps hdistinct hkeyed,
    mappingAt?_generated source reserved names hlinked hkeeps hdistinct hkeyed, target?, target?,
    rootOf?_base hlinked hdistinct hbase]

end

end JvmArchive.Mapping
