import JvmArchive.Mapping.Strategy
import JvmArchive.Proofs.Mapping.ClassNames
import JvmArchive.Proofs.Mapping.Listed

/-!
# Generated mappings through a file

A generated store that is written to a ProGuard file and read back exchanges the same names in both
directions exactly if none of its rows stands under a class that is listed nowhere, as the rows of a main
class do.
-/
namespace JvmArchive.Mapping

open ClassGraph Descriptor Store

/-! ## Flat tables with the same rows -/

namespace Store

variable {store : Store}

/-- The first entry that a test accepts, where it accepts entries of one key only, depends on the rows of
the keys alone. -/
theorem find?_flatMap_entries_congr {κ ρ β : Type} [DecidableEq κ] [Inhabited κ] {a b : Table κ (List ρ)}
    (hrows : ∀ key, (a.get? key).getD [] = (b.get? key).getD []) (f : κ → ρ → β) (p : β → Bool)
    (hone : ∀ key other, ∀ row ∈ (a.get? key).getD [], ∀ found ∈ (a.get? other).getD [],
      p (f key row) = true → p (f other found) = true → key = other) :
    (a.entries.flatMap fun entry => entry.2.map (f entry.1)).find? p =
      (b.entries.flatMap fun entry => entry.2.map (f entry.1)).find? p := by
  obtain ⟨key, hkey⟩ : ∃ key, ∀ other, other ≠ key →
      ∀ row ∈ (a.get? other).getD [], p (f other row) = false := by
    by_cases hfound : ∃ key, ∃ row ∈ (a.get? key).getD [], p (f key row) = true
    · obtain ⟨key, row, hrow, haccepted⟩ := hfound
      refine ⟨key, fun other hne found hmem => ?_⟩
      rw [← Bool.not_eq_true]
      exact fun hother => hne (hone other key found hmem row hrow hother haccepted)
    · refine ⟨default, fun other _ row hrow => ?_⟩
      rw [← Bool.not_eq_true]
      exact fun haccepted => hfound ⟨other, row, hrow, haccepted⟩
  rw [find?_flatMap_entries a f p key hkey, find?_flatMap_entries b f p key fun other hne row hrow =>
    hkey other hne row (hrows other ▸ hrow), hrows]

/-- Whether a class has rows in a store. -/
def HasRows (store : Store) (className : String) : Prop :=
  store.classFields className ≠ [] ∨ store.classMethods className ≠ []

instance (store : Store) (className : String) : Decidable (store.HasRows className) :=
  inferInstanceAs (Decidable (_ ∨ _))

/-- Whether the names under which the rows of a store are exchanged tell its classes apart. -/
structure Owned (store : Store) : Prop where
  dot : ∀ className, store.HasRows className → '.' ∉ (store.ownerName className).toList
  injective : ∀ className other, store.HasRows className → store.HasRows other →
    store.ownerName className = store.ownerName other → className = other

/-- Two stores with the same classes and the same rows exchange the same names. -/
theorem get?_flatten_congr {a b : Store} (hdirection : a.direction = b.direction)
    (hclasses : a.classes = b.classes) (hfields : ∀ name, a.classFields name = b.classFields name)
    (hmethods : ∀ name, a.classMethods name = b.classMethods name) (howned : a.Owned) (key : String) :
    a.flatten.get? key = b.flatten.get? key := by
  have howner : a.ownerName = b.ownerName := by
    funext className
    rw [ownerName, ownerName, hdirection, mappedName, mappedName, hclasses]
  have hclassRows : a.classRows = b.classRows := by
    rw [classRows, classRows, hdirection, hclasses]
  -- the part of a key in front of its first dot is the owner
  have howns : ∀ {className other : String} {name rest : List Char}, a.HasRows className →
      a.HasRows other → (a.ownerName className).toList ++ '.' :: name = key.toList →
        (a.ownerName other).toList ++ '.' :: rest = key.toList → className = other := by
    intro className other name rest hrow hother hkey hsame
    have hfront := (eq_of_append_separator (howned.dot className hrow) (howned.dot other hother)
      (hkey.trans hsame.symm)).1
    exact howned.injective className other hrow hother (String.toList_inj.1 hfront)
  have hfieldRows : a.fieldRows.find? (·.1 = key) = b.fieldRows.find? (·.1 = key) := by
    rw [fieldRows, fieldRows, ← howner, ← hdirection]
    refine find?_flatMap_entries_congr hfields (fun className (row : FieldMapping) =>
      (fieldKey (a.ownerName className) (a.direction.orient row.name row.mapping).1,
        (a.direction.orient row.name row.mapping).2)) _
      fun className other row hrow found hfound hkey hsame => ?_
    rw [decide_eq_true_eq] at hkey hsame
    rw [← String.toList_inj, toList_fieldKey] at hkey hsame
    exact howns (.inl (List.ne_nil_of_mem hrow)) (.inl (List.ne_nil_of_mem hfound)) hkey hsame
  have hmethodRows : a.methodRows.find? (·.1 = key) = b.methodRows.find? (·.1 = key) := by
    rw [methodRows, methodRows, ← howner, ← hdirection]
    refine find?_flatMap_entries_congr hmethods (fun className (row : MethodMapping) =>
      (methodKey (a.ownerName className) (a.direction.orient row.name row.mapping).1
          (a.direction.orient row.desc row.mappedDesc).1,
        (a.direction.orient row.name row.mapping).2)) _
      fun className other row hrow found hfound hkey hsame => ?_
    rw [decide_eq_true_eq] at hkey hsame
    rw [← String.toList_inj, toList_methodKey] at hkey hsame
    exact howns (.inr (List.ne_nil_of_mem hrow)) (.inr (List.ne_nil_of_mem hfound)) hkey hsame
  rw [flatten, flatten, Table.get?_firsts, Table.get?_firsts, List.find?_append, List.find?_append,
    List.find?_append, List.find?_append, hclassRows, hfieldRows, hmethodRows]

/-! ## Stores read back -/

/-- Whether no two classes of a store have one new name. -/
def DistinctClasses (store : Store) : Prop :=
  ∀ name other mapping, store.classes.get? name = some mapping →
    store.classes.get? other = some mapping → name = other

theorem Plain.withDirection (h : store.Plain) (direction : Direction) :
    Plain { store with direction } :=
  ⟨h.classes, h.fields, h.methods⟩

section
variable (hmembers : DistinctMembers store) (hfirst : NamesFirst store) (hcompleted : Completed store)
include hmembers hfirst hcompleted

theorem Plain.reread (h : store.Plain) : store.reread.Plain where
  classes := by
    change ∀ name, (store.listed.classes.get? name).isSome → _
    rw [classes_listed hmembers]
    exact h.classes
  fields className row hrow := by
    rw [classFields_reread hmembers hfirst hcompleted] at hrow
    split at hrow
    · exact h.fields className row hrow
    · simp at hrow
  methods className row hrow := by
    rw [classMethods_reread hmembers hfirst hcompleted] at hrow
    split at hrow
    · exact h.methods className row hrow
    · simp at hrow

/-- If every class with rows is listed, the names are exchanged as before in both directions. -/
theorem get?_flatten_reread (hplain : store.Plain) (hdistinct : store.DistinctClasses)
    (hmappings : ∀ name mapping, store.classes.get? name = some mapping → '.' ∉ mapping.toList)
    (hlisted : ∀ className, store.HasRows className → (store.classes.get? className).isSome)
    (direction : Direction) (key : String) :
    { store.reread with direction }.flatten.get? key = { store with direction }.flatten.get? key := by
  have hrows : ∀ className, ¬(store.classes.get? className).isSome →
      store.classFields className = [] ∧ store.classMethods className = [] := by
    intro className hunlisted
    have hnone := mt (hlisted className) hunlisted
    rwa [HasRows, not_or, not_not, not_not] at hnone
  have hfields : ∀ name, store.classFields name = store.reread.classFields name := by
    intro name
    rw [classFields_reread hmembers hfirst hcompleted]
    split
    · rfl
    · exact (hrows name (by assumption)).1
  have hmethods : ∀ name, store.classMethods name = store.reread.classMethods name := by
    intro name
    rw [classMethods_reread hmembers hfirst hcompleted]
    split
    · rfl
    · exact (hrows name (by assumption)).2
  have howner : ∀ className, store.HasRows className →
      store.classes.get? className = some (store.mappedName className) := by
    intro className hrow
    obtain ⟨mapping, hmapping⟩ := Option.isSome_iff_exists.1 (hlisted className hrow)
    rw [mappedName, hmapping, Option.getD_some]
  have howned : Owned { store with direction } := by
    cases direction with
    | applying =>
      exact ⟨fun className hrow => hplain.classes className (hlisted className hrow),
        fun className other _ _ hsame => hsame⟩
    | reversing =>
      refine ⟨fun className hrow => hmappings className _ (howner className hrow),
        fun className other hrow hother hsame => ?_⟩
      change store.mappedName className = store.mappedName other at hsame
      exact hdistinct className other _ (howner className hrow) (hsame ▸ howner other hother)
  have hclasses : store.classes = store.reread.classes := (classes_listed hmembers).symm
  exact (get?_flatten_congr (a := { store with direction }) (b := { store.reread with direction })
    rfl hclasses hfields hmethods howned key).symm

/-- A row of a class that is not listed is lost. -/
theorem isSome_get?_of_flatten_reread (hplain : store.Plain)
    (hsame : ∀ key, { store.reread with direction := .applying }.flatten.get? key =
      { store with direction := .applying }.flatten.get? key)
    {className : String} (hrows : store.HasRows className) :
    (store.classes.get? className).isSome := by
  by_contra hunlisted
  have hfields : classFields { store.reread with direction := .applying } className = [] :=
    (classFields_reread hmembers hfirst hcompleted className).trans (if_neg hunlisted)
  have hmethods : classMethods { store.reread with direction := .applying } className = [] :=
    (classMethods_reread hmembers hfirst hcompleted className).trans (if_neg hunlisted)
  have hreread := (hplain.reread hmembers hfirst hcompleted).withDirection .applying
  have hbefore := hplain.withDirection .applying
  rcases hrows with hrows | hrows
  · obtain ⟨row, hrow⟩ := List.exists_mem_of_ne_nil _ hrows
    obtain ⟨hdot, hparen⟩ := hplain.fields className row hrow
    have hkey := hsame (fieldKey className row.name)
    rw [get?_flatten_field rfl hreread hdot hparen, get?_flatten_field rfl hbefore hdot hparen] at hkey
    rw [hfields, List.find?_nil, Option.map_none, eq_comm, Option.map_eq_none_iff,
      List.find?_eq_none] at hkey
    simpa using hkey row hrow
  · obtain ⟨row, hrow⟩ := List.exists_mem_of_ne_nil _ hrows
    obtain ⟨hdot, hparen, hdesc⟩ := hplain.methods className row hrow
    have hkey := hsame (methodKey className row.name row.desc)
    rw [get?_flatten_method rfl hreread hdot hparen hdesc,
      get?_flatten_method rfl hbefore hdot hparen hdesc] at hkey
    rw [methodRow?, hmethods, List.find?_nil, Option.map_none, eq_comm, Option.map_eq_none_iff,
      methodRow?, List.find?_eq_none] at hkey
    simpa using hkey row hrow

end

end Store

/-! ## Graphs whose names can be written down -/

theorem isName_of_alphanumeric {name : String} (h : IsAlphanumeric name) : IsName name := by
  have hletters : ∀ c ∈ randomCharacters, Text.isBlank c = false ∧ c ∉ marks ∧ c ≠ '-' :=
    Text.forall_mem_of_all (by decide +kernel)
  exact ⟨⟨h.ne_nil, fun c hc => (hletters c (h.mem c hc)).1⟩,
    fun c hc => (hletters c (h.mem c hc)).2.1,
    fun hdash => (hletters '-' (h.mem '-' (List.mem_of_mem_head? hdash))).2.2 rfl⟩

/-- The new name of an inner class. -/
theorem IsName.inner {outer short : String} (houter : IsName outer) (hshort : IsName short) :
    IsName (outer ++ "$" ++ short) := by
  have hdollar : '$' ∉ marks := by decide
  obtain ⟨c, rest, hcons⟩ := List.exists_cons_of_ne_nil houter.word.ne_nil
  have hdash := houter.dash
  rw [hcons] at hdash
  refine ⟨?_, fun c hc => ?_, ?_⟩
  · rw [String.toList_append, String.toList_append]
    exact (houter.word.append (Text.forall_mem_of_all (by decide))).append hshort.word.blank
  · simp only [String.toList_append, List.mem_append] at hc
    rcases hc with (hfront | hmiddle) | hback
    · exact houter.unmarked c hfront
    · obtain rfl : c = '$' := by simpa using hmiddle
      exact hdollar
    · exact hshort.unmarked c hback
  · simpa [hcons] using hdash

/-- Whether everything that a graph declares can be written down and read back. -/
structure Writable (graph : ClassGraph) : Prop where
  names : ∀ name ∈ graph.names, IsName name
  classes : ∀ entry ∈ graph.toList, IsName entry.name
  fields : ∀ entry ∈ graph.toList, ∀ field ∈ entry.fields,
    IsName field.name ∧ IsFieldType field.desc.toList
  methods : ∀ entry ∈ graph.toList, ∀ method ∈ entry.methods,
    IsName method.name ∧ ∃ arguments result, IsMethodType method.desc arguments result

section
variable {σ : Type} {source : NameSource σ} {reserved : List String} {graph : ClassGraph}

/-- A generated store can be written down. -/
theorem isWritable_generated (hsource : source.Alphanumeric) (h : Writable graph) (names : σ) :
    (generated source reserved graph names).IsWritable := by
  have hdescribes := describes_generated source reserved graph names
  have hnames : NamesWith IsName IsName (generated source reserved graph names) :=
    namesWith_generated (fun name hdrawn => isName_of_alphanumeric (hsource _ name hdrawn))
      (fun scope name hdrawn => isName_of_alphanumeric (hsource scope name hdrawn)) IsName.inner
      h.names names
  refine ⟨fun pair hpair => ?_, fun className row hrow => ?_, fun className row hrow => ?_⟩
  · have hmapping := Table.get?_of_mem_entries hpair
    obtain ⟨entry, hentry, hname⟩ := hdescribes.classes pair.1 (by rw [hmapping]; rfl)
    exact ⟨hname ▸ h.classes entry hentry, hnames.classes pair.1 pair.2 hmapping⟩
  · obtain ⟨-, entry, hentry, field, hfield, hname, hdesc⟩ := hdescribes.fields className row hrow
    obtain ⟨hisName, htype⟩ := h.fields entry hentry field hfield
    exact ⟨hname ▸ hisName, hnames.fields className row hrow, hdesc ▸ htype⟩
  · obtain ⟨entry, hentry, -, method, hmethod, -, hname, hdesc⟩ :=
      hdescribes.methods className row hrow
    obtain ⟨hisName, htype⟩ := h.methods entry hentry method hmethod
    exact ⟨hname ▸ hisName, hnames.methods className row hrow, hdesc ▸ htype⟩

theorem Writable.plainNames (h : Writable graph) : PlainNames graph.toList where
  classes entry hentry := by
    have hname := h.classes entry hentry
    exact ⟨hname.not_mem (by decide),
      fun harray => hname.not_mem (by decide) (List.mem_of_mem_head? harray)⟩
  fields entry hentry field hfield := (h.fields entry hentry field hfield).1.not_mem (by decide)
  methods entry hentry method hmethod := by
    obtain ⟨hname, arguments, result, htype⟩ := h.methods entry hentry method hmethod
    refine ⟨hname.not_mem (by decide), ?_⟩
    rw [StartsMethod, htype.eq]
    rfl

/-- Whether every class with rows in a store is listed, that is to say is no main class. -/
def ListsRows (store : Store) (entries : List ClassEntry) : Prop :=
  ∀ entry ∈ entries, store.HasRows entry.name →
    ∃ other ∈ entries, other.isMain = false ∧ other.name = entry.name

instance (store : Store) (entries : List ClassEntry) : Decidable (ListsRows store entries) :=
  inferInstanceAs (Decidable (∀ entry ∈ entries,
    store.classFields entry.name ≠ [] ∨ store.classMethods entry.name ≠ [] →
      ∃ other ∈ entries, other.isMain = false ∧ other.name = entry.name))

theorem listsRows_iff (names : σ) :
    ListsRows (generated source reserved graph names) graph.toList ↔
      ∀ className, (generated source reserved graph names).HasRows className →
        ((generated source reserved graph names).classes.get? className).isSome := by
  have hdescribes := describes_generated source reserved graph names
  constructor
  · intro hlists className hrows
    obtain ⟨entry, hentry, rfl⟩ : ∃ entry ∈ graph.toList, entry.name = className := by
      rcases hrows with hrows | hrows
      · obtain ⟨row, hrow⟩ := List.exists_mem_of_ne_nil _ hrows
        exact (hdescribes.fields className row hrow).1
      · obtain ⟨row, hrow⟩ := List.exists_mem_of_ne_nil _ hrows
        obtain ⟨entry, hentry, hname, -⟩ := hdescribes.methods className row hrow
        exact ⟨entry, hentry, hname⟩
    exact (isSome_get?_classes_generated source reserved graph names _).2 (hlists entry hentry hrows)
  · intro hlisted entry _ hrows
    exact (isSome_get?_classes_generated source reserved graph names _).1 (hlisted entry.name hrows)

end

/-- A generated store can be written to a ProGuard file, and the file is read, whatever names it has been
generated with. If no two classes got one new name, which alphabetic names rule out, then the names are
exchanged as before in both directions exactly if no main class has rows: a file lists no class without a
new name. -/
theorem exists_ofText_write_generated_iff {ρ : Type} (words : WordSource ρ) (names : Naming ρ)
    (reserved : List String) {graph : ClassGraph} (hresolved : graph.resolved = true)
    (hwritable : Writable graph) :
    ∃ store rest loaded,
      generate (Naming.source words) reserved graph names = .ok (store, rest) ∧
        Format.ofText .proGuard (Format.write .proGuard store) = .ok loaded ∧
          ((∃ counters, names = .alphabetic counters) ∨ store.DistinctClasses →
            ((∀ (direction : Direction) (key : String),
                { loaded with direction }.flatten.get? key = { store with direction }.flatten.get? key) ↔
              ListsRows store graph.toList)) := by
  let source := Naming.source words
  have hwritten : (generated source reserved graph names).IsWritable :=
    isWritable_generated (alphanumeric_naming words) hwritable names
  refine ⟨_, _, _, generate_eq_ok _ _ _ _ hresolved, ProGuard.ofText_write hwritten, fun hclasses => ?_⟩
  have hmembers := distinctMembers_generated source reserved graph names
  have hfirst := namesFirst_generated source reserved graph names
  have hcompleted := completed_generated source reserved graph names
  have hplain : (generated source reserved graph names).Plain :=
    (describes_generated source reserved graph names).plain hwritable.plainNames
  have hdistinct : (generated source reserved graph names).DistinctClasses := by
    rcases hclasses with ⟨counters, rfl⟩ | hdistinct
    · intro name other mapping
      exact eq_of_get?_classes_alphabetic words reserved graph counters
    · exact hdistinct
  have hmappings : ∀ name mapping,
      (generated source reserved graph names).classes.get? name = some mapping →
        '.' ∉ mapping.toList := by
    intro name mapping hmapping
    exact (hwritten.classes _ (Table.mem_entries_of_get? hmapping)).2.not_mem (by decide)
  rw [listsRows_iff]
  constructor
  · intro hsame className hrows
    exact isSome_get?_of_flatten_reread hmembers hfirst hcompleted hplain (hsame .applying) hrows
  · intro hlisted direction key
    exact get?_flatten_reread hmembers hfirst hcompleted hplain hdistinct hmappings hlisted direction key

/-- A main class with fields, and a class with a field and a method. -/
def startGraph (fields : List FieldNode) : ClassGraph :=
  .ofList
    [{ ClassEntry.ofNode
        { access := 1, name := "p/Main", superName := some "java/lang/Object", fields
          methods := [{ access := 9, name := "main", desc := "([Ljava/lang/String;)V" }] } with
        isMain := true },
    .ofNode
      { access := 1, name := "p/A", superName := some "java/lang/Object"
        fields := [{ access := 2, name := "x", desc := "I" }]
        methods := [{ access := 1, name := "m", desc := "()V" }] }]

theorem writable_startGraph : Writable (startGraph []).resolve := by
  have hstring : IsName "java/lang/String" := by decide
  have hmain : IsMethodType "([Ljava/lang/String;)V"
      ['[' :: ('L' :: "java/lang/String".toList ++ [';'])] ['V'] :=
    ⟨by decide, by simpa using .array (.object hstring (by decide)), .primitive (by decide)⟩
  have hm : IsMethodType "()V" [] ['V'] := ⟨by decide, by simp, .primitive (by decide)⟩
  have hfields : ∀ entry ∈ (startGraph []).resolve.toList, ∀ field ∈ entry.fields,
      IsName field.name ∧ field.desc = "I" := by decide +kernel
  have hmethods : ∀ entry ∈ (startGraph []).resolve.toList, ∀ method ∈ entry.methods,
      IsName method.name ∧ (method.desc = "([Ljava/lang/String;)V" ∨ method.desc = "()V") := by
    decide +kernel
  refine ⟨by decide +kernel, by decide +kernel, fun entry hentry field hfield => ?_,
    fun entry hentry method hmethod => ?_⟩
  · obtain ⟨hname, hdesc⟩ := hfields entry hentry field hfield
    exact ⟨hname, hdesc ▸ .primitive (by decide)⟩
  · obtain ⟨hname, hdesc | hdesc⟩ := hmethods entry hentry method hmethod
    · exact ⟨hname, _, _, hdesc ▸ hmain⟩
    · exact ⟨hname, _, _, hdesc ▸ hm⟩

/-- The names of the class beside a main class without fields come through the file. -/
theorem flatten_reread_startGraph :
    ∃ store names loaded,
      generate Namer.source reservedMethods (startGraph []).resolve (.ofStrategy .alphabetic) =
          .ok (store, names) ∧
        store.flatten.entries = [("p/A", "a"), ("p/A.x", "a"), ("p/A.m()V", "a")] ∧
          Format.ofText .proGuard (Format.write .proGuard store) = .ok loaded ∧
            ∀ (direction : Direction) (key : String),
              { loaded with direction }.flatten.get? key =
                { store with direction }.flatten.get? key := by
  obtain ⟨store, names, loaded, hgenerate, hloaded, hsame⟩ :=
    exists_ofText_write_generated_iff generatorWords (Namer.ofStrategy .alphabetic) reservedMethods rfl
      writable_startGraph
  have hstore : store =
      generated Namer.source reservedMethods (startGraph []).resolve (.ofStrategy .alphabetic) := by
    rw [generate_eq_ok _ _ _ _ rfl, Except.ok.injEq, Prod.mk.injEq] at hgenerate
    exact hgenerate.1.symm
  refine ⟨store, names, loaded, hgenerate, ?_, hloaded, (hsame (.inl ⟨{}, rfl⟩)).2 ?_⟩
  · rw [hstore]
    decide +kernel
  · rw [hstore]
    decide +kernel

/-- The field of a main class has a new name, which the file does not tell. -/
theorem lost_field_startGraph :
    (generate Namer.source reservedMethods
        (startGraph [{ access := 2, name := "x", desc := "I" }]).resolve
        (.ofStrategy .alphabetic)).toOption.bind (fun result =>
      (Format.ofText .proGuard (Format.write .proGuard result.1)).toOption.map fun loaded =>
        (result.1.flatten.get? "p/Main.x",
          { loaded with direction := .applying }.flatten.get? "p/Main.x")) =
      some (some "a", none) := by
  decide +kernel

end JvmArchive.Mapping
