import JvmArchive.Mapping.Store
import JvmArchive.Proofs.Table
import Mathlib.Data.List.Find

/-!
# Rows of mapping stores

What a store answers for a member after one more mapping, and which row of its flat table a key means.
Class names without a dot and member names without an opening parenthesis keep the three kinds of keys
apart.
-/
namespace JvmArchive.Mapping.Store

/-! ## Members of one class -/

/-- The mapping that stands for a method in the table of a class. -/
def methodRow? (store : Store) (className name desc : String) : Option MethodMapping :=
  (store.classMethods className).find? fun row => row.name == name && row.desc == desc

/-- The mapping that stands for a field of a name and a type in the table of a class. -/
def fieldRow? (store : Store) (className name desc : String) : Option FieldMapping :=
  (store.classFields className).find? fun row => row.name == name && row.desc == desc

variable {store : Store}

theorem getD_get?_insert {κ ρ : Type} [DecidableEq κ] (table : Table κ (List ρ)) (key other : κ)
    (rows : List ρ) :
    ((table.insert key rows).get? other).getD [] =
      if key = other then rows else (table.get? other).getD [] := by
  rw [Table.get?_insert]
  split <;> rfl

theorem hasMethod_eq_isSome (store : Store) (className : String) (row : MethodMapping) :
    store.hasMethod className row = (store.methodRow? className row.name row.desc).isSome := by
  rw [hasMethod, methodRow?, List.isSome_find?]

theorem hasField_eq_isSome (store : Store) (className : String) (row : FieldMapping) :
    store.hasField className row = (store.fieldRow? className row.name row.desc).isSome := by
  rw [hasField, fieldRow?, List.isSome_find?]

/-- A method mapping comes behind the others of its class, unless there is one for the method. -/
theorem classMethods_mapMethod (store : Store) (className other : String) (row : MethodMapping) :
    (store.mapMethod className row).classMethods other =
      store.classMethods other ++
        if className = other ∧ store.methodRow? className row.name row.desc = none then [row]
        else [] := by
  unfold mapMethod
  rw [hasMethod_eq_isSome]
  cases hrow : store.methodRow? className row.name row.desc with
  | some found => simp
  | none =>
    by_cases h : className = other
    · subst h
      simp [classMethods, getD_get?_insert]
    · simp [classMethods, getD_get?_insert, h]

/-- A field mapping comes behind the others of its class, unless there is one for the field. -/
theorem classFields_mapField (store : Store) (className other : String) (row : FieldMapping) :
    (store.mapField className row).classFields other =
      store.classFields other ++
        if className = other ∧ store.fieldRow? className row.name row.desc = none then [row]
        else [] := by
  unfold mapField
  rw [hasField_eq_isSome]
  cases hrow : store.fieldRow? className row.name row.desc with
  | some found => simp
  | none =>
    by_cases h : className = other
    · subst h
      simp [classFields, getD_get?_insert]
    · simp [classFields, getD_get?_insert, h]

/-- One more method mapping answers for its own method alone, and only if nothing did before. -/
theorem methodRow?_mapMethod (store : Store) (className other name desc : String)
    (row : MethodMapping) :
    (store.mapMethod className row).methodRow? other name desc =
      (store.methodRow? other name desc).or
        (if className = other ∧ row.name = name ∧ row.desc = desc then some row else none) := by
  unfold methodRow?
  rw [classMethods_mapMethod, List.find?_append]
  by_cases hclass : className = other
  · subst hclass
    by_cases hrow : row.name = name ∧ row.desc = desc
    · obtain ⟨rfl, rfl⟩ := hrow
      cases hfound : store.methodRow? className row.name row.desc with
      | none => simp
      | some found =>
        rw [methodRow?] at hfound
        simp [hfound]
    · have hmiss : (row.name == name && row.desc == desc) = false := by simpa using hrow
      rw [if_neg fun h : className = className ∧ _ => hrow h.2]
      congr 1
      split
      · simp [hmiss]
      · rfl
  · simp [hclass]

@[simp]
theorem classFields_mapMethod (store : Store) (className other : String) (row : MethodMapping) :
    (store.mapMethod className row).classFields other = store.classFields other := by
  unfold mapMethod
  split <;> rfl

@[simp]
theorem classMethods_mapField (store : Store) (className other : String) (row : FieldMapping) :
    (store.mapField className row).classMethods other = store.classMethods other := by
  unfold mapField
  split <;> rfl

/-! ## Keys of flat tables -/

theorem toList_fieldKey (owner name : String) :
    (fieldKey owner name).toList = owner.toList ++ '.' :: name.toList := by
  simp [fieldKey]

theorem toList_methodKey (owner name desc : String) :
    (methodKey owner name desc).toList = owner.toList ++ '.' :: (name.toList ++ desc.toList) := by
  simp [methodKey]

/-- What stands before and behind the first place of a separator. -/
theorem eq_of_append_separator {α : Type} {separator : α} {front behind other rest : List α}
    (hfront : separator ∉ front) (hother : separator ∉ other)
    (h : front ++ separator :: behind = other ++ separator :: rest) :
    front = other ∧ behind = rest := by
  induction front generalizing other with
  | nil =>
    cases other with
    | nil => simpa using h
    | cons c other =>
      simp only [List.nil_append, List.cons_append, List.cons.injEq] at h
      simp [h.1] at hother
  | cons c front ih =>
    cases other with
    | nil =>
      simp only [List.nil_append, List.cons_append, List.cons.injEq] at h
      simp [h.1] at hfront
    | cons d other =>
      simp only [List.mem_cons, not_or] at hfront hother
      simp only [List.cons_append, List.cons.injEq] at h
      obtain ⟨rfl, rfl⟩ := ih hfront.2 hother.2 h.2
      exact ⟨by rw [h.1], rfl⟩

theorem fieldKey_inj {owner name other field : String} (howner : '.' ∉ owner.toList)
    (hother : '.' ∉ other.toList) (h : fieldKey owner name = fieldKey other field) :
    owner = other ∧ name = field := by
  have hlists := congrArg String.toList h
  rw [toList_fieldKey, toList_fieldKey] at hlists
  obtain ⟨howners, hnames⟩ := eq_of_append_separator howner hother hlists
  exact ⟨String.toList_inj.1 howners, String.toList_inj.1 hnames⟩

/-- A descriptor of a method, by the parenthesis in front. -/
def StartsMethod (desc : String) : Prop := desc.toList.head? = some '('

instance (desc : String) : Decidable (StartsMethod desc) :=
  inferInstanceAs (Decidable (_ = _))

theorem methodKey_inj {owner name desc other method type : String} (howner : '.' ∉ owner.toList)
    (hother : '.' ∉ other.toList) (hname : '(' ∉ name.toList) (hmethod : '(' ∉ method.toList)
    (hdesc : StartsMethod desc) (htype : StartsMethod type)
    (h : methodKey owner name desc = methodKey other method type) :
    owner = other ∧ name = method ∧ desc = type := by
  have hlists := congrArg String.toList h
  rw [toList_methodKey, toList_methodKey] at hlists
  obtain ⟨howners, hrest⟩ := eq_of_append_separator howner hother hlists
  obtain ⟨arguments, hdesc⟩ := List.head?_eq_some_iff.1 hdesc
  obtain ⟨others, htype⟩ := List.head?_eq_some_iff.1 htype
  rw [hdesc, htype] at hrest
  obtain ⟨hnames, htypes⟩ := eq_of_append_separator hname hmethod hrest
  refine ⟨String.toList_inj.1 howners, String.toList_inj.1 hnames, String.toList_inj.1 ?_⟩
  rw [hdesc, htype, htypes]

theorem fieldKey_ne_methodKey {owner name other method type : String} (howner : '.' ∉ owner.toList)
    (hother : '.' ∉ other.toList) (hname : '(' ∉ name.toList) (htype : StartsMethod type) :
    fieldKey owner name ≠ methodKey other method type := by
  intro h
  have hlists := congrArg String.toList h
  rw [toList_fieldKey, toList_methodKey] at hlists
  obtain ⟨-, hrest⟩ := eq_of_append_separator howner hother hlists
  obtain ⟨arguments, htype⟩ := List.head?_eq_some_iff.1 htype
  exact hname (by simp [hrest, htype])

/-! ## Flat tables -/

/-- Whether the keys of a flat table can be taken apart. -/
structure Plain (store : Store) : Prop where
  classes : ∀ name, (store.classes.get? name).isSome → '.' ∉ name.toList
  fields : ∀ className, ∀ row ∈ store.classFields className,
    '.' ∉ className.toList ∧ '(' ∉ row.name.toList
  methods : ∀ className, ∀ row ∈ store.classMethods className,
    '.' ∉ className.toList ∧ '(' ∉ row.name.toList ∧ StartsMethod row.desc

/-- Among the rows of all classes, only those of one class can be meant by a key that belongs to it. -/
theorem find?_flatMap_entries {κ ρ β : Type} [DecidableEq κ] (table : Table κ (List ρ))
    (f : κ → ρ → β) (p : β → Bool) (key : κ)
    (h : ∀ other, other ≠ key → ∀ row ∈ (table.get? other).getD [], p (f other row) = false) :
    (table.entries.flatMap fun entry => entry.2.map (f entry.1)).find? p =
      (((table.get? key).getD []).map (f key)).find? p := by
  obtain ⟨entries, hnodup⟩ := table
  simp only [Table.get?] at h ⊢
  induction entries with
  | nil => rfl
  | cons entry entries ih =>
    obtain ⟨k, rows⟩ := entry
    rw [List.map_cons, List.nodup_cons] at hnodup
    have habsent : entries.find? (·.1 = k) = none := Table.find?_of_not_mem hnodup.1
    have hrest : ∀ other, other ≠ key →
        ∀ row ∈ ((entries.find? (·.1 = other)).map (·.2)).getD [], p (f other row) = false := by
      intro other hother row hrow
      by_cases hk : k = other
      · subst hk
        simp [habsent] at hrow
      · exact h other hother row (by simpa [hk] using hrow)
    rw [List.flatMap_cons, List.find?_append, ih hnodup.2 hrest]
    by_cases hkey : k = key
    · subst hkey
      simp [habsent]
    · have hrows : (rows.map (f k)).find? p = none := by
        rw [List.find?_eq_none]
        intro x hx
        obtain ⟨row, hrow, rfl⟩ := List.mem_map.1 hx
        simpa using h k hkey row (by simpa using hrow)
      simp [hrows, hkey]

/-- The keys of the fields of a store, each with its mapping. -/
def fieldEntries (store : Store) : List (String × String) :=
  store.fields.entries.flatMap fun entry =>
    entry.2.map fun row => (fieldKey entry.1 row.name, row.mapping)

/-- The keys of the methods of a store, each with its mapping. -/
def methodEntries (store : Store) : List (String × String) :=
  store.methods.entries.flatMap fun entry =>
    entry.2.map fun row => (methodKey entry.1 row.name row.desc, row.mapping)

/-- A store that exchanges names for their mappings looks a key up among its classes, then among its
fields and then among its methods. -/
theorem get?_flatten (hdirection : store.direction = .applying) (key : String) :
    store.flatten.get? key =
      (store.classes.get? key).or
        (((store.fieldEntries.find? (·.1 = key)).map (·.2)).or
          ((store.methodEntries.find? (·.1 = key)).map (·.2))) := by
  rw [flatten, Table.get?_firsts, List.find?_append, List.find?_append, Option.or_assoc]
  simp only [classRows, fieldRows, methodRows, ownerName, hdirection, Direction.orient, Option.map_or,
    List.map_id', Table.get?]
  rfl

theorem exists_of_mem_fieldEntries {entry : String × String} (h : entry ∈ store.fieldEntries) :
    ∃ className, ∃ row ∈ store.classFields className,
      entry = (fieldKey className row.name, row.mapping) := by
  obtain ⟨⟨className, rows⟩, hrows, hentry⟩ := List.mem_flatMap.1 h
  obtain ⟨row, hrow, rfl⟩ := List.mem_map.1 hentry
  refine ⟨className, row, ?_, rfl⟩
  rw [classFields, Table.get?_of_mem_entries hrows]
  exact hrow

theorem exists_of_mem_methodEntries {entry : String × String} (h : entry ∈ store.methodEntries) :
    ∃ className, ∃ row ∈ store.classMethods className,
      entry = (methodKey className row.name row.desc, row.mapping) := by
  obtain ⟨⟨className, rows⟩, hrows, hentry⟩ := List.mem_flatMap.1 h
  obtain ⟨row, hrow, rfl⟩ := List.mem_map.1 hentry
  refine ⟨className, row, ?_, rfl⟩
  rw [classMethods, Table.get?_of_mem_entries hrows]
  exact hrow

/-- A name without a dot is that of a class. -/
theorem get?_flatten_class (hdirection : store.direction = .applying) {name : String}
    (hname : '.' ∉ name.toList) : store.flatten.get? name = store.classes.get? name := by
  have hfields : store.fieldEntries.find? (·.1 = name) = none := by
    rw [List.find?_eq_none]
    intro entry hentry hkey
    obtain ⟨className, row, -, rfl⟩ := exists_of_mem_fieldEntries hentry
    refine hname ?_
    rw [← of_decide_eq_true hkey, toList_fieldKey]
    simp
  have hmethods : store.methodEntries.find? (·.1 = name) = none := by
    rw [List.find?_eq_none]
    intro entry hentry hkey
    obtain ⟨className, row, -, rfl⟩ := exists_of_mem_methodEntries hentry
    refine hname ?_
    rw [← of_decide_eq_true hkey, toList_methodKey]
    simp
  rw [get?_flatten hdirection, hfields, hmethods]
  simp

theorem get?_classes_of_dot (hplain : store.Plain) {key : String} (hkey : '.' ∈ key.toList) :
    store.classes.get? key = none := by
  cases h : store.classes.get? key with
  | none => rfl
  | some mapping => exact absurd hkey (hplain.classes key (by rw [h]; rfl))

/-- The key of a field means the first row of its class with the name, whatever its type is. -/
theorem get?_flatten_field (hdirection : store.direction = .applying) (hplain : store.Plain)
    {owner name : String} (howner : '.' ∉ owner.toList) (hname : '(' ∉ name.toList) :
    store.flatten.get? (fieldKey owner name) =
      ((store.classFields owner).find? (·.name == name)).map (·.mapping) := by
  have hclass : store.classes.get? (fieldKey owner name) = none :=
    get?_classes_of_dot hplain (by simp [toList_fieldKey])
  have hmethods : store.methodEntries.find? (·.1 = fieldKey owner name) = none := by
    rw [List.find?_eq_none]
    intro entry hentry hkey
    obtain ⟨className, row, hrow, rfl⟩ := exists_of_mem_methodEntries hentry
    obtain ⟨hother, -, hdesc⟩ := hplain.methods className row hrow
    exact fieldKey_ne_methodKey howner hother hname hdesc (of_decide_eq_true hkey).symm
  have hfields : store.fieldEntries.find? (·.1 = fieldKey owner name) =
      ((store.classFields owner).map fun row => (fieldKey owner row.name, row.mapping)).find?
        (·.1 = fieldKey owner name) := by
    refine find?_flatMap_entries store.fields
      (fun className row => (fieldKey className row.name, row.mapping)) _ owner ?_
    intro other hne row hrow
    rw [decide_eq_false_iff_not]
    intro hkey
    exact hne (fieldKey_inj (hplain.fields other row hrow).1 howner hkey).1
  have hsame : ∀ row ∈ store.classFields owner,
      decide (fieldKey owner row.name = fieldKey owner name) = (row.name == name) := by
    intro row hrow
    rw [Bool.eq_iff_iff, decide_eq_true_eq, beq_iff_eq]
    exact ⟨fun h => (fieldKey_inj howner howner h).2, fun h => by rw [h]⟩
  rw [get?_flatten hdirection, hclass, hmethods, hfields, List.find?_map]
  simp only [Function.comp_def, Option.none_or, Option.map_none, Option.or_none, Option.map_map]
  rw [List.find?_congr hsame]

/-- The key of a method means the row of its class with the name and the descriptor. -/
theorem get?_flatten_method (hdirection : store.direction = .applying) (hplain : store.Plain)
    {owner name desc : String} (howner : '.' ∉ owner.toList) (hname : '(' ∉ name.toList)
    (hdesc : StartsMethod desc) :
    store.flatten.get? (methodKey owner name desc) =
      (store.methodRow? owner name desc).map (·.mapping) := by
  have hclass : store.classes.get? (methodKey owner name desc) = none :=
    get?_classes_of_dot hplain (by simp [toList_methodKey])
  have hfields : store.fieldEntries.find? (·.1 = methodKey owner name desc) = none := by
    rw [List.find?_eq_none]
    intro entry hentry hkey
    obtain ⟨className, row, hrow, rfl⟩ := exists_of_mem_fieldEntries hentry
    obtain ⟨hother, hfield⟩ := hplain.fields className row hrow
    exact fieldKey_ne_methodKey hother howner hfield hdesc (of_decide_eq_true hkey)
  have hmethods : store.methodEntries.find? (·.1 = methodKey owner name desc) =
      ((store.classMethods owner).map fun row =>
        (methodKey owner row.name row.desc, row.mapping)).find?
          (·.1 = methodKey owner name desc) := by
    refine find?_flatMap_entries store.methods
      (fun className row => (methodKey className row.name row.desc, row.mapping)) _ owner ?_
    intro other hne row hrow
    obtain ⟨hother, hmethod, htype⟩ := hplain.methods other row hrow
    rw [decide_eq_false_iff_not]
    intro hkey
    exact hne (methodKey_inj hother howner hmethod hname htype hdesc hkey).1
  have hsame : ∀ row ∈ store.classMethods owner,
      decide (methodKey owner row.name row.desc = methodKey owner name desc) =
        (row.name == name && row.desc == desc) := by
    intro row hrow
    obtain ⟨-, hmethod, htype⟩ := hplain.methods owner row hrow
    rw [Bool.eq_iff_iff, decide_eq_true_eq, Bool.and_eq_true, beq_iff_eq, beq_iff_eq]
    exact ⟨fun h => (methodKey_inj howner howner hmethod hname htype hdesc h).2,
      fun h => by rw [h.1, h.2]⟩
  rw [get?_flatten hdirection, hclass, hfields, hmethods, List.find?_map]
  simp only [Function.comp_def, Option.none_or, Option.map_none, Option.map_map]
  rw [List.find?_congr hsame, methodRow?]

end JvmArchive.Mapping.Store
