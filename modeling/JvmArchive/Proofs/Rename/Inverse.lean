import JvmArchive.Proofs.Descriptor.Names
import JvmArchive.Proofs.Mapping.Inverse
import JvmArchive.Proofs.Mapping.NewNames
import JvmArchive.Proofs.Rename.Generated

/-!
# Renaming back

What the inverse of a store calls the classes and members that the store has renamed. Where no class
gets the new name of another one that is mentioned, it gives every class and every descriptor its old
name back. A member gets the old name in the first row of its class with its new name, and for a method
with its new descriptor.
-/
namespace JvmArchive

namespace Renamer

open ClassGraph Mapping Mapping.Store

/-- The names of classes that a class and the types of its members mention. -/
def mentioned (entry : ClassEntry) : List String :=
  namesAbove entry ++ (entry.fields.flatMap (Descriptor.names ·.desc) ++
    entry.methods.flatMap (Descriptor.names ·.desc))

theorem mem_mentioned_of_above {entry : ClassEntry} {name : String} (h : name ∈ namesAbove entry) :
    name ∈ mentioned entry :=
  List.mem_append_left _ h

theorem name_mem_mentioned (entry : ClassEntry) : entry.name ∈ mentioned entry :=
  mem_mentioned_of_above List.mem_cons_self

theorem mem_mentioned_of_field {entry : ClassEntry} {field : FieldEntry} {name : String}
    (hfield : field ∈ entry.fields) (h : name ∈ Descriptor.names field.desc) :
    name ∈ mentioned entry :=
  List.mem_append_right _ (List.mem_append_left _ (List.mem_flatMap.2 ⟨field, hfield, h⟩))

theorem mem_mentioned_of_method {entry : ClassEntry} {method : MethodEntry} {name : String}
    (hmethod : method ∈ entry.methods) (h : name ∈ Descriptor.names method.desc) :
    name ∈ mentioned entry :=
  List.mem_append_right _ (List.mem_append_right _ (List.mem_flatMap.2 ⟨method, hmethod, h⟩))

/-- Whether a renamer gives no class of a list the new name of another class that the list mentions. -/
def SeparatesMentioned (renamer : Renamer) (entries : List ClassEntry) : Prop :=
  ∀ entry ∈ entries, ∀ other ∈ entries, ∀ name ∈ mentioned other,
    renamer.mapType entry.name = renamer.mapType name → entry.name = name

instance (renamer : Renamer) (entries : List ClassEntry) :
    Decidable (renamer.SeparatesMentioned entries) :=
  inferInstanceAs (Decidable (∀ entry ∈ entries, _))

theorem SeparatesMentioned.separates {renamer : Renamer} {entries : List ClassEntry}
    (h : renamer.SeparatesMentioned entries) : renamer.Separates entries :=
  fun entry hentry other hother name hname =>
    h entry hentry other hother name (mem_mentioned_of_above hname)

theorem startsMethod_mapDescriptor (renamer : Renamer) {desc : String} (hdesc : StartsMethod desc) :
    StartsMethod (renamer.mapDescriptor desc) := by
  obtain ⟨rest, hrest⟩ := List.head?_eq_some_iff.1 hdesc
  rw [StartsMethod, mapDescriptor, Descriptor.map, hrest, String.toList_ofList, Descriptor.mapNames,
    if_neg (by decide)]
  rfl

end Renamer

namespace Mapping

open ClassGraph Store Renamer

/-- A graph with names as class files allow them, and a store that tells of it alone, whose new names
are such names too and whose rows for methods have the descriptors that renaming gives them. A method
and the one that it overrides have one mapping, or none both. -/
structure Reversible (graph : ClassGraph) (store : Store) : Prop where
  linked : Linked graph.toList
  keeps : graph.KeepsNames
  distinct : DistinctMethods graph.toList
  names : PlainNames graph.toList
  mentions : ∀ entry ∈ graph.toList, ∀ name ∈ mentioned entry, PlainClass name
  describes : Describes (fun _ => True) graph store
  mappings : PlainMappings store
  rows : DistinctRows store
  descs : ∀ className, ∀ row ∈ store.classMethods className, row.mappedDesc = store.mapType row.desc
  bases : ∀ place base, baseAt? graph place = some base →
    mappingAt? graph store base = mappingAt? graph store place
  separates : (ofStore graph store).SeparatesMentioned graph.toList

namespace Reversible

variable {graph : ClassGraph} {store : Store} (h : Reversible graph store)
include h

/-! ## Names of classes -/

theorem mapType_eq {entry : ClassEntry} (hentry : entry ∈ graph.toList) {name : String}
    (hname : name ∈ mentioned entry) :
    (ofStore graph store).mapType name = store.mappedName name :=
  mapType_ofStore h.describes.direction (h.mentions entry hentry name hname).dot
    (h.mentions entry hentry name hname).array

theorem mappedName_inj {entry other : ClassEntry} (hentry : entry ∈ graph.toList)
    (hother : other ∈ graph.toList) {name : String} (hname : name ∈ mentioned other)
    (hsame : store.mappedName entry.name = store.mappedName name) : entry.name = name := by
  refine h.separates entry hentry other hother name hname ?_
  rw [h.mapType_eq hentry (name_mem_mentioned entry), h.mapType_eq hother hname, hsame]

/-- The inverse gives a mentioned name back. -/
theorem mappedName_inverse {entry : ClassEntry} (hentry : entry ∈ graph.toList) {name : String}
    (hname : name ∈ mentioned entry) : store.inverse.mappedName (store.mappedName name) = name := by
  have hback : ∀ old, store.classes.get? old = some (store.mappedName name) → old = name := by
    intro old hold
    obtain ⟨declared, hdeclared, rfl⟩ := h.describes.classes old (by rw [hold]; rfl)
    refine h.mappedName_inj hdeclared hentry hname ?_
    rw [Store.mappedName, hold, Option.getD_some]
  rw [Store.mappedName, get?_classes_inverse]
  cases hfound : store.classes.entries.find? (·.2 = store.mappedName name) with
  | some pair =>
    have hmapping : pair.2 = store.mappedName name := by simpa using List.find?_some hfound
    refine hback pair.1 ?_
    rw [← hmapping]
    exact Table.get?_of_mem_entries (List.mem_of_find?_eq_some hfound)
  | none =>
    -- no class has the mapping, so the name is that of no class and was kept
    rw [Option.map_none, Option.getD_none, Store.mappedName]
    cases hmapping : store.classes.get? name with
    | none => rfl
    | some mapping =>
      have hmem := Table.mem_entries_of_get? hmapping
      have hmiss := List.find?_eq_none.1 hfound _ hmem
      simp [Store.mappedName, hmapping] at hmiss

theorem plainClass_mappedName {entry : ClassEntry} (hentry : entry ∈ graph.toList) {name : String}
    (hname : name ∈ mentioned entry) : PlainClass (store.mappedName name) :=
  h.mappings.mappedName (h.mentions entry hentry name hname)

theorem mapType_inverse (renamed : ClassGraph) {entry : ClassEntry} (hentry : entry ∈ graph.toList)
    {name : String} (hname : name ∈ mentioned entry) :
    (ofStore renamed store.inverse).mapType ((ofStore graph store).mapType name) = name := by
  have hplain := h.plainClass_mappedName hentry hname
  rw [h.mapType_eq hentry hname, mapType_ofStore
    ((direction_inverse store).trans h.describes.direction) hplain.dot hplain.array,
    h.mappedName_inverse hentry hname]

/-- The inverse gives the types of members back. -/
theorem mapDescriptor_inverse (renamed : ClassGraph) {entry : ClassEntry}
    (hentry : entry ∈ graph.toList) {desc : String}
    (hnames : ∀ name ∈ Descriptor.names desc, name ∈ mentioned entry) :
    (ofStore renamed store.inverse).mapDescriptor ((ofStore graph store).mapDescriptor desc) =
      desc := by
  have himage : ∀ name ∈ Descriptor.names desc,
      Descriptor.image (ofStore graph store).table.get? name = (ofStore graph store).mapType name := by
    intro name hname
    rw [Renamer.mapType, if_neg (h.mentions entry hentry name (hnames name hname)).array]
    rfl
  have hplain : ∀ name ∈ Descriptor.names desc, PlainClass ((ofStore graph store).mapType name) := by
    intro name hname
    rw [h.mapType_eq hentry (hnames name hname)]
    exact h.plainClass_mappedName hentry (hnames name hname)
  refine Descriptor.map_map (fun name hname => ?_) fun name hname => ?_
  · rw [himage name hname]
    exact (hplain name hname).semicolon
  · rw [himage name hname]
    have hback := h.mapType_inverse renamed hentry (hnames name hname)
    rwa [Renamer.mapType, if_neg (hplain name hname).array] at hback

/-- A mapped descriptor is what the renamer makes of it. -/
theorem mapType_desc {entry : ClassEntry} (hentry : entry ∈ graph.toList) {desc : String}
    (hnames : ∀ name ∈ Descriptor.names desc, name ∈ mentioned entry) :
    store.mapType desc = (ofStore graph store).mapDescriptor desc := by
  refine Descriptor.map_congr fun name hname => ?_
  have hdot := (h.mentions entry hentry name (hnames name hname)).dot
  have hflat : (ofStore graph store).table.get? name = store.classes.get? name :=
    get?_flatten_class h.describes.direction hdot
  rw [Descriptor.image, Descriptor.image, hflat, classFor?, class?, classByMapping?]
  cases hmapping : store.classes.get? name with
  | some mapping => rfl
  | none =>
    cases hold : store.names.get? name with
    | none => rfl
    | some old => simp [class?, h.describes.names name old hold]

/-! ## Members -/

/-- The rows of the classes of the graph stand apart under their new names. -/
theorem mappedName_ne {entry declared : ClassEntry} (hentry : entry ∈ graph.toList)
    (hdeclared : declared ∈ graph.toList) (hne : declared.name ≠ entry.name) :
    store.mappedName declared.name ≠ store.mappedName entry.name :=
  fun hsame => hne (h.mappedName_inj hdeclared hentry (name_mem_mentioned entry) hsame)

theorem plain_inverse : store.inverse.Plain where
  classes mapping hmapping := by
    rw [get?_classes_inverse, Option.isSome_map] at hmapping
    obtain ⟨pair, hpair⟩ := Option.isSome_iff_exists.1 hmapping
    have hsecond : pair.2 = mapping := by simpa using List.find?_some hpair
    have hget := Table.get?_of_mem_entries (List.mem_of_find?_eq_some hpair)
    rw [← hsecond]
    exact (h.mappings.classes pair.1 pair.2 hget).dot
  fields className row hrow := by
    obtain ⟨old, rfl, before, hbefore, rfl⟩ := exists_of_mem_classFields_inverse hrow
    obtain ⟨⟨entry, hentry, rfl⟩, -⟩ := h.describes.fields old before hbefore
    exact ⟨(h.plainClass_mappedName hentry (name_mem_mentioned entry)).dot,
      h.mappings.fields _ before hbefore⟩
  methods className row hrow := by
    obtain ⟨old, rfl, before, hbefore, rfl⟩ := exists_of_mem_classMethods_inverse hrow
    obtain ⟨entry, hentry, rfl, method, hmethod, -, -, hdesc⟩ := h.describes.methods old before hbefore
    refine ⟨(h.plainClass_mappedName hentry (name_mem_mentioned entry)).dot,
      h.mappings.methods _ before hbefore, ?_⟩
    have hstarts := startsMethod_mapDescriptor (ofStore graph store)
      (h.names.methods entry hentry method hmethod).2
    rw [hdesc, ← h.mapType_desc hentry fun name hname =>
      mem_mentioned_of_method hmethod (hdesc ▸ hname), ← h.descs entry.name before hbefore] at hstarts
    exact hstarts

/-- A field comes back under the name in the first row of its class with its new name. -/
theorem fieldImage?_inverse (renamed : ClassGraph) {entry : ClassEntry} (hentry : entry ∈ graph.toList)
    {mapping : String} (hmapping : '(' ∉ mapping.toList) :
    fieldImage? (ofStore renamed store.inverse) (store.mappedName entry.name) mapping =
      ((store.classFields entry.name).find? (·.mapping == mapping)).map (·.name) := by
  have hdirection := (direction_inverse store).trans h.describes.direction
  have hdot := (h.plainClass_mappedName hentry (name_mem_mentioned entry)).dot
  have hentries : fieldImage? (ofStore renamed store.inverse) (store.mappedName entry.name) mapping =
      (store.inverse.firstRow? (store.mappedName entry.name) mapping).map (·.mapping) :=
    get?_flatten_field hdirection h.plain_inverse hdot hmapping
  rw [hentries, firstRow?_inverse, Option.map_map]
  · rfl
  · intro other hne hrows
    obtain ⟨row, hrow⟩ := List.exists_mem_of_ne_nil _ hrows
    obtain ⟨⟨declared, hdeclared, rfl⟩, -⟩ := h.describes.fields other row hrow
    exact h.mappedName_ne hentry hdeclared hne

/-- A method comes back under the name in the first row of its class with its new name and its new
descriptor. -/
theorem methodImage?_inverse (renamed : ClassGraph) {entry : ClassEntry} (hentry : entry ∈ graph.toList)
    {mapping mappedDesc : String} (hmapping : '(' ∉ mapping.toList) (hdesc : StartsMethod mappedDesc) :
    methodImage? (ofStore renamed store.inverse) (store.mappedName entry.name) mapping mappedDesc =
      ((store.classMethods entry.name).find? fun row =>
        row.mapping == mapping && row.mappedDesc == mappedDesc).map (·.name) := by
  have hdirection := (direction_inverse store).trans h.describes.direction
  have hdot := (h.plainClass_mappedName hentry (name_mem_mentioned entry)).dot
  have hentries : methodImage? (ofStore renamed store.inverse) (store.mappedName entry.name) mapping
      mappedDesc =
        (store.inverse.methodRow? (store.mappedName entry.name) mapping mappedDesc).map (·.mapping) :=
    get?_flatten_method hdirection h.plain_inverse hdot hmapping hdesc
  rw [hentries, methodRow?_inverse, Option.map_map]
  · rfl
  · intro other hne hrows
    obtain ⟨row, hrow⟩ := List.exists_mem_of_ne_nil _ hrows
    obtain ⟨declared, hdeclared, rfl, -⟩ := h.describes.methods other row hrow
    exact h.mappedName_ne hentry hdeclared hne

end Reversible
end Mapping
end JvmArchive
