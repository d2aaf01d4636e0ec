import JvmArchive.Proofs.Rename.Inverse
import JvmArchive.Proofs.Rename.Overrides

/-!
# Renaming there and back

Renaming a graph by a store and then by its inverse. Where class names are kept apart, all classes and
all types get their old names back. All members do exactly if no class gets two methods with one new
name and new descriptor, no method that keeps its name comes to override one that does not, and no
field takes the new name of another row of its class.
-/
namespace JvmArchive

namespace ClassGraph

/-- The name of a class, and the names and types of its fields and methods in their order. -/
def outline (entry : ClassEntry) : String × List (String × String) × List (String × String) :=
  (entry.name, entry.fields.map fun field => (field.name, field.desc),
    entry.methods.map fun method => (method.name, method.desc))

theorem outline_eq_of_linkedFrom {entries : List ClassEntry} {declared entry : ClassEntry}
    (h : LinkedFrom entries declared entry) : outline entry = outline declared := by
  have hname : entry.name = declared.name := congrArg ClassNode.name h.node
  have hfields := congrArg (List.map fun node : FieldNode => (node.name, node.desc)) h.fields
  have hmethods := congrArg (List.map fun node : MethodNode => (node.name, node.desc)) h.methods
  rw [List.map_map, List.map_map] at hfields hmethods
  exact Prod.ext hname (Prod.ext hfields hmethods)

end ClassGraph

namespace Renamer

open ClassGraph Mapping Mapping.Store

variable {renamer : Renamer} {graph renamed : ClassGraph}

/-- Every class of a renamed graph is a renamed class. -/
theorem exists_renamed_of_mem
    (hrenamed : renamed.toList = linkAll (graph.toList.map renamer.mapClass))
    (hlinked : Linked graph.toList) (hseparates : renamer.Separates graph.toList) {new : ClassEntry}
    (hnew : new ∈ renamed.toList) : ∃ old ∈ graph.toList, renamer.Renamed old new := by
  obtain ⟨index, hindex⟩ := List.getElem?_of_mem hnew
  have hnewAt : renamed.at? ⟨index⟩ = some new := (at?_eq_getElem? renamed ⟨index⟩).trans hindex
  cases hold : graph.at? ⟨index⟩ with
  | none =>
    rw [at?_renamed_of_none hrenamed hold] at hnewAt
    exact absurd hnewAt (by simp)
  | some old =>
    exact ⟨old, mem_of_at? hold, renamed_of_at? hrenamed hlinked hseparates hold hnewAt⟩

namespace Renamed

variable {old new : ClassEntry} (h : renamer.Renamed old new)
include h

theorem name : new.name = renamer.mapType old.name := congrArg ClassNode.name h.node

theorem namesAbove : namesAbove new = (namesAbove old).map renamer.mapType := by
  have hsuper : new.node.superName = old.node.superName.map renamer.mapType :=
    congrArg ClassNode.superName h.node
  have hinterfaces : new.node.interfaces = old.node.interfaces.map renamer.mapType :=
    congrArg ClassNode.interfaces h.node
  rw [Renamer.namesAbove, Renamer.namesAbove, h.name, hsuper, hinterfaces]
  cases old.node.superName <;> simp

theorem outlineFields : (outline new).2.1 =
    old.fields.map fun field =>
      (renamer.mapDeclaredField old.name field.name, renamer.mapDescriptor field.desc) := by
  have hfields := congrArg (List.map fun node : FieldNode => (node.name, node.desc)) h.fields
  rw [List.map_map, List.map_map] at hfields
  exact hfields

end Renamed

/-- Two methods of a class whose new names and new descriptors are the same are one, where new names
are distinct. -/
theorem eq_of_new_eq {entries : List ClassEntry}
    (hdistinct : DistinctMethods (entries.map renamer.mapClass)) {entry : ClassEntry}
    (hentry : entry ∈ entries) {method other : MethodEntry} (hmethod : method ∈ entry.methods)
    (hother : other ∈ entry.methods)
    (hname : renamer.mapDeclaredMethod entry.name method = renamer.mapDeclaredMethod entry.name other)
    (hdesc : renamer.mapDescriptor method.desc = renamer.mapDescriptor other.desc) :
    method = other := by
  have hnodup := hdistinct _ (List.mem_map_of_mem hentry)
  rw [Renamer.mapClass, List.map_map] at hnodup
  exact List.inj_on_of_nodup_map hnodup hmethod hother (Prod.ext hname hdesc)

/-- Whether the inverse of a store undoes what its renamer has done to the members of the classes of a
list. -/
structure Undoable (renamer : Renamer) (store : Store) (entries : List ClassEntry) : Prop where
  distinct : DistinctMethods (entries.map renamer.mapClass)
  kept : ∀ entry ∈ entries, ∀ method ∈ entry.methods, mappingOf? store entry method = none →
    ∀ id ∈ searchedBefore entry.ancestors method.base,
      ∀ declaring ∈ entries[id.index]?, ∀ other ∈ declaring.methods,
        (renamer.mapMethodEntry declaring.name other).same
          (renamer.mapMethodEntry entry.name method) = false
  fields : ∀ entry ∈ entries, ∀ field ∈ entry.fields,
    ∀ row ∈ (store.classFields entry.name).find?
        (·.mapping == renamer.mapDeclaredField entry.name field.name),
      row.name = field.name

instance (renamer : Renamer) (store : Store) (entries : List ClassEntry) :
    Decidable (renamer.Undoable store entries) :=
  decidable_of_iff (_ ∧ _ ∧ _)
    ⟨fun h => ⟨h.1, h.2.1, h.2.2⟩, fun h => ⟨h.distinct, h.kept, h.fields⟩⟩

end Renamer

/-- The name of a method of a class in the first row with its new name and its new descriptor; without
such a row the new name itself. -/
def Mapping.Store.oldName (store : Store) (className mapping mappedDesc : String) : String :=
  (((store.classMethods className).find? fun row =>
    row.mapping == mapping && row.mappedDesc == mappedDesc).map (·.name)).getD mapping

namespace Mapping.Reversible

open ClassGraph Store Renamer

variable {graph renamed : ClassGraph} {store : Store} (h : Reversible graph store)
include h

/-! ## One field -/

/-- A field gets its old name back exactly if the first row of its class with its new name is for a
field of the old name. -/
theorem mapDeclaredField_inverse_iff (renamed : ClassGraph) {entry : ClassEntry}
    (hentry : entry ∈ graph.toList) {field : FieldEntry} (hfield : field ∈ entry.fields) :
    (ofStore renamed store.inverse).mapDeclaredField (store.mappedName entry.name)
        ((ofStore graph store).mapDeclaredField entry.name field.name) = field.name ↔
      ∀ row ∈ (store.classFields entry.name).find?
        (·.mapping == (ofStore graph store).mapDeclaredField entry.name field.name),
          row.name = field.name := by
  have hopen := h.names.fields entry hentry field hfield
  have hentryOf : fieldImage? (ofStore graph store) entry.name field.name =
      (store.firstRow? entry.name field.name).map (·.mapping) :=
    get?_flatten_field h.describes.direction (h.describes.plain h.names)
      (h.names.classes entry hentry).1 hopen
  have hnew : (ofStore graph store).mapDeclaredField entry.name field.name =
      ((store.firstRow? entry.name field.name).map (·.mapping)).getD field.name := by
    rw [Renamer.mapDeclaredField, hentryOf]
  have hmapping : '(' ∉ ((ofStore graph store).mapDeclaredField entry.name field.name).toList := by
    rw [hnew]
    cases hrow : store.firstRow? entry.name field.name with
    | none => exact hopen
    | some row => exact h.mappings.fields entry.name row (List.mem_of_find?_eq_some hrow)
  rw [Renamer.mapDeclaredField, h.fieldImage?_inverse renamed hentry hmapping]
  cases hback : (store.classFields entry.name).find?
      (·.mapping == (ofStore graph store).mapDeclaredField entry.name field.name) with
  | some row => simp
  | none =>
    -- without a row for its new name the field has none at all, so it has kept its name
    cases hrow : store.firstRow? entry.name field.name with
    | none => simp [hnew, hrow]
    | some row =>
      have hmiss := List.find?_eq_none.1 hback row (List.mem_of_find?_eq_some hrow)
      simp [hnew, hrow] at hmiss

/-! ## One method -/

theorem mapDeclaredMethod_eq {place : ClassId × Nat} {entry : ClassEntry} {method : MethodEntry}
    (hentry : graph.at? place.1 = some entry) (hmethod : entry.methods[place.2]? = some method) :
    (ofStore graph store).mapDeclaredMethod entry.name method =
      (mappingAt? graph store place).getD method.name :=
  mapDeclaredMethod_ofStore h.describes h.linked h.keeps h.names h.bases hentry hmethod

theorem not_mem_mapDeclaredMethod {place : ClassId × Nat} {entry : ClassEntry} {method : MethodEntry}
    (hentry : graph.at? place.1 = some entry) (hmethod : entry.methods[place.2]? = some method) :
    '(' ∉ ((ofStore graph store).mapDeclaredMethod entry.name method).toList := by
  rw [h.mapDeclaredMethod_eq hentry hmethod, mappingAt?_eq hentry hmethod, mappingOf?]
  cases hrow : store.methodRow? entry.name method.name method.desc with
  | none => exact (h.names.methods entry (mem_of_at? hentry) method (List.mem_of_getElem? hmethod)).1
  | some row => exact h.mappings.methods entry.name row (List.mem_of_find?_eq_some hrow)

theorem mapDescriptor_inverse_method (renamed : ClassGraph) {entry : ClassEntry}
    (hentry : entry ∈ graph.toList) {method : MethodEntry} (hmethod : method ∈ entry.methods) :
    (ofStore renamed store.inverse).mapDescriptor ((ofStore graph store).mapDescriptor method.desc) =
      method.desc :=
  h.mapDescriptor_inverse renamed hentry fun _ hname => mem_mentioned_of_method hmethod hname

/-- The row of a method has its new name and its new descriptor. -/
theorem row_of_mappingAt? (place : ClassId × Nat) {entry : ClassEntry} {method : MethodEntry}
    (hentry : graph.at? place.1 = some entry) (hmethod : entry.methods[place.2]? = some method)
    {row : MethodMapping} (hrow : store.methodRow? entry.name method.name method.desc = some row) :
    (ofStore graph store).mapDeclaredMethod entry.name method = row.mapping ∧
      (ofStore graph store).mapDescriptor method.desc = row.mappedDesc := by
  constructor
  · rw [h.mapDeclaredMethod_eq hentry hmethod, mappingAt?_eq hentry hmethod, mappingOf?, hrow]
    rfl
  · have hdesc : row.desc = method.desc := by
      have hmatch := List.find?_some hrow
      rw [Bool.and_eq_true, beq_iff_eq, beq_iff_eq] at hmatch
      exact hmatch.2
    rw [h.descs entry.name row (List.mem_of_find?_eq_some hrow), hdesc]
    exact (h.mapType_desc (mem_of_at? hentry) fun _ hname =>
      mem_mentioned_of_method (List.mem_of_getElem? hmethod) hname).symm

/-- Every row of a class is the row of a method that the class declares. -/
theorem exists_method_of_row {entry : ClassEntry} (hentry : entry ∈ graph.toList)
    {row : MethodMapping} (hrow : row ∈ store.classMethods entry.name) :
    ∃ method ∈ entry.methods, method.name = row.name ∧ method.desc = row.desc ∧
      store.methodRow? entry.name method.name method.desc = some row := by
  obtain ⟨other, hother, hclass, method, hmethod, -, hname, hdesc⟩ :=
    h.describes.methods entry.name row hrow
  obtain rfl := List.inj_on_of_nodup_map h.keeps.nodup hother hentry hclass
  refine ⟨method, hmethod, hname, hdesc, ?_⟩
  rw [hname, hdesc]
  exact h.rows other.name row hrow

/-- Where new names are distinct, the inverse has the old name of a method exactly if the store has a
mapping for it. -/
theorem methodImage?_inverse_declared (renamed : ClassGraph)
    (hdistinct : DistinctMethods (graph.toList.map (ofStore graph store).mapClass))
    {place : ClassId × Nat} {entry : ClassEntry} {method : MethodEntry}
    (hentry : graph.at? place.1 = some entry) (hmethod : entry.methods[place.2]? = some method) :
    methodImage? (ofStore renamed store.inverse) (store.mappedName entry.name)
        ((ofStore graph store).mapDeclaredMethod entry.name method)
        ((ofStore graph store).mapDescriptor method.desc) =
      (mappingAt? graph store place).map fun _ => method.name := by
  have hmem := mem_of_at? hentry
  have hmethodMem := List.mem_of_getElem? hmethod
  rw [h.methodImage?_inverse renamed hmem (h.not_mem_mapDeclaredMethod hentry hmethod)
    (startsMethod_mapDescriptor _ (h.names.methods entry hmem method hmethodMem).2)]
  have hmatch : ∀ row ∈ store.classMethods entry.name,
      (row.mapping == (ofStore graph store).mapDeclaredMethod entry.name method &&
        row.mappedDesc == (ofStore graph store).mapDescriptor method.desc) = true →
          store.methodRow? entry.name method.name method.desc = some row := by
    intro row hrow hnew
    rw [Bool.and_eq_true, beq_iff_eq, beq_iff_eq] at hnew
    obtain ⟨other, hother, -, -, hfound⟩ := h.exists_method_of_row hmem hrow
    obtain ⟨k, hk⟩ := List.getElem?_of_mem hother
    obtain ⟨hname, hdesc⟩ := h.row_of_mappingAt? (place.1, k) hentry hk hfound
    obtain rfl := eq_of_new_eq hdistinct hmem hmethodMem hother
      (hnew.1.symm.trans hname.symm) (hnew.2.symm.trans hdesc.symm)
    exact hfound
  rw [mappingAt?_eq hentry hmethod, mappingOf?]
  cases hrow : store.methodRow? entry.name method.name method.desc with
  | none =>
    have hnone : (store.classMethods entry.name).find? (fun row =>
        row.mapping == (ofStore graph store).mapDeclaredMethod entry.name method &&
          row.mappedDesc == (ofStore graph store).mapDescriptor method.desc) = none := by
      rw [List.find?_eq_none]
      intro row hmemRow hnew
      rw [hmatch row hmemRow hnew] at hrow
      exact absurd hrow (by simp)
    rw [hnone]
    rfl
  | some row =>
    obtain ⟨hname, hdesc⟩ := h.row_of_mappingAt? place hentry hmethod hrow
    obtain ⟨found, hfound⟩ : ∃ found, (store.classMethods entry.name).find? (fun row =>
        row.mapping == (ofStore graph store).mapDeclaredMethod entry.name method &&
          row.mappedDesc == (ofStore graph store).mapDescriptor method.desc) = some found :=
      Option.isSome_iff_exists.1 (List.find?_isSome.2
        ⟨row, List.mem_of_find?_eq_some hrow, by simp [hname, hdesc]⟩)
    have hnew := List.find?_some hfound
    have hsame := hmatch found (List.mem_of_find?_eq_some hfound) (by simpa using hnew)
    have hfoundName := List.find?_some hsame
    rw [Bool.and_eq_true, beq_iff_eq] at hfoundName
    rw [hfound, Option.map_some, Option.map_some, Option.map_some, hfoundName.1]

/-! ## The renamed graph -/

/-- A graph that has been renamed by the store and one that has been renamed back by the inverse. -/
theorem separates_inverse
    (hrenamed : renamed.toList = linkAll (graph.toList.map (ofStore graph store).mapClass)) :
    (ofStore renamed store.inverse).Separates renamed.toList := by
  intro new hnew other hother name hname hsame
  obtain ⟨old, hold, hfrom⟩ := exists_renamed_of_mem hrenamed h.linked h.separates.separates hnew
  obtain ⟨above, habove, hotherFrom⟩ :=
    exists_renamed_of_mem hrenamed h.linked h.separates.separates hother
  rw [hotherFrom.namesAbove] at hname
  obtain ⟨before, hbefore, rfl⟩ := List.mem_map.1 hname
  rw [hfrom.name, h.mapType_inverse renamed hold (name_mem_mentioned old),
    h.mapType_inverse renamed habove (mem_mentioned_of_above hbefore)] at hsame
  rw [hfrom.name, hsame]

theorem name_renamed {id : ClassId} {entry new : ClassEntry}
    (hrenamed : renamed.toList = linkAll (graph.toList.map (ofStore graph store).mapClass))
    (hentry : graph.at? id = some entry) (hnew : renamed.at? id = some new) :
    new.name = store.mappedName entry.name := by
  rw [(renamed_of_at? hrenamed h.linked h.separates.separates hentry hnew).name]
  exact h.mapType_eq (mem_of_at? hentry) (name_mem_mentioned entry)

/-- The method in the place of another one after renaming. -/
theorem exists_methodAt?_renamed
    (hrenamed : renamed.toList = linkAll (graph.toList.map (ofStore graph store).mapClass))
    {place : ClassId × Nat} {entry : ClassEntry} {method : MethodEntry}
    (hentry : graph.at? place.1 = some entry) (hmethod : entry.methods[place.2]? = some method) :
    ∃ moved, renamed.methodAt? place = some moved ∧
      moved.node = ((ofStore graph store).mapMethodEntry entry.name method).node := by
  have hnode := node_methodAt?_renamed hrenamed h.linked h.separates.separates place
  rw [hentry, Option.bind_some, hmethod, Option.map_some] at hnode
  exact Option.map_eq_some_iff.1 hnode

section
variable (hrenamed : renamed.toList = linkAll (graph.toList.map (ofStore graph store).mapClass))
  (hkeeps : renamed.KeepsNames)
  (hdistinct : DistinctMethods (graph.toList.map (ofStore graph store).mapClass))
include hrenamed hdistinct

/-- What the inverse has for a renamed method, under its new class. -/
theorem methodImage?_moved {place : ClassId × Nat} {entry new : ClassEntry}
    {method moved : MethodEntry} (hentry : graph.at? place.1 = some entry)
    (hmethod : entry.methods[place.2]? = some method) (hnew : renamed.at? place.1 = some new)
    (hmoved : renamed.methodAt? place = some moved) :
    methodImage? (ofStore renamed store.inverse) new.name moved.name moved.desc =
      (mappingAt? graph store place).map fun _ => method.name := by
  obtain ⟨found, hfound, hnode⟩ := h.exists_methodAt?_renamed hrenamed hentry hmethod
  rw [hmoved, Option.some.injEq] at hfound
  subst hfound
  have hname : moved.name = (ofStore graph store).mapDeclaredMethod entry.name method :=
    congrArg MethodNode.name hnode
  have hdesc : moved.desc = (ofStore graph store).mapDescriptor method.desc :=
    congrArg MethodNode.desc hnode
  rw [h.name_renamed hrenamed hentry hnew, hname, hdesc]
  exact h.methodImage?_inverse_declared renamed hdistinct hentry hmethod

/-- A method with a mapping gets its old name back. One without it has kept its name, and loses it
exactly if it has come to override a method with a mapping of another name. -/
theorem mapDeclaredMethod_moved {place : ClassId × Nat} {entry new : ClassEntry}
    {method moved : MethodEntry} (hentry : graph.at? place.1 = some entry)
    (hmethod : entry.methods[place.2]? = some method) (hnew : renamed.at? place.1 = some new)
    (hmoved : renamed.methodAt? place = some moved) :
    (ofStore renamed store.inverse).mapDeclaredMethod new.name moved =
      ((mappingAt? graph store place).map fun _ => method.name).getD
        ((baseImage? (ofStore renamed store.inverse) moved).getD method.name) := by
  rw [mapDeclaredMethod_eq_getD, h.methodImage?_moved hrenamed hdistinct hentry hmethod hnew hmoved]
  cases hmapping : mappingAt? graph store place with
  | some mapping => rfl
  | none =>
    obtain ⟨found, hfound, hnode⟩ := h.exists_methodAt?_renamed hrenamed hentry hmethod
    rw [hmoved, Option.some.injEq] at hfound
    subst hfound
    have hname : moved.name = (ofStore graph store).mapDeclaredMethod entry.name method :=
      congrArg MethodNode.name hnode
    rw [hname, h.mapDeclaredMethod_eq hentry hmethod, hmapping]
    rfl

include hkeeps

/-- What the inverse has for the method that a renamed method overrides. -/
theorem baseImage?_moved {place base : ClassId × Nat} {moved above : MethodEntry}
    {declaring : ClassEntry} (hmoved : renamed.methodAt? place = some moved)
    (hbase : baseAt? renamed place = some base) (hdeclaring : graph.at? base.1 = some declaring)
    (habove : declaring.methods[base.2]? = some above) :
    baseImage? (ofStore renamed store.inverse) moved =
      (mappingAt? graph store base).map fun _ => above.name := by
  obtain ⟨found, hfound, -⟩ := h.exists_methodAt?_renamed hrenamed hdeclaring habove
  obtain ⟨new, hnew⟩ := exists_at?_renamed hrenamed hdeclaring
  have hname : renamed.nameOf? base.1 = some new.name := by
    rw [hkeeps.nameOf?, hnew, Option.map_some]
  rw [baseAt?, hmoved, Option.bind_some] at hbase
  have hentries : baseImage? (ofStore renamed store.inverse) moved =
      methodImage? (ofStore renamed store.inverse) new.name found.name found.desc := by
    simp [baseImage?, hbase, ofStore, hname, hfound]
  rw [hentries]
  exact h.methodImage?_moved hrenamed hdistinct hdeclaring habove hnew hfound

/-- A method without a mapping that overrides the same method as before, or none as before, finds no
mapping there. -/
theorem baseImage?_moved_eq_none {place : ClassId × Nat} {moved : MethodEntry}
    (hmapping : mappingAt? graph store place = none) (hmoved : renamed.methodAt? place = some moved)
    (hbase : baseAt? renamed place = baseAt? graph place) :
    baseImage? (ofStore renamed store.inverse) moved = none := by
  cases hchain : baseAt? graph place with
  | none =>
    rw [hchain, baseAt?, hmoved, Option.bind_some] at hbase
    simp [baseImage?, hbase]
  | some base =>
    obtain ⟨method, hmethod, hmethodBase⟩ := Option.bind_eq_some_iff.1 hchain
    obtain ⟨above, habove, -⟩ := h.linked.methodAt?_base hmethod hmethodBase
    obtain ⟨declaring, hdeclaring, hindex⟩ := methodAt?_eq_some_iff.1 habove
    rw [h.baseImage?_moved hrenamed hkeeps hdistinct hmoved (hbase.trans hchain) hdeclaring hindex,
      h.bases place base hchain, hmapping, Option.map_none]

/-- A method without a mapping that gets its name back overrides a method of this name, if it overrides
one at all. -/
theorem name_of_base_moved {place base : ClassId × Nat} {entry declaring new : ClassEntry}
    {method moved above : MethodEntry} (hentry : graph.at? place.1 = some entry)
    (hmethod : entry.methods[place.2]? = some method) (hnew : renamed.at? place.1 = some new)
    (hmoved : renamed.methodAt? place = some moved) (hmapping : mappingAt? graph store place = none)
    (hbase : baseAt? renamed place = some base) (hdeclaring : graph.at? base.1 = some declaring)
    (habove : declaring.methods[base.2]? = some above)
    (hsame : ((ofStore graph store).mapMethodEntry declaring.name above).same
      ((ofStore graph store).mapMethodEntry entry.name method) = true)
    (hback : (ofStore renamed store.inverse).mapDeclaredMethod new.name moved = method.name) :
    above.name = method.name := by
  cases hmappingAbove : mappingAt? graph store base with
  | some mapping =>
    rw [h.mapDeclaredMethod_moved hrenamed hdistinct hentry hmethod hnew hmoved, hmapping,
      h.baseImage?_moved hrenamed hkeeps hdistinct hmoved hbase hdeclaring habove, hmappingAbove] at hback
    exact hback
  | none =>
    have hnames := (same_mapMethodEntry_iff.1 hsame).1
    rw [h.mapDeclaredMethod_eq hdeclaring habove, h.mapDeclaredMethod_eq hentry hmethod, hmappingAbove,
      hmapping] at hnames
    exact hnames

/-- A method without a mapping that gets its name back has met no method that is searched before its
base: such a one would have its name, and would have been met before renaming. -/
theorem same_eq_false_of_back {place : ClassId × Nat} {entry new : ClassEntry}
    {method moved : MethodEntry} (hentry : graph.at? place.1 = some entry)
    (hmethod : entry.methods[place.2]? = some method) (hnew : renamed.at? place.1 = some new)
    (hmoved : renamed.methodAt? place = some moved) (hmapping : mappingAt? graph store place = none)
    (hback : (ofStore renamed store.inverse).mapDeclaredMethod new.name moved = method.name)
    {id : ClassId} (hid : id ∈ searchedBefore entry.ancestors method.base) {declaring : ClassEntry}
    (hdeclaring : graph.toList[id.index]? = some declaring) {other : MethodEntry}
    (hother : other ∈ declaring.methods) :
    ((ofStore graph store).mapMethodEntry declaring.name other).same
      ((ofStore graph store).mapMethodEntry entry.name method) = false := by
  have hmem := mem_of_at? hentry
  have hmethodMem := List.mem_of_getElem? hmethod
  by_contra hmeets
  have hfind : baseIn? (graph.toList.map (ofStore graph store).mapClass)
      ((ofStore graph store).mapMethodEntry entry.name method) id ≠ none := by
    rw [ne_eq, baseIn?_map_eq_none_iff]
    exact fun hall => hmeets (hall declaring hdeclaring other hother)
  obtain ⟨base, hfirst, hbefore, hbase⟩ := exists_findSome?_of_mem_searchedBefore hid hfind
  rw [← baseOf_eq_findSome?] at hfirst
  have hbaseAt : baseAt? renamed place = some base :=
    (baseAt?_renamed hrenamed h.linked h.separates.separates hentry hmethod).trans hfirst
  obtain ⟨above, hdeclares, found, hfound, hsame⟩ := exists_of_baseIn?_map hbase
  have hat' : graph.at? base.1 = some above := (at?_eq_getElem? graph base.1).trans hdeclares
  have hname := h.name_of_base_moved hrenamed hkeeps hdistinct hentry hmethod hnew hmoved hmapping
    hbaseAt hat' hfound hsame hback
  obtain ⟨-, hdesc, haccess⟩ := same_mapMethodEntry_iff.1 hsame
  have hdescs := congrArg (ofStore renamed store.inverse).mapDescriptor hdesc
  rw [h.mapDescriptor_inverse_method renamed (mem_of_at? hat') (List.mem_of_getElem? hfound),
    h.mapDescriptor_inverse_method renamed hmem hmethodMem] at hdescs
  have hunmet := (baseOf_eq_iff.1 (h.linked.base entry hmem method hmethodMem).symm).1 base.1 hbefore
  rw [baseIn?, hdeclares, Option.bind_some, List.findIdx?_eq_none_iff] at hunmet
  have hmiss := hunmet found (List.mem_of_getElem? hfound)
  rw [MethodEntry.same_iff.2 ⟨hname, hdescs, haccess⟩] at hmiss
  cases hmiss

omit hkeeps in
/-- A method without a mapping that meets no method searched before its base overrides the same method
as before. -/
theorem baseAt?_renamed_of_apart {place : ClassId × Nat} {entry : ClassEntry} {method : MethodEntry}
    (hentry : graph.at? place.1 = some entry) (hmethod : entry.methods[place.2]? = some method)
    (hmapping : mappingAt? graph store place = none)
    (happart : ∀ id ∈ searchedBefore entry.ancestors method.base,
      ∀ declaring ∈ graph.toList[id.index]?, ∀ other ∈ declaring.methods,
        ((ofStore graph store).mapMethodEntry declaring.name other).same
          ((ofStore graph store).mapMethodEntry entry.name method) = false) :
    baseAt? renamed place = baseAt? graph place := by
  have hat : graph.methodAt? place = some method := methodAt?_eq_some_iff.2 ⟨entry, hentry, hmethod⟩
  have hchain : baseAt? graph place = method.base := by rw [baseAt?, hat, Option.bind_some]
  have hkept : (ofStore graph store).mapDeclaredMethod entry.name method = method.name := by
    rw [h.mapDeclaredMethod_eq hentry hmethod, hmapping, Option.getD_none]
  have hbaseOf := baseOf_eq_iff.1
    (h.linked.base entry (mem_of_at? hentry) method (List.mem_of_getElem? hmethod)).symm
  rw [baseAt?_renamed hrenamed h.linked h.separates.separates hentry hmethod, hchain, baseOf_eq_iff]
  refine ⟨fun id hid => baseIn?_map_eq_none_iff.2 (happart id hid),
    fun base hbase => ⟨(hbaseOf.2 base hbase).1, ?_⟩⟩
  obtain ⟨above, habove, hsame⟩ := h.linked.methodAt?_base hat hbase
  obtain ⟨declaring, hdeclaring, hindex⟩ := methodAt?_eq_some_iff.1 habove
  refine baseIn?_of_mapDeclaredMethod_eq hdistinct hdeclaring hindex hsame ?_
  rw [hkept, h.mapDeclaredMethod_eq hdeclaring hindex, h.bases place base (hchain.trans hbase), hmapping,
    Option.getD_none]
  exact (MethodEntry.same_iff.1 hsame).1

/-- A method gets its old name back exactly if it has a mapping or, without one, has come to override
none that is searched before its base. -/
theorem mapDeclaredMethod_moved_iff {place : ClassId × Nat} {entry new : ClassEntry}
    {method moved : MethodEntry} (hentry : graph.at? place.1 = some entry)
    (hmethod : entry.methods[place.2]? = some method) (hnew : renamed.at? place.1 = some new)
    (hmoved : renamed.methodAt? place = some moved) :
    (ofStore renamed store.inverse).mapDeclaredMethod new.name moved = method.name ↔
      (mappingAt? graph store place = none →
        ∀ id ∈ searchedBefore entry.ancestors method.base,
          ∀ declaring ∈ graph.toList[id.index]?, ∀ other ∈ declaring.methods,
            ((ofStore graph store).mapMethodEntry declaring.name other).same
              ((ofStore graph store).mapMethodEntry entry.name method) = false) := by
  constructor
  · intro hback hmapping id hid declaring hdeclaring other hother
    exact h.same_eq_false_of_back hrenamed hkeeps hdistinct hentry hmethod hnew hmoved hmapping hback hid
      hdeclaring hother
  · intro happart
    rw [h.mapDeclaredMethod_moved hrenamed hdistinct hentry hmethod hnew hmoved]
    cases hmapping : mappingAt? graph store place with
    | some mapping => rfl
    | none =>
      have hsame := h.baseAt?_renamed_of_apart hrenamed hdistinct hentry hmethod hmapping
        (happart hmapping)
      rw [h.baseImage?_moved_eq_none hrenamed hkeeps hdistinct hmapping hmoved hsame]
      rfl

end

/-! ## All members -/

section
variable (hrenamed : renamed.toList = linkAll (graph.toList.map (ofStore graph store).mapClass))
include hrenamed

/-- If a method gets its old name back, it is the one in the first row with its new name and its new
descriptor, or its new name if there is no such row. -/
theorem name_eq_of_mapDeclaredMethod_moved {place : ClassId × Nat} {entry new : ClassEntry}
    {method moved : MethodEntry} (hentry : graph.at? place.1 = some entry)
    (hmethod : entry.methods[place.2]? = some method) (hnew : renamed.at? place.1 = some new)
    (hmoved : renamed.methodAt? place = some moved)
    (hback : (ofStore renamed store.inverse).mapDeclaredMethod new.name moved = method.name) :
    method.name = store.oldName entry.name
      ((ofStore graph store).mapDeclaredMethod entry.name method)
      ((ofStore graph store).mapDescriptor method.desc) := by
  have hmem := mem_of_at? hentry
  have hstarts := (h.names.methods entry hmem method (List.mem_of_getElem? hmethod)).2
  obtain ⟨found, hfound, hnode⟩ := h.exists_methodAt?_renamed hrenamed hentry hmethod
  rw [hmoved, Option.some.injEq] at hfound
  subst hfound
  have hname : moved.name = (ofStore graph store).mapDeclaredMethod entry.name method :=
    congrArg MethodNode.name hnode
  have hdesc : moved.desc = (ofStore graph store).mapDescriptor method.desc :=
    congrArg MethodNode.desc hnode
  rw [mapDeclaredMethod_eq_getD, hname, hdesc, h.name_renamed hrenamed hentry hnew,
    h.methodImage?_inverse renamed hmem (h.not_mem_mapDeclaredMethod hentry hmethod)
      (startsMethod_mapDescriptor _ hstarts)] at hback
  rw [oldName]
  cases hfind : (store.classMethods entry.name).find? fun row =>
      row.mapping == (ofStore graph store).mapDeclaredMethod entry.name method &&
        row.mappedDesc == (ofStore graph store).mapDescriptor method.desc with
  | some row =>
    rw [hfind, Option.map_some, Option.some_or, Option.getD_some] at hback
    exact hback.symm
  | none =>
    rw [Option.map_none, Option.getD_none, h.mapDeclaredMethod_eq hentry hmethod,
      mappingAt?_eq hentry hmethod, mappingOf?]
    cases hrow : store.methodRow? entry.name method.name method.desc with
    | none => rfl
    | some row =>
      have hkeys := h.row_of_mappingAt? place hentry hmethod hrow
      have hmiss := List.find?_eq_none.1 hfind row (List.mem_of_find?_eq_some hrow)
      simp [hkeys] at hmiss

/-- If all methods of a class get their old names back, their new names and new descriptors were
distinct. -/
theorem nodup_of_mapDeclaredMethod_moved {id : ClassId} {entry new : ClassEntry}
    (hentry : graph.at? id = some entry) (hnew : renamed.at? id = some new)
    (hback : ∀ k method moved, entry.methods[k]? = some method →
      renamed.methodAt? (id, k) = some moved →
        (ofStore renamed store.inverse).mapDeclaredMethod new.name moved = method.name) :
    (((ofStore graph store).mapClass entry).methods.map fun method =>
      (method.name, method.desc)).Nodup := by
  have hmem := mem_of_at? hentry
  have hnodup := h.distinct entry hmem
  have hnames : ∀ method ∈ entry.methods, method.name = store.oldName entry.name
      ((ofStore graph store).mapDeclaredMethod entry.name method)
      ((ofStore graph store).mapDescriptor method.desc) := by
    intro method hmethod
    obtain ⟨k, hk⟩ := List.getElem?_of_mem hmethod
    have hat : graph.at? ((id, k) : ClassId × Nat).1 = some entry := hentry
    obtain ⟨moved, hmoved, -⟩ := h.exists_methodAt?_renamed hrenamed hat hk
    exact h.name_eq_of_mapDeclaredMethod_moved hrenamed hat hk hnew hmoved
      (hback k method moved hk hmoved)
  rw [Renamer.mapClass, List.map_map]
  refine hnodup.of_map.map_on fun method hmethod other hother hsame => ?_
  obtain ⟨hname, hdesc⟩ := Prod.mk.inj hsame
  change (ofStore graph store).mapDeclaredMethod entry.name method =
    (ofStore graph store).mapDeclaredMethod entry.name other at hname
  change (ofStore graph store).mapDescriptor method.desc =
    (ofStore graph store).mapDescriptor other.desc at hdesc
  refine List.inj_on_of_nodup_map hnodup hmethod hother (Prod.ext ?_ ?_)
  · exact (hnames method hmethod).trans (by rw [hname, hdesc, ← hnames other hother])
  · have hdescs := congrArg (ofStore renamed store.inverse).mapDescriptor hdesc
    rwa [h.mapDescriptor_inverse_method renamed hmem hmethod,
      h.mapDescriptor_inverse_method renamed hmem hother] at hdescs

/-- The fields of a class get their old names and types back exactly if each one does by the first row
with its new name. -/
theorem outlineFields_back_iff {id : ClassId} {entry new : ClassEntry}
    (hentry : graph.at? id = some entry) (hnew : renamed.at? id = some new) :
    (outline ((ofStore renamed store.inverse).mapClass new)).2.1 = (outline entry).2.1 ↔
      ∀ field ∈ entry.fields,
        ∀ row ∈ (store.classFields entry.name).find?
            (·.mapping == (ofStore graph store).mapDeclaredField entry.name field.name),
          row.name = field.name := by
  have hmem := mem_of_at? hentry
  have hfrom := renamed_of_at? hrenamed h.linked h.separates.separates hentry hnew
  have hfields : (outline ((ofStore renamed store.inverse).mapClass new)).2.1 =
      (outline new).2.1.map fun field =>
        ((ofStore renamed store.inverse).mapDeclaredField new.name field.1,
          (ofStore renamed store.inverse).mapDescriptor field.2) := by
    simp only [outline, Renamer.mapClass, List.map_map]
    rfl
  rw [hfields, hfrom.outlineFields, List.map_map, outline, List.map_inj_left]
  refine forall₂_congr fun field hfield => ?_
  rw [← h.mapDeclaredField_inverse_iff renamed hmem hfield, ← h.name_renamed hrenamed hentry hnew,
    Prod.mk.injEq]
  refine and_iff_left ?_
  exact h.mapDescriptor_inverse renamed hmem fun _ hname => mem_mentioned_of_field hfield hname

/-- The methods of a class get their old names and descriptors back exactly if each one gets its
name. -/
theorem outlineMethods_back_iff {id : ClassId} {entry new : ClassEntry}
    (hentry : graph.at? id = some entry) (hnew : renamed.at? id = some new) :
    (outline ((ofStore renamed store.inverse).mapClass new)).2.2 = (outline entry).2.2 ↔
      ∀ k method moved, entry.methods[k]? = some method → renamed.methodAt? (id, k) = some moved →
        (ofStore renamed store.inverse).mapDeclaredMethod new.name moved = method.name := by
  have hmem := mem_of_at? hentry
  have hmethods : (outline ((ofStore renamed store.inverse).mapClass new)).2.2 =
      new.methods.map fun moved => ((ofStore renamed store.inverse).mapDeclaredMethod new.name moved,
        (ofStore renamed store.inverse).mapDescriptor moved.desc) := by
    simp only [outline, Renamer.mapClass, List.map_map]
    rfl
  rw [hmethods, outline, List.ext_getElem?_iff]
  refine forall_congr' fun k => ?_
  rw [List.getElem?_map, List.getElem?_map]
  have hnode := node_methodAt?_renamed hrenamed h.linked h.separates.separates (id, k)
  have hnewMethod : new.methods[k]? = renamed.methodAt? (id, k) := by
    rw [methodAt?, hnew, Option.bind_some]
  rw [hentry, Option.bind_some] at hnode
  rw [hnewMethod]
  cases hmethod : entry.methods[k]? with
  | none =>
    rw [hmethod, Option.map_none, Option.map_eq_none_iff] at hnode
    simp [hnode]
  | some method =>
    rw [hmethod, Option.map_some] at hnode
    obtain ⟨moved, hmoved, hnode⟩ := Option.map_eq_some_iff.1 hnode
    have hdesc : moved.desc = (ofStore graph store).mapDescriptor method.desc :=
      congrArg MethodNode.desc hnode
    have hback := h.mapDescriptor_inverse_method renamed hmem (List.mem_of_getElem? hmethod)
    simp [hmoved, hdesc, hback]

/-- A class gets its old name back, and its members their old names and types exactly if each one gets its
name. -/
theorem outline_back_iff {id : ClassId} {entry new : ClassEntry} (hentry : graph.at? id = some entry)
    (hnew : renamed.at? id = some new) :
    outline ((ofStore renamed store.inverse).mapClass new) = outline entry ↔
      (∀ field ∈ entry.fields,
        ∀ row ∈ (store.classFields entry.name).find?
            (·.mapping == (ofStore graph store).mapDeclaredField entry.name field.name),
          row.name = field.name) ∧
        ∀ k method moved, entry.methods[k]? = some method → renamed.methodAt? (id, k) = some moved →
          (ofStore renamed store.inverse).mapDeclaredMethod new.name moved = method.name := by
  have hname : ((ofStore renamed store.inverse).mapClass new).name = entry.name := by
    have hfrom := renamed_of_at? hrenamed h.linked h.separates.separates hentry hnew
    rw [name_mapClass, hfrom.name,
      h.mapType_inverse renamed (mem_of_at? hentry) (name_mem_mentioned entry)]
  rw [← h.outlineFields_back_iff hrenamed hentry hnew, ← h.outlineMethods_back_iff hrenamed hentry hnew,
    Prod.ext_iff, Prod.ext_iff]
  exact and_iff_right hname

omit h in
/-- Outlines are compared class by class, in their places. -/
theorem outlines_back_iff_forall {back : ClassGraph}
    (hback : back.toList = linkAll (renamed.toList.map (ofStore renamed store.inverse).mapClass)) :
    back.toList.map outline = graph.toList.map outline ↔
      ∀ id entry new, graph.at? id = some entry → renamed.at? id = some new →
        outline ((ofStore renamed store.inverse).mapClass new) = outline entry := by
  have houtlines : back.toList.map outline =
      renamed.toList.map fun new => outline ((ofStore renamed store.inverse).mapClass new) := by
    rw [hback, map_linkAll _ fun _ _ => outline_eq_of_linkedFrom, List.map_map]
    rfl
  rw [houtlines, List.ext_getElem?_iff]
  constructor
  · intro hsame id entry new hentry hnew
    have hat := hsame id.index
    rw [List.getElem?_map, List.getElem?_map, ← at?_eq_getElem? renamed id, ← at?_eq_getElem? graph id,
      hentry, hnew] at hat
    exact Option.some.inj hat
  · intro hall index
    rw [List.getElem?_map, List.getElem?_map, ← at?_eq_getElem? renamed ⟨index⟩,
      ← at?_eq_getElem? graph ⟨index⟩]
    cases hentry : graph.at? ⟨index⟩ with
    | none => rw [at?_renamed_of_none hrenamed hentry]; rfl
    | some entry =>
      obtain ⟨new, hnew⟩ := exists_at?_renamed hrenamed hentry
      rw [hnew]
      exact congrArg some (hall _ entry new hentry hnew)

omit h in
theorem exists_at?_of_mem {entry : ClassEntry} (hentry : entry ∈ graph.toList) :
    ∃ id new, graph.at? id = some entry ∧ renamed.at? id = some new := by
  obtain ⟨index, hindex⟩ := List.getElem?_of_mem hentry
  have hat : graph.at? ⟨index⟩ = some entry := (at?_eq_getElem? graph ⟨index⟩).trans hindex
  obtain ⟨new, hnew⟩ := exists_at?_renamed hrenamed hat
  exact ⟨_, new, hat, hnew⟩

/-- The classes and members of a graph have their old names and types back exactly if the inverse undoes
what has been done to the members. -/
theorem outlines_back_iff (hkeeps : renamed.KeepsNames) {back : ClassGraph}
    (hback : back.toList = linkAll (renamed.toList.map (ofStore renamed store.inverse).mapClass)) :
    back.toList.map outline = graph.toList.map outline ↔
      (ofStore graph store).Undoable store graph.toList := by
  rw [outlines_back_iff_forall hrenamed hback]
  constructor
  · intro hall
    have hmembers := fun {id entry new} hentry hnew =>
      (h.outline_back_iff hrenamed hentry hnew).1 (hall id entry new hentry hnew)
    have hdistinct : DistinctMethods (graph.toList.map (ofStore graph store).mapClass) := by
      refine List.forall_mem_map.2 fun entry hentry => ?_
      obtain ⟨id, new, hat, hnew⟩ := exists_at?_of_mem hrenamed hentry
      exact h.nodup_of_mapDeclaredMethod_moved hrenamed hat hnew (hmembers hat hnew).2
    refine ⟨hdistinct, fun entry hentry method hmethod hmapping => ?_, fun entry hentry => ?_⟩
    · obtain ⟨id, new, hat, hnew⟩ := exists_at?_of_mem hrenamed hentry
      obtain ⟨k, hk⟩ := List.getElem?_of_mem hmethod
      have hat' : graph.at? ((id, k) : ClassId × Nat).1 = some entry := hat
      obtain ⟨moved, hmoved, -⟩ := h.exists_methodAt?_renamed hrenamed hat' hk
      refine (h.mapDeclaredMethod_moved_iff hrenamed hkeeps hdistinct hat' hk hnew hmoved).1
        ((hmembers hat hnew).2 k method moved hk hmoved) ?_
      rw [mappingAt?_eq hat' hk]
      exact hmapping
    · obtain ⟨id, new, hat, hnew⟩ := exists_at?_of_mem hrenamed hentry
      exact (hmembers hat hnew).1
  · intro hundoable id entry new hentry hnew
    refine (h.outline_back_iff hrenamed hentry hnew).2
      ⟨hundoable.fields entry (mem_of_at? hentry), fun k method moved hmethod hmoved => ?_⟩
    have hat : graph.at? ((id, k) : ClassId × Nat).1 = some entry := hentry
    refine (h.mapDeclaredMethod_moved_iff hrenamed hkeeps hundoable.distinct hat hmethod hnew hmoved).2
      fun hmapping => ?_
    rw [mappingAt?_eq hat hmethod] at hmapping
    exact hundoable.kept entry (mem_of_at? hentry) method (List.mem_of_getElem? hmethod) hmapping

end

end Mapping.Reversible

namespace Renamer

open ClassGraph Mapping Mapping.Store

theorem mentioned_eq_of_linkedFrom {entries : List ClassEntry} {declared entry : ClassEntry}
    (h : LinkedFrom entries declared entry) : mentioned entry = mentioned declared := by
  have habove : namesAbove entry = namesAbove declared := by
    simp only [namesAbove, ClassEntry.name, h.node]
  have hfields := congrArg (List.flatMap fun node : FieldNode => Descriptor.names node.desc) h.fields
  have hmethods := congrArg (List.flatMap fun node : MethodNode => Descriptor.names node.desc) h.methods
  rw [List.flatMap_map, List.flatMap_map] at hfields hmethods
  exact congrArg₂ (· ++ ·) habove (congrArg₂ (· ++ ·) hfields hmethods)

section
variable {σ : Type} {source : NameSource σ} (hsource : source.Plain) (reserved : List String) (names : σ)
include hsource

/-- A generated store tells of its graph as an inversion needs it. -/
theorem reversible_generated {graph : ClassGraph} (hlinked : Linked graph.toList)
    (hkeeps : graph.KeepsNames) (hdistinct : DistinctMethods graph.toList)
    (hplain : PlainNames graph.toList)
    (hmentions : ∀ entry ∈ graph.toList, ∀ name ∈ mentioned entry, PlainClass name)
    (hseparates : (ofGenerated source reserved names graph).SeparatesMentioned graph.toList) :
    Reversible graph (generated source reserved graph names) where
  linked := hlinked
  keeps := hkeeps
  distinct := hdistinct
  names := hplain
  mentions := hmentions
  describes := describes_generated source reserved graph names
  mappings := plainMappings_generated hsource hkeeps
    (fun entry hentry => hmentions entry hentry _ (name_mem_mentioned entry)) names
  rows := distinctRows_generated source reserved graph names
  descs := (completed_generated source reserved graph names).methods
  bases _ _ hbase :=
    mappingAt?_generated_base source reserved names hlinked hkeeps hdistinct
      (keyed_of_separates (describes_generated source reserved graph names) hplain hseparates.separates)
      hbase
  separates := hseparates

/-- Generating succeeds, and where its class names are kept apart, renaming by the store and then by its
inverse gives every class its old name and every member its old name and type back, all in their
places, exactly if the inverse undoes what has been done to the members. -/
theorem exists_generated_undoable_iff (declared : ClassGraph) (hkeeps : declared.KeepsNames)
    (hdistinct : DistinctMethods declared.toList) (hplain : PlainNames declared.toList)
    (hmentions : ∀ entry ∈ declared.toList, ∀ name ∈ mentioned entry, PlainClass name) :
    let graph := declared.resolve
    ∃ store rest, generate source reserved graph names = .ok (store, rest) ∧
      ((ofStore graph store).SeparatesMentioned graph.toList →
        (((graph.rename store).rename store.inverse).toList.map outline = graph.toList.map outline ↔
          (ofStore graph store).Undoable store graph.toList)) := by
  intro graph
  refine ⟨_, _, generate_eq_ok source reserved graph names rfl, fun hseparates => ?_⟩
  have htoList : graph.toList = linkAll declared.toList := toList_resolve declared
  have hkeeps' : graph.KeepsNames := hkeeps.resolve
  have hdistinct' : DistinctMethods graph.toList := by
    rw [htoList]
    exact distinctMethods_linkAll.2 hdistinct
  have hplain' : PlainNames graph.toList := by
    rw [htoList]
    exact hplain.linkAll
  have hmentions' : ∀ entry ∈ graph.toList, ∀ name ∈ mentioned entry, PlainClass name := by
    have hmentioned : graph.toList.map mentioned = declared.toList.map mentioned := by
      rw [htoList]
      exact map_linkAll _ fun _ _ => mentioned_eq_of_linkedFrom
    rw [← List.forall_mem_map (P := fun mentioned => ∀ name ∈ mentioned, PlainClass name), hmentioned,
      List.forall_mem_map]
    exact hmentions
  have h := reversible_generated hsource reserved names (linked_resolve declared) hkeeps' hdistinct'
    hplain' hmentions' hseparates
  have hrenamed := toList_rename rfl hkeeps'.nodup hseparates.separates
  have hkeepsNew := keepsNames_rename rfl hkeeps'.nodup hseparates.separates
  refine h.outlines_back_iff hrenamed hkeepsNew ?_
  exact toList_rename rfl hkeepsNew.nodup (h.separates_inverse hrenamed)

end

/-- An override gets its name back with the method that it overrides. -/
theorem generated_undoable_overriding :
    ∃ store rest, generate Counters.source reservedMethods overridingGraph.resolve {} =
        .ok (store, rest) ∧
      ((overridingGraph.resolve.rename store).rename store.inverse).toList.map outline =
        [("p/A", [], [("m", "()V")]), ("p/B", [], [("m", "()V")])] := by
  obtain ⟨store, rest, hgenerate, h⟩ := exists_generated_undoable_iff alphanumeric_counters.plain
    reservedMethods {} overridingGraph (by decide +kernel) (by decide +kernel) (by decide +kernel)
    (by decide +kernel)
  have hstore := hgenerate
  rw [generate_eq_ok _ _ _ _ rfl, Except.ok.injEq, Prod.mk.injEq] at hstore
  refine ⟨store, rest, hgenerate, ((h ?_).2 ?_).trans (by decide +kernel)⟩
  all_goals
    rw [← hstore.1]
    decide +kernel

/-- A class with a method of its own besides the one that it overrides. -/
def crowdedGraph : ClassGraph :=
  .ofList
    [.ofNode
      { access := 1, name := "p/A", superName := some "java/lang/Object"
        methods := [{ access := 1, name := "m", desc := "()V" }] },
    .ofNode
      { access := 1, name := "p/B", superName := some "p/A"
        methods :=
          [{ access := 1, name := "n", desc := "()V" }, { access := 1, name := "m", desc := "()V" }] }]

/-- Both methods of the lower class get the first name, and both come back under the name of the
first. -/
theorem generated_not_undone :
    ((generate Counters.source reservedMethods crowdedGraph.resolve {}).toOption.map fun result =>
        ((crowdedGraph.resolve.rename result.1).rename result.1.inverse).toList.map outline) =
      some [("p/A", [], [("m", "()V")]), ("p/B", [], [("n", "()V"), ("n", "()V")])] := by
  decide +kernel

end Renamer
end JvmArchive
