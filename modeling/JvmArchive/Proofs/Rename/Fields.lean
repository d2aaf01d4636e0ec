import JvmArchive.Proofs.Graph.FieldSearch
import JvmArchive.Proofs.Mapping.Fields
import JvmArchive.Proofs.Rename.Overrides

/-!
# Fields under generated names

An instruction on a field goes on meaning it after a renaming exactly if it gets the name that the field
is declared under and no field that is searched earlier answers to that name. The first holds for
generated names if no class on the way declares a field of the old name and the declaring class is no
enum; the second does not, since fields are named anew in every class.
-/
namespace JvmArchive

namespace ClassGraph

/-- The fields of the class at a position, each with the class. -/
def fieldsAt (entries : List ClassEntry) (id : ClassId) : List (ClassEntry × FieldEntry) :=
  (entries[id.index]?).toList.flatMap fun entry => entry.fields.map (entry, ·)

/-- The fields that a search through some classes meets before the one at a place. -/
def fieldsBefore (entries : List ClassEntry) (ids : List ClassId) (place : ClassId × Nat) :
    List (ClassEntry × FieldEntry) :=
  (searchedBefore ids (some place)).flatMap (fieldsAt entries) ++
    (fieldsAt entries place.1).take place.2

end ClassGraph

namespace Renamer

open ClassGraph Mapping Mapping.Store

variable {renamer : Renamer} {graph renamed : ClassGraph}

/-- Whether a field of a class, once it has been renamed, is one that an instruction may mean. -/
def answers (renamer : Renamer) (opcode : Opcode) (name desc : String)
    (field : ClassEntry × FieldEntry) : Bool :=
  renamer.mapDeclaredField field.1.name field.2.name == name &&
    renamer.mapDescriptor field.2.desc == desc && suits opcode field.2

/-- A search in the renamed graph asks the fields what they are called by now. -/
theorem fieldIn?_renamed (hrenamed : renamed.toList = linkAll (graph.toList.map renamer.mapClass))
    (hlinked : Linked graph.toList) (hseparates : renamer.Separates graph.toList) (opcode : Opcode)
    (name desc : String) (id : ClassId) :
    fieldIn? renamed.toList opcode name desc id =
      (fieldsAt graph.toList id).findIdx? (renamer.answers opcode name desc) := by
  rw [fieldIn?, fieldsAt, ← at?_eq_getElem?, ← at?_eq_getElem?]
  cases hentry : graph.at? id with
  | none => simp [at?_renamed_of_none hrenamed hentry]
  | some entry =>
    obtain ⟨new, hnew⟩ := exists_at?_renamed hrenamed hentry
    have hfields := (renamed_of_at? hrenamed hlinked hseparates hentry hnew).fields
    let asks := fun node : FieldNode =>
      node.name == name && node.desc == desc && suits opcode { node := node }
    have hnodes : new.fields.findIdx? (fun field => asks field.node) =
        entry.fields.findIdx? fun field => asks (renamer.mapFieldEntry entry.name field).node := by
      have hindex := congrArg (List.findIdx? asks) hfields
      rw [List.findIdx?_map, List.findIdx?_map] at hindex
      exact hindex
    rw [hnew]
    simp only [Option.bind_some, Option.toList_some, List.flatMap_cons, List.flatMap_nil,
      List.append_nil, List.findIdx?_map]
    exact hnodes

theorem answers_fieldsBefore_iff {entries : List ClassEntry} {ids : List ClassId}
    {place : ClassId × Nat} {field : ClassEntry × FieldEntry}
    {answers : ClassEntry × FieldEntry → Bool}
    (hfield : (fieldsAt entries place.1)[place.2]? = some field) :
    ((∀ id ∈ searchedBefore ids (some place), (fieldsAt entries id).findIdx? answers = none) ∧
        (fieldsAt entries place.1).findIdx? answers = some place.2) ↔
      answers field = true ∧ ∀ earlier ∈ fieldsBefore entries ids place, answers earlier = false := by
  obtain ⟨hlt, hget⟩ := List.getElem?_eq_some_iff.1 hfield
  simp only [fieldsBefore, List.mem_append, List.mem_flatMap, List.findIdx?_eq_none_iff,
    List.findIdx?_eq_some_iff_getElem, List.mem_take_iff_getElem]
  constructor
  · rintro ⟨hbefore, hlt, hanswers, hearlier⟩
    refine ⟨hget ▸ hanswers, ?_⟩
    rintro earlier (⟨id, hid, hmem⟩ | ⟨index, hindex, rfl⟩)
    · exact hbefore id hid earlier hmem
    · exact Bool.eq_false_iff.2 (hearlier index (by omega))
  · rintro ⟨hanswers, hnone⟩
    refine ⟨fun id hid other hother => hnone other (.inl ⟨id, hid, hother⟩), hlt,
      by rw [hget]; exact hanswers, fun index hindex => ?_⟩
    exact Bool.eq_false_iff.1 (hnone _ (.inr ⟨index, by omega, rfl⟩))

/-- Whether an instruction reaches the same field after a renaming. -/
theorem findField_renamed_iff (hrenamed : renamed.toList = linkAll (graph.toList.map renamer.mapClass))
    (hlinked : Linked graph.toList) (hseparates : renamer.Separates graph.toList)
    {id : ClassId} {entry declaring : ClassEntry} {opcode : Opcode} {name desc : String}
    {place : ClassId × Nat} (hentry : graph.at? id = some entry)
    (hfind : graph.findField id opcode name desc = some place)
    (hdeclaring : graph.at? place.1 = some declaring) (newName : String) :
    renamed.findField id opcode newName (renamer.mapDescriptor desc) = some place ↔
      renamer.mapDeclaredField declaring.name name = newName ∧
        ∀ earlier ∈ fieldsBefore graph.toList (id :: entry.ancestors) place,
          renamer.answers opcode newName (renamer.mapDescriptor desc) earlier = false := by
  rw [findField_eq_firstIn? hlinked hentry, firstIn?, findSome?_eq_iff] at hfind
  obtain ⟨hmem, hindex⟩ := hfind.2 place rfl
  rw [fieldIn?, ← at?_eq_getElem?, hdeclaring, Option.bind_some, ownField?] at hindex
  obtain ⟨hlt, hmatch, -⟩ := List.findIdx?_eq_some_iff_getElem.1 hindex
  simp only [Bool.and_eq_true, beq_iff_eq] at hmatch
  have hfield : (fieldsAt graph.toList place.1)[place.2]? =
      some (declaring, declaring.fields[place.2]) := by
    rw [fieldsAt, ← at?_eq_getElem?, hdeclaring]
    simp [hlt]
  obtain ⟨new, hnew⟩ := exists_at?_renamed hrenamed hentry
  have hancestors := (renamed_of_at? hrenamed hlinked hseparates hentry hnew).ancestors
  have hlinkedNew : Linked renamed.toList := hrenamed ▸ linked_linkAll _
  rw [findField_eq_firstIn? hlinkedNew hnew, firstIn?, findSome?_eq_iff, hancestors]
  simp only [fieldIn?_renamed hrenamed hlinked hseparates, Option.some.injEq, forall_eq', hmem,
    true_and]
  rw [answers_fieldsBefore_iff hfield]
  simp [answers, hmatch]

/-- An instruction gets the mapping of the class that it names, or else that of the class that declares
the field. -/
theorem mapField_eq_getD {owner name desc key : String} {opcode : Opcode} {id declaring : ClassId}
    {index : Nat} (hid : renamer.graph.idOf? owner = some id)
    (hfind : renamer.graph.findField id opcode name desc = some (declaring, index))
    (hkey : renamer.graph.nameOf? declaring = some key) :
    renamer.mapField owner name desc opcode =
      ((renamer.fieldImage? owner name).or (renamer.fieldImage? key name)).getD name := by
  have hdeclaring : renamer.declaringField? owner name desc opcode = some key := by
    simp [declaringField?, hid, hfind, hkey]
  cases hentry : renamer.fieldImage? owner name <;> simp [mapField, hentry, hdeclaring]

/-- The renamer finds the first row of a class for a name. -/
theorem fieldImage?_ofStore {property : MethodEntry → Prop} {store : Store}
    (h : Describes property graph store) (hplain : PlainNames graph.toList) {entry : ClassEntry}
    {name : String} (hentry : entry ∈ graph.toList) (hname : '(' ∉ name.toList) :
    fieldImage? (ofStore graph store) entry.name name =
      (store.firstRow? entry.name name).map (·.mapping) :=
  get?_flatten_field h.direction (h.plain hplain) (hplain.classes entry hentry).1 hname

section
variable {σ : Type} (source : NameSource σ) (reserved : List String) (names : σ)

/-- With generated names an instruction gets the name under which the field is declared, if no class on
the way declares a field of the old name and the declaring class is no enum. -/
theorem mapField_generated (hlinked : Linked graph.toList) (hkeeps : graph.KeepsNames)
    (hplain : PlainNames graph.toList)
    (hseparates : (ofGenerated source reserved names graph).Separates graph.toList)
    {id : ClassId} {entry declaring : ClassEntry} {opcode : Opcode} {name desc : String}
    {place : ClassId × Nat} (hentry : graph.at? id = some entry)
    (hfind : graph.findField id opcode name desc = some place)
    (hdeclaring : graph.at? place.1 = some declaring) (henum : declaring.access.isEnum = false)
    (hbefore : ∀ above ∈ searchedBefore (id :: entry.ancestors) (some place),
      ∀ between ∈ graph.at? above, ∀ field ∈ between.fields, field.name ≠ name) :
    (ofGenerated source reserved names graph).mapField entry.name name desc opcode =
      (ofGenerated source reserved names graph).mapDeclaredField declaring.name name := by
  have hdescribes := describes_generated source reserved graph names
  have hkeyed := keyed_of_separates hdescribes hplain hseparates
  have hindex := hfind
  rw [findField_eq_firstIn? hlinked hentry, firstIn?, findSome?_eq_iff] at hindex
  obtain ⟨hmem, hindex⟩ := hindex.2 place rfl
  rw [fieldIn?, ← at?_eq_getElem?, hdeclaring, Option.bind_some, ownField?] at hindex
  obtain ⟨hlt, hmatch, -⟩ := List.findIdx?_eq_some_iff_getElem.1 hindex
  simp only [Bool.and_eq_true, beq_iff_eq] at hmatch
  have hdeclares : declaring.fields[place.2] ∈ declaring.fields := List.getElem_mem hlt
  have hname : '(' ∉ name.toList :=
    hmatch.1.1 ▸ hplain.fields declaring (mem_of_at? hdeclaring) _ hdeclares
  have hkey : graph.nameOf? place.1 = some declaring.name := by
    rw [hkeeps.nameOf?, hdeclaring, Option.map_some]
  rw [mapField_eq_getD (hkeeps.idOf? hentry) hfind hkey, mapDeclaredField,
    fieldImage?_ofStore hdescribes hplain (mem_of_at? hentry) hname,
    fieldImage?_ofStore hdescribes hplain (mem_of_at? hdeclaring) hname]
  by_cases hid : id = place.1
  · subst hid
    rw [hentry, Option.some.injEq] at hdeclaring
    rw [hdeclaring, Option.or_self]
  · have hfirst : searchedBefore (id :: entry.ancestors) (some place) =
        id :: entry.ancestors.takeWhile (· ≠ place.1) := by
      rw [searchedBefore, List.takeWhile_cons_of_pos]
      · simp [eq_comm]
      · simpa using fun h : place.1 = id => hid h.symm
    rw [hfirst] at hbefore
    have habove : place.1 ∈ entry.ancestors :=
      (List.mem_cons.1 hmem).resolve_left fun h => hid h.symm
    rw [firstRow?_generated source reserved names hkeeps hkeyed hentry habove hdeclaring henum
      ⟨_, hdeclares, hmatch.1.1⟩ (hbefore id List.mem_cons_self entry hentry)
      fun other hother between hbetween => hbefore other (List.mem_cons_of_mem _ hother) between hbetween,
      Option.or_self]

/-- Generating succeeds, and where its class names are kept apart, an instruction that reaches a field
reaches it after renaming by the store exactly if it gets the name under which the field is declared
and no field that is searched earlier answers to it. It does get that name if the field is that of no
enum and no class searched earlier declares a field of the old name. -/
theorem exists_generated_findField_iff (declared : ClassGraph) (hkeeps : declared.KeepsNames)
    (hplain : PlainNames declared.toList) :
    let graph := declared.resolve
    ∃ store rest, generate source reserved graph names = .ok (store, rest) ∧
      let renamer := ofStore graph store
      let renamed := graph.rename store
      (renamer.Separates graph.toList →
        ∀ id entry opcode name desc place declaring, graph.at? id = some entry →
          graph.findField id opcode name desc = some place → graph.at? place.1 = some declaring →
            let owner := renamer.mapType entry.name
            let newName := renamer.mapField entry.name name desc opcode
            let newDesc := renamer.mapDescriptor desc
            renamer.mapInstruction (.field opcode entry.name name desc) =
                .field opcode owner newName newDesc ∧
              renamed.idOf? owner = some id ∧
              (renamed.findField id opcode newName newDesc = some place ↔
                renamer.mapDeclaredField declaring.name name = newName ∧
                  ∀ earlier ∈ fieldsBefore graph.toList (id :: entry.ancestors) place,
                    renamer.answers opcode newName newDesc earlier = false) ∧
              (declaring.access.isEnum = false →
                (∀ above ∈ searchedBefore (id :: entry.ancestors) (some place),
                  ∀ between ∈ graph.at? above, ∀ field ∈ between.fields, field.name ≠ name) →
                renamer.mapDeclaredField declaring.name name = newName)) := by
  intro graph
  refine ⟨_, _, generate_eq_ok source reserved graph names rfl, fun hseparates => ?_⟩
  intro id entry opcode name desc place declaring hentry hfind hdeclaring owner newName newDesc
  have hlinked := linked_resolve declared
  have hkeeps' : graph.KeepsNames := hkeeps.resolve
  have hplain' : PlainNames graph.toList := by
    rw [toList_resolve declared]
    exact hplain.linkAll
  have hrenamed := toList_rename rfl hkeeps'.nodup hseparates
  refine ⟨rfl, ?_, ?_, fun henum hbefore => ?_⟩
  · obtain ⟨new, hnew⟩ := exists_at?_renamed hrenamed hentry
    have hname : new.name = owner :=
      congrArg ClassNode.name (renamed_of_at? hrenamed hlinked hseparates hentry hnew).node
    rw [← hname]
    exact (keepsNames_rename rfl hkeeps'.nodup hseparates).idOf? hnew
  · exact findField_renamed_iff hrenamed hlinked hseparates hentry hfind hdeclaring newName
  · exact (mapField_generated source reserved names hlinked hkeeps' hplain' hseparates hentry hfind
      hdeclaring henum hbefore).symm

theorem findField_rename (graph : ClassGraph) (store : Store) (id : ClassId) (opcode : Opcode)
    (name desc : String) :
    (graph.rename store).findField id opcode name desc =
      ((graph.rename store).at? id).bind fun entry =>
        firstIn? (fieldIn? (graph.rename store).toList opcode name desc) (id :: entry.ancestors) :=
  findField_resolve _ id opcode name desc

/-- Two classes with a field each, the lower of them of a given type. -/
def fieldGraph (desc : String) : ClassGraph :=
  .ofList
    [.ofNode
      { access := 1, name := "p/A", superName := some "java/lang/Object"
        fields := [{ access := 1, name := "x", desc := "I" }] },
    .ofNode
      { access := 1, name := "p/B", superName := some "p/A"
        fields := [{ access := 1, name := "y", desc }] }]

/-- Both fields get the first name, but they differ in their types, so an instruction on the upper field
through the lower class reaches it still. -/
theorem generated_findField_distinctTypes :
    let graph := (fieldGraph "J").resolve
    ∃ store rest, generate Counters.source reservedMethods graph {} = .ok (store, rest) ∧
      (graph.rename store).findField ⟨1⟩ Opcode.getfield
          ((ofStore graph store).mapField "p/B" "x" "I" Opcode.getfield)
          ((ofStore graph store).mapDescriptor "I") =
        some (⟨0⟩, 0) := by
  intro graph
  obtain ⟨store, rest, hgenerate, h⟩ := exists_generated_findField_iff Counters.source reservedMethods
    {} (fieldGraph "J") (by decide +kernel) (by decide +kernel)
  have hstore := hgenerate
  rw [generate_eq_ok _ _ _ _ rfl, Except.ok.injEq, Prod.mk.injEq] at hstore
  obtain ⟨entry, hentry⟩ :=
    Option.isSome_iff_exists.1 (by decide +kernel : (graph.at? ⟨1⟩).isSome)
  obtain ⟨declaring, hdeclaring⟩ :=
    Option.isSome_iff_exists.1 (by decide +kernel : (graph.at? ⟨0⟩).isSome)
  have hname : (graph.at? ⟨1⟩).map (·.name) = some "p/B" := by decide +kernel
  rw [hentry, Option.map_some, Option.some.injEq] at hname
  have hseparates : (ofStore graph store).Separates graph.toList := by
    rw [← hstore.1]
    decide +kernel
  obtain ⟨-, -, hiff, hdeclared⟩ := h hseparates ⟨1⟩ entry Opcode.getfield "x" "I" (⟨0⟩, 0) declaring
    hentry (by rw [findField_resolve]; decide +kernel) hdeclaring
  have henum : (graph.at? ⟨0⟩).map (·.access.isEnum) = some false := by decide +kernel
  rw [hdeclaring, Option.map_some, Option.some.injEq] at henum
  have hancestors : (graph.at? ⟨1⟩).map (·.ancestors) = some [⟨0⟩] := by decide +kernel
  rw [hentry, Option.map_some, Option.some.injEq] at hancestors
  rw [hname, hancestors] at hiff hdeclared
  refine ⟨store, rest, hgenerate, hiff.2 ⟨hdeclared henum (by decide +kernel), ?_⟩⟩
  rw [← hstore.1]
  decide +kernel

/-- With one type an instruction on the upper field through the lower class reaches the lower field
instead. -/
theorem generated_findField_captured :
    let graph := (fieldGraph "I").resolve
    graph.findField ⟨1⟩ Opcode.getfield "x" "I" = some (⟨0⟩, 0) ∧
      ((generate Counters.source reservedMethods graph {}).toOption.map fun result =>
          let renamer := ofStore graph result.1
          (renamer.mapInstruction (.field Opcode.getfield "p/B" "x" "I"),
            (graph.rename result.1).findField ⟨1⟩ Opcode.getfield "a" "I")) =
        some (.field Opcode.getfield "b" "a" "I", some (⟨1⟩, 0)) := by
  simp only [findField_resolve, findField_rename]
  decide +kernel

end

end Renamer
end JvmArchive
