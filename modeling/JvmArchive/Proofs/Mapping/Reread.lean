import JvmArchive.Proofs.Mapping.Described
import JvmArchive.Proofs.Mapping.Lines

/-!
# Written files read back

A ProGuard file lists the classes of a store with their members. Reading it rebuilds exactly the
mappings of these classes and the rows below them; rows of a class that has no mapping are not listed.
-/
namespace JvmArchive.Mapping

open Descriptor Text

/-! ## Lines one after the other -/

namespace Format

variable {σ α : Type} {read : σ → List Char → Except String σ}

/-- If reading the lines of each item adds the item, reading the lines of all adds all. -/
theorem readLines_flatMap (P : σ → Prop) (lines : α → List (List Char)) (add : σ → α → σ)
    {items : List α}
    (h : ∀ item ∈ items, ∀ state, P state → P (add state item) ∧ ∀ rest number, ∃ next,
      readLines read ((lines item).map some ++ rest) number state =
        readLines read rest next (add state item))
    (state : σ) (hstate : P state) (rest : List (Option (List Char))) (number : Nat) :
    ∃ next, readLines read ((items.flatMap lines).map some ++ rest) number state =
      readLines read rest next (items.foldl add state) := by
  induction items generalizing state number with
  | nil => exact ⟨number, rfl⟩
  | cons item items ih =>
    rw [List.forall_mem_cons] at h
    obtain ⟨hadded, hitem⟩ := h.1 state hstate
    obtain ⟨middle, hmiddle⟩ := hitem ((items.flatMap lines).map some ++ rest) number
    obtain ⟨next, hnext⟩ := ih h.2 _ hadded middle
    refine ⟨next, ?_⟩
    rw [List.flatMap_cons, List.map_append, List.append_assoc, hmiddle, hnext]
    rfl

/-- The same where each item has one line. -/
theorem readLines_map (P : σ → Prop) (line : α → List Char) (add : σ → α → σ) {items : List α}
    (h : ∀ item ∈ items, ∀ state, P state →
      P (add state item) ∧ read state (line item) = .ok (add state item))
    (state : σ) (hstate : P state) (rest : List (Option (List Char))) (number : Nat) :
    ∃ next, readLines read ((items.map line).map some ++ rest) number state =
      readLines read rest next (items.foldl add state) := by
  rw [← List.flatMap_singleton' (items.map line), List.flatMap_map]
  refine readLines_flatMap P (fun item => [line item]) add (fun item hitem state hstate => ?_)
    state hstate rest number
  obtain ⟨hadded, hline⟩ := h item hitem state hstate
  refine ⟨hadded, fun rest number => ⟨number + 1, ?_⟩⟩
  rw [List.map_singleton, List.singleton_append, readLines, hline]

end Format

/-! ## The file of a store -/

namespace Store

/-- Whether everything that a store lists can be written down and read back. -/
structure IsWritable (store : Store) : Prop where
  classes : ∀ pair ∈ store.classes.entries, IsName pair.1 ∧ IsName pair.2
  fields : ∀ name, ∀ row ∈ store.classFields name, row.IsWritable
  methods : ∀ name, ∀ row ∈ store.classMethods name, row.IsWritable

/-- A store with the mapping of one class of another store and the rows below it, as a file tells them. -/
def addListed (source target : Store) (pair : String × String) : Store :=
  (source.classMethods pair.1).foldl (fun target row => target.mapMethod pair.1 row.told)
    ((source.classFields pair.1).foldl (fun target row => target.mapField pair.1 row.told)
      (target.mapClass pair.1 pair.2))

/-- What the lines of a store say. -/
def listed (store : Store) : Store :=
  store.classes.entries.foldl store.addListed (.empty .reversing)

end Store

namespace ProGuard

/-- The lines of a class without their ends. -/
def classTexts (store : Store) (pair : String × String) : List String :=
  classText pair.1 pair.2 ::
    ((store.classFields pair.1).map fieldText ++ (store.classMethods pair.1).map methodText)

variable {store : Store}

theorem memberKey_of_mem {pair : String × String} (hpair : pair ∈ store.classes.entries) :
    store.memberKey pair.1 = pair.1 := by
  rw [Store.memberKey, Table.contains_eq_isSome, Table.get?_of_mem_entries hpair]
  rfl

theorem classLines_eq (h : store.IsWritable) {pair : String × String}
    (hpair : pair ∈ store.classes.entries) :
    classLines store pair.1 pair.2 = (classTexts store pair).map (· ++ "\n") := by
  have hkey := memberKey_of_mem hpair
  have hfields : (store.classFields pair.1).filter (!·.desc.isEmpty) = store.classFields pair.1 := by
    refine List.filter_eq_self.2 fun row hrow => ?_
    have hdesc := (h.fields pair.1 row hrow).desc
    have hne : row.desc ≠ "" := by
      intro hempty
      rw [hempty] at hdesc
      cases hdesc
    simpa using hne
  have hclass : dotted pair.1 ++ arrow ++ dotted pair.2 ++ ":\n" = classText pair.1 pair.2 ++ "\n" := by
    have hend : ":\n" = ":" ++ "\n" := rfl
    rw [classText, hend, ← String.append_assoc]
  have hmembers : (store.classFields pair.1).map fieldLine ++ (store.classMethods pair.1).map methodLine =
      ((store.classFields pair.1).map fieldText ++ (store.classMethods pair.1).map methodText).map
        (· ++ "\n") := by
    simp only [List.map_append, List.map_map, Function.comp_def, ← fieldLine_eq, ← methodLine_eq]
  rw [classLines, Store.fieldsOf, Store.methodsOf, hkey, hfields, hclass, hmembers]
  rfl

/-- Adding rows to a reader adds them to its store. -/
theorem foldl_reader {α : Type} (add : Store → α → Store) (items : List α) (store : Store)
    (current : Option String) :
    items.foldl (fun (reader : Reader) item => { reader with store := add reader.store item })
        { store, current } =
      { store := items.foldl add store, current } :=
  List.foldl_hom (fun store => Reader.mk store current) fun _ _ => rfl

/-- Reading the lines of a class adds what the store lists of it. -/
theorem readLines_classTexts (h : store.IsWritable) {pair : String × String}
    (hpair : pair ∈ store.classes.entries) (reader : Reader) (rest : List (Option (List Char)))
    (number : Nat) :
    ∃ next, Format.readLines Reader.readLine
        (((classTexts store pair).map String.toList).map some ++ rest) number reader =
      Format.readLines Reader.readLine rest next
        { store := store.addListed reader.store pair, current := some pair.1 } := by
  obtain ⟨hname, hmapping⟩ := h.classes pair hpair
  have hmembers : ((classTexts store pair).map String.toList).map some ++ rest =
      some (classText pair.1 pair.2).toList ::
        (((store.classFields pair.1).map fun row => (fieldText row).toList).map some ++
          (((store.classMethods pair.1).map fun row => (methodText row).toList).map some ++ rest)) := by
    simp [classTexts, Function.comp_def]
  obtain ⟨middle, hfields⟩ := Format.readLines_map
    (fun reader : Reader => reader.current = some pair.1) (fun row => (fieldText row).toList)
    (fun reader row => { reader with store := reader.store.mapField pair.1 row.told })
    (fun row hrow reader hcurrent =>
      ⟨hcurrent, readLine_fieldText hcurrent (h.fields pair.1 row hrow)⟩)
    ⟨reader.store.mapClass pair.1 pair.2, some pair.1⟩ rfl
    (((store.classMethods pair.1).map fun row => (methodText row).toList).map some ++ rest) (number + 1)
  obtain ⟨next, hmethods⟩ := Format.readLines_map
    (fun reader : Reader => reader.current = some pair.1) (fun row => (methodText row).toList)
    (fun reader row => { reader with store := reader.store.mapMethod pair.1 row.told })
    (fun row hrow reader hcurrent =>
      ⟨hcurrent, readLine_methodText hcurrent (h.methods pair.1 row hrow)⟩)
    ⟨(store.classFields pair.1).foldl (fun target row => target.mapField pair.1 row.told)
      (reader.store.mapClass pair.1 pair.2), some pair.1⟩ rfl rest middle
  refine ⟨next, ?_⟩
  rw [hmembers, Format.readLines, readLine_class reader hname hmapping]
  dsimp only
  rw [hfields, foldl_reader fun target (row : FieldMapping) => target.mapField pair.1 row.told, hmethods,
    foldl_reader fun target (row : MethodMapping) => target.mapMethod pair.1 row.told]
  rfl

/-- Every line that is written is one line. -/
theorem isLine_of_mem_classTexts (h : store.IsWritable) {pair : String × String}
    (hpair : pair ∈ store.classes.entries) {line : String} (hline : line ∈ classTexts store pair) :
    IsLine line := by
  rcases List.mem_cons.1 hline with rfl | hmember
  · exact isLine_classText (h.classes pair hpair).1 (h.classes pair hpair).2
  · rcases List.mem_append.1 hmember with hfield | hmethod
    · obtain ⟨row, hrow, rfl⟩ := List.mem_map.1 hfield
      exact (isMember_field (h.fields pair.1 row hrow)).isLine
    · obtain ⟨row, hrow, rfl⟩ := List.mem_map.1 hmethod
      have hwritable := h.methods pair.1 row hrow
      obtain ⟨arguments, result, hdesc⟩ := hwritable.desc
      rw [methodText_eq hdesc]
      exact (isMember_method hwritable.name hwritable.mapping hdesc).isLine

/-- Reading a written file gives what the store lists, with the mapped types computed anew. -/
theorem ofText_write (h : store.IsWritable) :
    Format.ofText .proGuard (Format.write .proGuard store) = .ok store.listed.completeDescriptors := by
  have htext : (Format.write .proGuard store).toList =
      ((store.classes.entries.flatMap (classTexts store)).map String.toList).flatMap (· ++ ['\n']) := by
    have hclasses : store.classes.entries.flatMap (fun pair => classLines store pair.1 pair.2) =
        store.classes.entries.flatMap fun pair => (classTexts store pair).map (· ++ "\n") :=
      List.flatMap_congr fun pair hpair => classLines_eq h hpair
    rw [Format.write, write, hclasses]
    simp [List.flatMap_assoc, List.flatMap_map, List.map_flatMap]
  have hline : ∀ line ∈ store.classes.entries.flatMap (classTexts store), IsLine line := by
    intro line hline
    obtain ⟨pair, hpair, hmem⟩ := List.mem_flatMap.1 hline
    exact isLine_of_mem_classTexts h hpair hmem
  have hlines : Text.lines '\n' '\r' (Format.write .proGuard store).toList =
      store.classes.entries.flatMap fun pair => (classTexts store pair).map String.toList := by
    rw [htext, ← List.map_flatMap]
    refine lines_flatMap (fun part hpart => ?_) fun part hpart => ?_
    · obtain ⟨line, hmem, rfl⟩ := List.mem_map.1 hpart
      exact (hline line hmem).feed
    · obtain ⟨line, hmem, rfl⟩ := List.mem_map.1 hpart
      exact (hline line hmem).last
  obtain ⟨next, hread⟩ := Format.readLines_flatMap (fun _ => True)
    (fun pair => (classTexts store pair).map String.toList)
    (fun (reader : Reader) pair =>
      { store := store.addListed reader.store pair, current := some pair.1 })
    (fun pair hpair reader _ => ⟨trivial, fun rest number =>
      readLines_classTexts h hpair reader rest number⟩)
    { store := .empty .reversing } trivial [] 1
  have hstore : (store.classes.entries.foldl (fun (reader : Reader) pair =>
      { store := store.addListed reader.store pair, current := some pair.1 : Reader })
        { store := .empty .reversing }).store = store.listed :=
    (List.foldl_hom Reader.store fun _ _ => rfl).symm
  rw [List.append_nil] at hread
  rw [Format.ofText, hlines, Format.ofLines]
  simp only [Format.direction, hread, Format.readLines, bind, Except.bind, pure, Except.pure, hstore]

end ProGuard
end JvmArchive.Mapping
