import JvmArchive.Proofs.Graph.Links
import JvmArchive.Proofs.Rename.Kept

/-!
# Tables that rename nothing

A table that gives every name the name itself leaves every class of a resolved graph as it is, and so
does an empty one. Fields and methods share the keys of a flat table: a field may be called like a method
with its descriptor, and its row then answers for the method. What the classes mention therefore has to
be as class files usually have it.
-/
namespace JvmArchive

open Mapping.Store ClassGraph Mention

/-- The row of a flat table that gives a name to itself. -/
def Mention.identityRow? : Mention → Option (String × String)
  | ofClass name => some (name, name)
  | ofField owner name => some (fieldKey owner name, name)
  | ofMethod owner name desc => some (methodKey owner name desc, name)
  | ofElements _ => none

/-- Names under one key are one name. -/
theorem Mention.eq_of_identityRow? {a b : Mention} {key image other : String} (ha : a.IsPlain)
    (hb : b.IsPlain) (hrow : a.identityRow? = some (key, image))
    (hother : b.identityRow? = some (key, other)) : image = other := by
  cases a <;> cases b <;>
    simp only [identityRow?, Option.some.injEq, Prod.mk.injEq, reduceCtorEq] at hrow hother
  all_goals
    obtain ⟨rfl, rfl⟩ := hrow
    obtain ⟨hkey, rfl⟩ := hother
  case ofClass.ofClass => exact hkey.symm
  case ofField.ofField => exact (fieldKey_inj ha.1 hb.1 hkey.symm).2
  case ofMethod.ofMethod => exact (methodKey_inj ha.1 hb.1 ha.2.1 hb.2.1 ha.2.2 hb.2.2 hkey.symm).2.1
  case ofField.ofMethod => exact absurd hkey.symm (fieldKey_ne_methodKey ha.1 hb.1 ha.2 hb.2.2)
  case ofMethod.ofField => exact absurd hkey (fieldKey_ne_methodKey hb.1 ha.1 hb.2 ha.2.2)
  case ofClass.ofField => exact absurd (by simp [← hkey, toList_fieldKey]) ha
  case ofClass.ofMethod => exact absurd (by simp [← hkey, toList_methodKey]) ha
  case ofField.ofClass => exact absurd (by simp [hkey, toList_fieldKey]) hb
  case ofMethod.ofClass => exact absurd (by simp [hkey, toList_methodKey]) hb

namespace Renamer

/-- Whether all rows of a flat table give a name to itself. -/
def IsIdentity (table : Table String String) : Prop :=
  ∀ row ∈ table.entries, ∃ mention : Mention, mention.IsPlain ∧ mention.identityRow? = some row

variable {table : Table String String}

/-- The class and the members that an entry declares. -/
def declarations (entry : ClassEntry) : List Mention :=
  ofClass entry.name :: entry.fields.map (fun field => ofField entry.name field.name) ++
    entry.methods.map fun method => ofMethod entry.name method.name method.desc

/-- The rows that give every class and every member of a graph its own name. -/
def identityTable (graph : ClassGraph) : Table String String :=
  .ofList ((graph.toList.flatMap declarations).filterMap identityRow?)

/-- Names that are each given to themselves make a table of identities. -/
theorem isIdentity_ofList {mentions : List Mention} (h : AllPlain mentions) :
    IsIdentity (.ofList (mentions.filterMap identityRow?)) := by
  intro row hrow
  obtain ⟨mention, hmention, hname⟩ := List.mem_filterMap.1 (Table.mem_of_mem_ofList hrow)
  exact ⟨mention, h mention hmention, hname⟩

/-- A table of identities has no other name for anything. -/
theorem IsIdentity.eq_of_get? (h : IsIdentity table) {mention : Mention} {key name image : String}
    (hplain : mention.IsPlain) (hrow : mention.identityRow? = some (key, name))
    (himage : table.get? key = some image) : image = name := by
  obtain ⟨other, hother, hsame⟩ := h _ (Table.mem_entries_of_get? himage)
  exact Mention.eq_of_identityRow? hother hplain hsame hrow

variable {declared : ClassGraph}

/-- A class whose mentions are plain declares its methods under plain names. -/
theorem isPlain_of_mem_methods {entry : ClassEntry} (hplain : AllPlain entry.mentions)
    {method : MethodEntry} (hmethod : method ∈ entry.methods) :
    (ofMethod entry.name method.name method.desc).IsPlain := by
  simp only [ClassEntry.mentions, List.cons_append, allPlain_cons, allPlain_append] at hplain
  have hmentions := allPlain_flatMap.1 hplain.2.2 method hmethod
  exact hmentions _ List.mem_cons_self

/-- The renamer of a table of identities on a resolved graph keeps all names that are as class files have
them. -/
theorem IsIdentity.keepsPlain (h : IsIdentity table) (hkeys : ∀ key ∈ declared.names, '.' ∉ key.toList)
    (hplain : ∀ entry ∈ declared.resolve.toList, AllPlain entry.mentions) :
    KeepsPlain { graph := declared.resolve, table } := by
  have hnames : ∀ key ∈ declared.resolve.names, '.' ∉ key.toList := names_resolve declared ▸ hkeys
  refine
    { classes := fun name hname image himage =>
        h.eq_of_get? (show (ofClass name).IsPlain from hname) rfl himage
      fields := fun owner name hname image himage => h.eq_of_get? hname rfl himage
      methods := fun owner name desc hname image himage => h.eq_of_get? hname rfl himage
      keys := hnames
      bases := fun entry hentry method hmethod image himage => ?_
      elements := fun type name => getD_eq_self fun image himage => ?_ }
  · simp only [baseImage?, Option.bind_eq_bind, Option.mem_def, Option.bind_eq_some_iff] at himage
    obtain ⟨place, hbase, declaring, hdeclaring, base, hat, himage⟩ := himage
    obtain ⟨index, hindex⟩ := List.getElem?_of_mem hentry
    obtain ⟨found, hfound, hname, hdesc⟩ :=
      methodAt?_base (at?_eq_getElem? declared.resolve ⟨index⟩ ▸ hindex) hmethod hbase
    obtain rfl := Option.some.inj (hat.symm.trans hfound)
    obtain ⟨row, hrow, rfl⟩ := Option.map_eq_some_iff.1 hdeclaring
    have hplace : row.1 ∈ declared.resolve.names := List.mem_map_of_mem (List.mem_of_getElem? hrow)
    have hdeclared := isPlain_of_mem_methods (hplain entry hentry) hmethod
    have habove : (ofMethod row.1 method.name method.desc).IsPlain := ⟨hnames _ hplace, hdeclared.2⟩
    rw [hname, hdesc] at himage
    exact h.eq_of_get? habove rfl himage
  · simp only [Option.bind_eq_bind, Option.mem_def, Option.bind_eq_some_iff] at himage
    obtain ⟨entry, hentry, method, hmethod, himage⟩ := himage
    have hrow := Table.mem_entries_of_get? hentry
    have hdeclared := isPlain_of_mem_methods (hplain entry (List.mem_map_of_mem hrow))
      (List.mem_of_find?_eq_some hmethod)
    have hmatch := List.find?_some hmethod
    rw [Bool.and_eq_true, beq_iff_eq] at hmatch
    have htype : (ofMethod type method.name method.desc).IsPlain :=
      ⟨hnames _ (List.mem_map_of_mem hrow), hdeclared.2⟩
    rw [← hmatch.1] at himage ⊢
    exact h.eq_of_get? htype rfl himage

/-- A table of identities, and so an empty one, changes no class of a resolved graph. -/
theorem toNode_mapClass_of_isIdentity (h : IsIdentity table)
    (hkeys : ∀ key ∈ declared.names, '.' ∉ key.toList)
    (hplain : ∀ entry ∈ declared.resolve.toList, AllPlain entry.mentions) :
    ∀ entry ∈ declared.resolve.toList,
      (mapClass { graph := declared.resolve, table } entry).toNode = entry.toNode :=
  fun entry hentry => (h.keepsPlain hkeys hplain).toNode_mapClass hentry (hplain entry hentry)

/-- A class with a signature that is none, a field, an annotation, an override, a lambda and a call of a
method that it inherits, and the classes that it names. -/
def referringGraph : ClassGraph :=
  .ofList
    [.ofNode
      { access := 1, name := "p/A", superName := some "java/lang/Object"
        methods :=
          [{ access := 1, name := "run", desc := "()V" }, { access := 1, name := "go", desc := "()V" }] },
    .ofNode
      { access := 1, name := "p/A$B", superName := some "p/A", signature := some "Lp/A.B<[Tx"
        innerClasses := [{ name := "p/A$B", outerName := some "p/A", innerName := some "B", access := 1 }]
        visibleAnnotations :=
          [{ desc := "Lp/Mark;", values := [("on", .enum "Lp/A$B;" "x"), ("of", .class "Lp/A;")] }]
        fields := [{ access := 9, name := "x", desc := "[Lp/A$B;" }]
        methods :=
          [{ access := 1, name := "run", desc := "()V"
             instructions :=
               [.field Opcode.getstatic "p/A$B" "x" "[Lp/A$B;",
                .method Opcode.invokevirtual "p/A$B" "go" "()V" false,
                .invokeDynamic "run" "()Lp/A;"
                  { kind := 6, owner := lambdaFactory, name := "metafactory", desc := "()V"
                    interface := false }
                  [.methodType "()V"],
                .ldc (.class "[Lp/A;")] }] },
    .ofNode
      { access := 1, name := "p/Mark", superName := some "java/lang/Object"
        methods := [{ access := 1, name := "on", desc := "()Lp/A$B;" }] }]

/-- All of this is kept by the table of the graph. -/
theorem toNode_mapClass_of_isIdentity_referring :
    IsIdentity (identityTable referringGraph.resolve) ∧
      (∀ key ∈ referringGraph.names, '.' ∉ key.toList) ∧
      (∀ entry ∈ referringGraph.resolve.toList, AllPlain entry.mentions) ∧
      ∀ entry ∈ referringGraph.resolve.toList,
        (mapClass { graph := referringGraph.resolve, table := identityTable referringGraph.resolve }
          entry).toNode = entry.toNode := by
  have hidentity : IsIdentity (identityTable referringGraph.resolve) :=
    isIdentity_ofList (by decide +kernel)
  have hkeys : ∀ key ∈ referringGraph.names, '.' ∉ key.toList := by decide +kernel
  have hplain : ∀ entry ∈ referringGraph.resolve.toList, AllPlain entry.mentions := by decide +kernel
  exact ⟨hidentity, hkeys, hplain, toNode_mapClass_of_isIdentity hidentity hkeys hplain⟩

/-- A class that calls a method of the class above it and has a field that is called like the method with
its descriptor. -/
def misreadGraph : ClassGraph :=
  .ofList
    [.ofNode
      { access := 1, name := "p/S", superName := some "java/lang/Object"
        methods :=
          [{ access := 9, name := "m", desc := "()V", instructions := [.simple Opcode.returnVoid] }] },
    .ofNode
      { access := 1, name := "p/A", superName := some "p/S"
        fields := [{ access := 9, name := "m()V", desc := "I" }]
        methods :=
          [{ access := 9, name := "run", desc := "()V"
             instructions :=
               [.method Opcode.invokestatic "p/A" "m" "()V" false, .simple Opcode.returnVoid] }] }]

/-- The table of the graph gives every class and every member its own name and says nothing else, but the
call gets the name of the field. -/
theorem not_toNode_mapClass_misread :
    let graph := misreadGraph.resolve
    let declared := graph.toList.flatMap declarations
    let renamer : Renamer := { graph, table := identityTable graph }
    (∀ key ∈ graph.names, '.' ∉ key.toList) ∧ renamer.table.length = declared.length ∧
      (∀ mention ∈ declared, ∀ row ∈ mention.identityRow?, renamer.table.get? row.1 = some row.2) ∧
      (graph.toList.flatMap fun entry => entry.toNode.methods.map (·.instructions)) =
        [[.simple Opcode.returnVoid],
          [.method Opcode.invokestatic "p/A" "m" "()V" false, .simple Opcode.returnVoid]] ∧
      (graph.toList.flatMap fun entry =>
          (renamer.mapClass entry).toNode.methods.map (·.instructions)) =
        [[.simple Opcode.returnVoid],
          [.method Opcode.invokestatic "p/A" "m()V" "()V" false, .simple Opcode.returnVoid]] := by
  decide +kernel

end Renamer
end JvmArchive
