import JvmArchive.Proofs.Mapping.Described
import JvmArchive.Proofs.Mapping.Drawn

/-!
# Steps of generating

Generating adds one mapping after the other. A class gets a drawn name, alone or behind the name of its
outer class, and a member gets a drawn name or that of a row which the store has already. What every such
step keeps, a generated store has.
-/
namespace JvmArchive.Mapping

open ClassGraph Store

variable {σ : Type} (source : NameSource σ) {reserved : List String} {graph : ClassGraph}

/-- One mapping added to a store for a graph. -/
inductive Adds (graph : ClassGraph) : Store → Store → Prop
  | newClass {store : Store} {entry : ClassEntry} {short mapping : String} (mem : entry ∈ graph.toList)
    (drawn : Drawn source .classes short)
    (made : mapping = short ∨
      ∃ outer ∈ graph.names, mapping = store.mappedName outer ++ "$" ++ short) :
    Adds graph store (store.mapClass entry.name mapping)
  | newField {store : Store} {className : String} {row : FieldMapping}
    (named : Drawn source .fields row.mapping ∨
      ∃ owner, ∃ other ∈ store.classFields owner, other.mapping = row.mapping) :
    Adds graph store (store.mapField className row)
  | newMethod {store : Store} {className : String} {row : MethodMapping}
    (named : Drawn source .methods row.mapping ∨
      ∃ owner, ∃ other ∈ store.classMethods owner, other.mapping = row.mapping) :
    Adds graph store (store.mapMethod className row)

section
variable {P : Store → Prop}
  (hstep : ∀ {store next : Store}, store.implied = [] → Adds source graph store next → P store →
    P next)
include hstep

theorem induction_mapDeclarations {state : Store × σ} {entry : ClassEntry}
    (hentry : entry ∈ graph.toList) (himplied : state.1.implied = []) (h : P state.1) :
    P (mapDeclarations source reserved graph state entry).1 := by
  let Q := fun after : Store × σ => after.1.implied = [] ∧ P after.1
  have hclass : Q (mapClassName source graph entry state) := by
    unfold mapClassName
    dsimp only
    split
    · exact ⟨himplied, h⟩
    · refine ⟨?_, hstep himplied (.newClass hentry ⟨state.2, rfl⟩ ?_) h⟩
      · dsimp only
        rw [mapClass_eq himplied]
        split
        · exact himplied
        · exact himplied
      · split
        · rename_i outer houter
          obtain ⟨id, -, hname⟩ := Option.bind_eq_some_iff.1 houter
          obtain ⟨pair, hpair, rfl⟩ := Option.map_eq_some_iff.1 hname
          exact .inr ⟨pair.1, List.mem_map_of_mem (List.mem_of_getElem? hpair), rfl⟩
        · exact .inl rfl
  unfold mapDeclarations
  dsimp only
  refine (List.foldlRecOn entry.methods _ (motive := Q) ?_ fun after hafter method _ => ?_).2
  · split
    · exact hclass
    · refine List.foldlRecOn entry.fields _ (motive := Q) hclass fun after hafter field _ => ?_
      refine ⟨?_, hstep hafter.1 (.newField (.inl ⟨after.2, rfl⟩)) hafter.2⟩
      unfold mapDeclaredField
      dsimp only
      rw [mapField_eq_with]
      exact hafter.1
  · unfold mapDeclaredMethod
    split
    · exact hafter
    · refine ⟨?_, hstep hafter.1 (.newMethod (.inl ⟨after.2, rfl⟩)) hafter.2⟩
      dsimp only
      rw [mapMethod_eq_with]
      exact hafter.1

/-- What every step keeps, generating keeps. -/
theorem generated_induction (hstart : P (.empty .applying))
    (hcomplete : ∀ {store : Store}, P store → P store.completeDescriptors) (names : σ) :
    P (generated source reserved graph names) := by
  let Q := fun store : Store => Describes (fun _ => True) graph store ∧ P store
  have hdeclared : Describes (IsNamed reserved) graph (declareAll source reserved graph names).1 ∧
      P (declareAll source reserved graph names).1 :=
    List.foldlRecOn (classOrder graph) _
      (motive := fun state : Store × σ => Describes (IsNamed reserved) graph state.1 ∧ P state.1)
      ⟨.empty, hstart⟩ fun state hstate place hplace =>
        have hmem := mem_of_mem_enumerate (mem_of_mem_classOrder hplace)
        ⟨describes_mapDeclarations source hstate.1 hmem,
          induction_mapDeclarations source hstep hmem hstate.1.implied hstate.2⟩
  have hoverrides : Q (overrideAll source reserved graph names) := by
    refine List.foldlRecOn graph.toList _ (motive := Q)
      ⟨hdeclared.1.mono fun _ _ => trivial, hdeclared.2⟩ fun store hstore entry hentry => ?_
    refine mapOverrides_induction (P := Q) hstore fun store hstore method hmethod owner row hrow => ?_
    exact ⟨hstore.1.mapMethod hentry hmethod trivial rfl rfl,
      hstep hstore.1.implied (.newMethod (.inr ⟨owner, row, hrow, rfl⟩)) hstore.2⟩
  have hinherited : Q (inheritAll source reserved graph names) := by
    refine List.foldlRecOn graph.enumerate _ (motive := Q) hoverrides fun store hstore place hplace => ?_
    refine mapInheritedFields_induction (P := Q) hstore fun store hstore owner row hrow => ?_
    obtain ⟨-, declaring, hdeclaring, declared, hfield, hname, hdesc⟩ := hstore.1.fields owner row hrow
    exact ⟨hstore.1.mapField (mem_of_mem_enumerate hplace) hdeclaring hfield hname hdesc,
      hstep hstore.1.implied (.newField (.inr ⟨owner, row, hrow, rfl⟩)) hstore.2⟩
  exact hcomplete hinherited.2

end

end JvmArchive.Mapping
