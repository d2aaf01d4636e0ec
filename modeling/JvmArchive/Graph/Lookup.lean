import JvmArchive.Graph.Basic

/-!
# Members seen from a class

Which field an instruction reaches and which method a call names, both searched for in the class itself
and then above it.
-/
namespace JvmArchive.ClassGraph

/-- Whether an instruction may use a field: reading and writing a static field each have their own
instruction, as have reading and writing a field of an object, and a final field is not written. -/
def suits (opcode : Opcode) (field : FieldEntry) : Bool :=
  if opcode = Opcode.getstatic then field.access.isStatic
  else if opcode = Opcode.putstatic then field.access.isStatic && !field.access.isFinal
  else if opcode = Opcode.getfield then !field.access.isStatic
  else if opcode = Opcode.putfield then !field.access.isStatic && !field.access.isFinal
  else false

/-- The index of the first field of a class with a name and a descriptor that suits an instruction. -/
def ownField? (entry : ClassEntry) (opcode : Opcode) (name desc : String) : Option Nat :=
  entry.fields.findIdx? fun field =>
    field.name == name && field.desc == desc && suits opcode field

/-- Searches the pending classes and all above them, the superclass before the interfaces and no class
twice. -/
def searchField (entries : List ClassEntry) (opcode : Opcode) (name desc : String)
    (visited : List ClassId) : List ClassId → Option (ClassId × Nat)
  | [] => none
  | id :: pending =>
    if _hv : visited.contains id then searchField entries opcode name desc visited pending
    else
      match _he : entries[id.index]? with
      | none => searchField entries opcode name desc visited pending
      | some entry =>
        match ownField? entry opcode name desc with
        | some index => some (id, index)
        | none =>
          searchField entries opcode name desc (id :: visited)
            (entry.superclass.toList ++ entry.interfaces ++ pending)
termination_by pending => (unvisited entries.length visited, pending.length)
decreasing_by
  · exact Prod.Lex.right _ (by simp)
  · exact Prod.Lex.right _ (by simp)
  · exact Prod.Lex.left _ _
      (unvisited_cons_lt (List.getElem?_eq_some_iff.1 _he).1 (by simpa using _hv))

/-- The field that an instruction on a class reaches: the class that declares it and the index there. -/
def findField (graph : ClassGraph) (id : ClassId) (opcode : Opcode) (name desc : String) :
    Option (ClassId × Nat) :=
  searchField graph.toList opcode name desc [] [id]

/-- The ancestors of a class that are in the graph, each with its entry. -/
def ancestorEntries (graph : ClassGraph) (id : ClassId) : List (ClassId × ClassEntry) :=
  match graph.at? id with
  | some entry => entry.ancestors.filterMap fun above => (graph.at? above).map fun e => (above, e)
  | none => []

/-- The method that a name and a descriptor mean in a class: its own one, else that of the first
ancestor with one. -/
def findMethod (graph : ClassGraph) (id : ClassId) (name desc : String) : Option (ClassId × Nat) :=
  (graph.at? id).bind fun entry =>
    ((id, entry) :: graph.ancestorEntries id).findSome? fun (owner, declaring) =>
      (declaring.methodIndex? name desc).map fun index => (owner, index)

/-- The method at an index of a class. -/
def methodAt? (graph : ClassGraph) (place : ClassId × Nat) : Option MethodEntry :=
  (graph.at? place.1).bind (·.methods[place.2]?)

/-- The field at an index of a class. -/
def fieldAt? (graph : ClassGraph) (place : ClassId × Nat) : Option FieldEntry :=
  (graph.at? place.1).bind (·.fields[place.2]?)

/-- Whether two places hold the same method, or both none. -/
def sameMethodAt (graph : ClassGraph) (a b : ClassId × Nat) : Bool :=
  match graph.methodAt? a, graph.methodAt? b with
  | some x, some y => x.same y
  | none, none => true
  | _, _ => false

/-- Whether two places hold the same field, or both none. -/
def sameFieldAt (graph : ClassGraph) (a b : ClassId × Nat) : Bool :=
  match graph.fieldAt? a, graph.fieldAt? b with
  | some x, some y => x.same y
  | none, none => true
  | _, _ => false

end JvmArchive.ClassGraph
