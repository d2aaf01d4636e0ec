import JvmArchive.Flow.Merge
import JvmArchive.Graph.Basic

/-!
# The class hierarchy of a graph

Common superclasses, read off the superclass names of the classes in a graph. A graph knows nothing of
classes outside it, so its answers about those are no more than a guess.
-/
namespace JvmArchive.ClassGraph

/-- The superclasses above a class, without those visited before and at most as many as there is room
for. -/
def superNamesFrom (graph : ClassGraph) (visited : List String) : Nat → String → List String
  | 0, _ => []
  | room + 1, name =>
    match (graph.get? name).bind (·.node.superName) with
    | none => []
    | some above =>
      if visited.contains above then []
      else above :: superNamesFrom graph (above :: visited) room above

/-- A class and its superclasses, up to the first that is not in the graph. -/
def superclassChain (graph : ClassGraph) (name : String) : List String :=
  name :: graph.superNamesFrom [name] graph.size name

/-- The nearest superclass of the second class that is one of the first class too. A class outside the
graph gives way to the first of the two, and an interface shares only the root. -/
def commonSuper (graph : ClassGraph) : Flow.CommonSuper := fun a b =>
  if a = b then a
  else
    match graph.get? a, graph.get? b with
    | some first, some second =>
      if first.access.isInterface || second.access.isInterface then Flow.rootClass
      else
        let chain := graph.superclassChain a
        ((graph.superclassChain b).find? chain.contains).getD Flow.rootClass
    | _, _ => a

end JvmArchive.ClassGraph
