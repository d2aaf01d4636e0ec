import JvmArchive.Proofs.Graph.Superclasses
import Mathlib.Data.List.Chain

/-!
# Nearest common superclasses

A class has at most one superclass, so a superclass chain is the only list that leads from its class
upwards. In a graph whose superclass names form no cycle it ends only where no superclass is known, and the
first name of one chain that another one has too is the lowest they share, whichever of the two is
searched.
-/
namespace JvmArchive.ClassGraph

/-- Whether superclass names never lead from a name back to it. -/
def Acyclic (graph : ClassGraph) : Prop := ∀ name, ¬Relation.TransGen graph.IsBelow name name

/-- Whether a list leads from a class upwards to a name whose superclass is not known: the first that is
outside the graph, or that of a class without a superclass. -/
structure IsFullChain (graph : ClassGraph) (name : String) (chain : List String) : Prop where
  head : chain.head? = some name
  linked : chain.IsChain graph.IsBelow
  full : ∀ last ∈ chain.getLast?, graph.superName? last = none

/-- Whether a name is on both of two superclass chains. -/
def IsShared (graph : ClassGraph) (a b name : String) : Prop :=
  name ∈ graph.superclassChain a ∧ name ∈ graph.superclassChain b

/-- Whether a name is shared, and all that is shared is on the chain from it upwards. -/
def IsLowestShared (graph : ClassGraph) (a b name : String) : Prop :=
  graph.IsShared a b name ∧
    ∀ other, graph.IsShared a b other → other ∈ graph.superclassChain name

variable {graph : ClassGraph}

/-! ## Acyclic graphs -/

/-- No two names of an acyclic graph are above each other. -/
theorem Acyclic.eq_of_reaches (h : graph.Acyclic) {x y : String} (hup : graph.Reaches x y)
    (hback : graph.Reaches y x) : x = y := by
  rcases Relation.reflTransGen_iff_eq_or_transGen.1 hup with heq | hstrict
  · exact heq.symm
  · exact absurd (hstrict.trans_left hback) (h x)

theorem acyclic_iff : graph.Acyclic ↔
    ∀ name ∈ graph.names, ((graph.superName? name).all fun above =>
      !(graph.superclassChain above).contains name) = true := by
  simp only [Option.all_eq_true, Bool.not_eq_true', List.contains_eq_mem, decide_eq_false_iff_not,
    mem_superclassChain_iff]
  constructor
  · intro h name _ above habove hback
    exact h name (.head' habove hback)
  · intro h name hloop
    obtain ⟨above, habove, hback⟩ := Relation.TransGen.head'_iff.1 hloop
    exact h name (mem_names_of_superName? habove) above habove hback

instance (graph : ClassGraph) : Decidable graph.Acyclic := decidable_of_iff' _ acyclic_iff

/-! ## Full chains -/

/-- A chain goes from each name to that of its superclass. -/
theorem isChain_superNamesFrom (graph : ClassGraph) (visited : List String) (room : Nat)
    (name : String) : (name :: graph.superNamesFrom visited room name).IsChain graph.IsBelow := by
  induction room generalizing visited name with
  | zero => exact .singleton name
  | succ room ih =>
    rw [superNamesFrom_succ]
    cases hsuper : graph.superName? name with
    | none => exact .singleton name
    | some above =>
      dsimp only
      split
      · exact .singleton name
      · exact .cons_cons hsuper (ih _ _)

/-- What comes after a name in a chain is above it. -/
theorem pairwise_superclassChain (graph : ClassGraph) (name : String) :
    (graph.superclassChain name).Pairwise graph.Reaches :=
  have : IsTrans String graph.Reaches := ⟨fun _ _ _ => Relation.ReflTransGen.trans⟩
  ((graph.isChain_superNamesFrom [name] graph.size name).imp fun _ _ => .single).pairwise

/-- With room for all names, more room changes nothing. -/
theorem superNamesFrom_of_le {visited : List String} {room more : Nat} {name : String}
    (hroom : graph.HasRoom visited room name) (hle : room ≤ more) :
    graph.superNamesFrom visited more name = graph.superNamesFrom visited room name := by
  induction room generalizing visited more name with
  | zero =>
    have hnone := hroom.resolve_left (Nat.not_lt_zero _)
    cases more with
    | zero => rfl
    | succ more => rw [superNamesFrom_succ, hnone]; rfl
  | succ room ih =>
    obtain ⟨more, rfl⟩ : ∃ fewer, more = fewer + 1 := ⟨more - 1, by omega⟩
    rw [superNamesFrom_succ, superNamesFrom_succ]
    cases hsuper : graph.superName? name with
    | none => rfl
    | some above =>
      dsimp only
      by_cases hvisited : visited.contains above
      · rw [if_pos hvisited, if_pos hvisited]
      · rw [if_neg hvisited, if_neg hvisited,
          ih (hroom.next hsuper (by simpa using hvisited)) (by omega)]

/-- In an acyclic graph the superclass chain of a class ends only where no superclass is known. -/
theorem Acyclic.isFullChain (h : graph.Acyclic) (name : String) :
    graph.IsFullChain name (graph.superclassChain name) where
  head := rfl
  linked := graph.isChain_superNamesFrom _ _ _
  full last hlast := by
    obtain ⟨before, hsplit⟩ := List.getLast?_eq_some_iff.1 hlast
    cases hsuper : graph.superName? last with
    | none => rfl
    | some above =>
      have hreaches : graph.Reaches name last := by
        rw [← mem_superclassChain_iff, hsplit]
        exact List.mem_concat_self
      -- the next name would be on the chain, so below its last one
      have hmem : above ∈ before ++ [last] := by
        rw [← hsplit, mem_superclassChain_iff]
        exact hreaches.tail hsuper
      have hback : graph.Reaches above last := by
        have hpairs := graph.pairwise_superclassChain name
        rw [hsplit, List.pairwise_append] at hpairs
        rcases List.mem_append.1 hmem with hbefore | hself
        · exact hpairs.2.2 above hbefore last (List.mem_singleton_self _)
        · rw [List.mem_singleton.1 hself]
          exact .refl
      exact absurd (.head' hsuper hback) (h last)

theorem IsFullChain.tail {first next : String} {rest : List String}
    (h : graph.IsFullChain first (first :: next :: rest)) : graph.IsFullChain next (next :: rest) :=
  ⟨rfl, h.linked.tail, h.full⟩

/-- There is only one full chain above a class. -/
theorem IsFullChain.unique {name : String} {chain other : List String}
    (h : graph.IsFullChain name chain) (hother : graph.IsFullChain name other) : chain = other := by
  induction chain generalizing name other with
  | nil => cases h.head
  | cons first rest ih =>
    obtain rfl : first = name := by simpa using h.head
    obtain ⟨rest', rfl⟩ := List.head?_eq_some_iff.1 hother.head
    -- only one of the two chains cannot go on
    cases rest with
    | nil =>
      cases rest' with
      | nil => rfl
      | cons next' _ =>
        have hnext' : graph.superName? first = some next' := hother.linked.rel
        rw [h.full first rfl] at hnext'
        cases hnext'
    | cons next tail =>
      have hnext : graph.superName? first = some next := h.linked.rel
      cases rest' with
      | nil =>
        rw [hother.full first rfl] at hnext
        cases hnext
      | cons next' tail' =>
        have hnext' : graph.superName? first = some next' := hother.linked.rel
        obtain rfl : next = next' := by simpa [hnext] using hnext'
        exact congrArg (first :: ·) (ih h.tail hother.tail)

/-! ## The lowest shared name -/

theorem IsShared.symm {a b name : String} (h : graph.IsShared a b name) : graph.IsShared b a name :=
  And.symm h

/-- What the search finds comes before everything else that is shared, so all of that is above it. -/
theorem isLowestShared_of_find? {a b name : String}
    (h : (graph.superclassChain b).find? (graph.superclassChain a).contains = some name) :
    graph.IsLowestShared a b name := by
  obtain ⟨hshared, before, after, hsplit, hbefore⟩ := List.find?_eq_some_iff_append.1 h
  refine ⟨⟨by simpa using hshared, List.mem_of_find?_eq_some h⟩, fun other hother => ?_⟩
  have hpairs := graph.pairwise_superclassChain b
  rw [hsplit] at hpairs
  have hrest : other ∈ name :: after := by
    refine (List.mem_append.1 (hsplit ▸ hother.2)).resolve_left fun hmem => ?_
    simpa [hother.1] using hbefore other hmem
  rw [mem_superclassChain_iff]
  rcases List.mem_cons.1 hrest with rfl | hafter
  · exact .refl
  · exact List.rel_of_pairwise_cons (List.pairwise_append.1 hpairs).2.1 hafter

theorem commonSuper_of_isShared {a b shared : String} (hne : a ≠ b) (ha : graph.hasClass a = true)
    (hb : graph.hasClass b = true) (h : graph.IsShared a b shared) :
    graph.IsLowestShared a b (graph.commonSuper a b) := by
  rw [commonSuper_eq hne ha hb]
  cases hfound : (graph.superclassChain b).find? (graph.superclassChain a).contains with
  | none => exact absurd (List.contains_iff_mem.2 h.1) (List.find?_eq_none.1 hfound shared h.2)
  | some name => exact isLowestShared_of_find? hfound

theorem commonSuper_of_not_isShared {a b : String} (hne : a ≠ b) (ha : graph.hasClass a = true)
    (hb : graph.hasClass b = true) (h : ¬∃ name, graph.IsShared a b name) :
    graph.commonSuper a b = Flow.rootClass := by
  rw [commonSuper_eq hne ha hb, List.find?_eq_none.2, Option.getD_none]
  exact fun name hmem hcontains => h ⟨name, List.contains_iff_mem.1 hcontains, hmem⟩

/-- There is only one lowest shared name in an acyclic graph. -/
theorem Acyclic.eq_of_isLowestShared (h : graph.Acyclic) {a b x y : String}
    (hx : graph.IsLowestShared a b x) (hy : graph.IsLowestShared b a y) : x = y :=
  h.eq_of_reaches (mem_superclassChain_iff.1 (hx.2 y hy.1.symm))
    (mem_superclassChain_iff.1 (hy.2 x hx.1.symm))

/-- A superclass chain never lacks room. In an acyclic graph it is the full chain of its class, and the
common superclass of two different classes, in either order, is the lowest name that both chains share, or
the root if they share none. -/
theorem commonSuper_lowest (graph : ClassGraph) :
    (∀ name room, graph.size ≤ room →
      name :: graph.superNamesFrom [name] room name = graph.superclassChain name) ∧
    (graph.Acyclic →
      (∀ name chain, graph.IsFullChain name chain ↔ chain = graph.superclassChain name) ∧
      ∀ a b, a ≠ b → graph.hasClass a = true → graph.hasClass b = true →
        graph.commonSuper a b = graph.commonSuper b a ∧
        ((∃ name, graph.IsShared a b name) →
          graph.IsLowestShared a b (graph.commonSuper a b)) ∧
        ((¬∃ name, graph.IsShared a b name) → graph.commonSuper a b = Flow.rootClass)) := by
  refine ⟨fun name room hle => ?_, fun h => ⟨fun name chain => ⟨fun hfull => ?_, ?_⟩, ?_⟩⟩
  · rw [superNamesFrom_of_le (graph.hasRoom_size name) hle, superclassChain]
  · exact hfull.unique (h.isFullChain name)
  · rintro rfl
    exact h.isFullChain name
  · intro a b hne ha hb
    refine ⟨?_, fun ⟨_, hshared⟩ => commonSuper_of_isShared hne ha hb hshared,
      commonSuper_of_not_isShared hne ha hb⟩
    by_cases hshared : ∃ name, graph.IsShared a b name
    · obtain ⟨name, hname⟩ := hshared
      exact h.eq_of_isLowestShared (commonSuper_of_isShared hne ha hb hname)
        (commonSuper_of_isShared hne.symm hb ha hname.symm)
    · rw [commonSuper_of_not_isShared hne ha hb hshared,
        commonSuper_of_not_isShared hne.symm hb ha fun ⟨name, hname⟩ => hshared ⟨name, hname.symm⟩]

/-- Four classes, all below one outside the graph. -/
def branchedGraph : ClassGraph :=
  .ofList
    [.ofNode { access := 1, name := "p/Base", superName := some "java/lang/Exception" },
    .ofNode { access := 1, name := "p/Left", superName := some "p/Base" },
    .ofNode { access := 1, name := "p/Right", superName := some "p/Base" },
    .ofNode { access := 1, name := "p/Deep", superName := some "p/Left" }]

/-- The classes on two branches share what is above the fork. -/
theorem commonSuper_branchedGraph :
    branchedGraph.Acyclic ∧ "p/Deep" ≠ "p/Right" ∧ branchedGraph.hasClass "p/Deep" = true ∧
      branchedGraph.hasClass "p/Right" = true ∧
      branchedGraph.commonSuper "p/Deep" "p/Right" = "p/Base" ∧
      branchedGraph.commonSuper "p/Right" "p/Deep" = "p/Base" ∧
      branchedGraph.IsLowestShared "p/Deep" "p/Right" "p/Base" ∧
      branchedGraph.IsFullChain "p/Deep" ["p/Deep", "p/Left", "p/Base", "java/lang/Exception"] ∧
      branchedGraph.superNamesFrom ["p/Deep"] 9 "p/Deep" =
        ["p/Left", "p/Base", "java/lang/Exception"] := by
  have hacyclic : branchedGraph.Acyclic := by decide +kernel
  have hdeep : branchedGraph.hasClass "p/Deep" = true := by decide +kernel
  have hright : branchedGraph.hasClass "p/Right" = true := by decide +kernel
  have hne : "p/Deep" ≠ "p/Right" := by decide
  have hcommon : branchedGraph.commonSuper "p/Deep" "p/Right" = "p/Base" := by decide +kernel
  have hchain : branchedGraph.superclassChain "p/Deep" =
      ["p/Deep", "p/Left", "p/Base", "java/lang/Exception"] := by decide +kernel
  have hshared : branchedGraph.IsShared "p/Deep" "p/Right" "p/Base" := by
    constructor <;> decide +kernel
  obtain ⟨hroom, hall⟩ := branchedGraph.commonSuper_lowest
  obtain ⟨hfull, hlowest⟩ := hall hacyclic
  obtain ⟨hsymm, hfound, -⟩ := hlowest _ _ hne hdeep hright
  have hmore := hroom "p/Deep" 9 (by decide +kernel)
  refine ⟨hacyclic, hne, hdeep, hright, hcommon, hsymm ▸ hcommon, ?_, ?_, ?_⟩
  · exact hcommon ▸ hfound ⟨_, hshared⟩
  · exact (hfull _ _).2 hchain.symm
  · rw [hchain] at hmore
    exact (List.cons.inj hmore).2

end JvmArchive.ClassGraph
