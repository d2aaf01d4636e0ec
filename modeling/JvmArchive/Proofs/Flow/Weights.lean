import JvmArchive.Proofs.Flow.Absorption
import Mathlib.Algebra.Ring.Nat

/-!
# Weights of states

How much a state can still change. Over a hierarchy whose answers climb, merging never makes a type
heavier, and makes it lighter if it changes it: null gives way to objects, a class to one of smaller rank
or to an array, an array of classes to one whose elements have a smaller rank, and everything to the root
or to the unknown type. A local variable that there is not yet weighs one.
-/
namespace JvmArchive.Flow

/-- Whether the answers of a hierarchy climb: an answer other than the first class has a smaller rank than
that class, and nothing is above the root. -/
structure Climbs (common : CommonSuper) (rank : String → Nat) (height : Nat) : Prop where
  bounded : ∀ name, rank name ≤ height
  root : ∀ name, common rootClass name = rootClass
  climbs : ∀ a b, common a b ≠ a → rank (common a b) < rank a

/-! ## Names -/

/-- The class of the elements of an array. -/
def elementClass? (name : String) : Option String :=
  Descriptor.objectName? (String.ofList (splitDimensions name.toList).2)

theorem isArray_iff {name : String} : isArray name = true ↔ 0 < (splitDimensions name.toList).1 := by
  rw [isArray, String.startsWith_string_iff, splitDimensions]
  cases name.toList with
  | nil => simp
  | cons c rest =>
    by_cases hc : c = '['
    · simp [hc]
    · simp [hc, Ne.symm hc]

theorem not_isArray_rootClass : isArray rootClass = false := by
  rw [Bool.eq_false_iff, Ne, isArray_iff, splitDimensions_rootClass]
  exact Nat.lt_irrefl 0

/-- The array of so many dimensions whose elements are of a class. -/
def classArray (dimensions : Nat) (name : String) : String :=
  String.ofList (List.replicate dimensions '[') ++ "L" ++ name ++ ";"

theorem splitDimensions_classArray (dimensions : Nat) (name : String) :
    splitDimensions (classArray dimensions name).toList =
      (dimensions, 'L' :: name.toList ++ [';']) := by
  have hlist : (classArray dimensions name).toList =
      List.replicate dimensions '[' ++ 'L' :: (name.toList ++ [';']) := by
    simp [classArray]
  rw [hlist, splitDimensions, List.takeWhile_append_of_pos (by simp),
    List.dropWhile_append_of_pos (by simp)]
  simp

theorem elementClass?_classArray (dimensions : Nat) (name : String) :
    elementClass? (classArray dimensions name) = some name := by
  rw [elementClass?, splitDimensions_classArray, Descriptor.objectName?_wrapped, String.ofList_toList]

theorem isArray_classArray {dimensions : Nat} (h : 0 < dimensions) (name : String) :
    isArray (classArray dimensions name) = true := by
  rw [isArray_iff, splitDimensions_classArray]
  exact h

theorem classArray_inj {dimensions : Nat} {x y : String}
    (h : classArray dimensions x = classArray dimensions y) : x = y := by
  have helement := elementClass?_classArray dimensions x
  rw [h, elementClass?_classArray, Option.some.injEq] at helement
  exact helement.symm

theorem mergeArrays_classArray (common : CommonSuper) {dimensions : Nat} (h : 0 < dimensions)
    (x y : String) :
    mergeArrays common (classArray dimensions x) (classArray dimensions y) =
      classArray dimensions (common x y) := by
  rw [mergeArrays, splitDimensions_classArray, splitDimensions_classArray]
  dsimp only
  rw [if_pos ⟨rfl, h⟩, Descriptor.objectName?_wrapped, Descriptor.objectName?_wrapped,
    String.ofList_toList, String.ofList_toList]
  rfl

/-- Where one name is that of an array, names meet in the root, or arrays of classes in an array. -/
theorem mergeArrays_eq (common : CommonSuper) (x y : String) :
    mergeArrays common x y = rootClass ∨
      ∃ dimensions a b, 0 < dimensions ∧ x = classArray dimensions a ∧ y = classArray dimensions b ∧
        mergeArrays common x y = classArray dimensions (common a b) := by
  have harray : ∀ {z c : String}, elementClass? z = some c →
      z = classArray (splitDimensions z.toList).1 c := by
    intro z c hc
    refine eq_of_elements ?_ hc ?_
    · rw [splitDimensions_classArray]
    · exact elementClass?_classArray _ _
  unfold mergeArrays
  dsimp only
  split
  · rename_i hdimensions
    split
    · rename_i a b ha hb
      exact .inr ⟨_, a, b, hdimensions.2, harray ha, hdimensions.1 ▸ harray hb, rfl⟩
    · exact .inl rfl
  · exact .inl rfl

section
variable (rank : String → Nat) (height : Nat)

/-- How far a name is from the root: arrays of classes are lighter than classes. -/
def nameWeight (name : String) : Nat :=
  if name = rootClass then 0
  else if isArray name then ((elementClass? name).map rank).getD 0 + 1
  else rank name + height + 2

variable {rank height} {common : CommonSuper} (h : Climbs common rank height)
include h

theorem nameWeight_le (name : String) : nameWeight rank height name ≤ 2 * height + 2 := by
  have hname := h.bounded name
  have helement : ((elementClass? name).map rank).getD 0 ≤ height := by
    cases elementClass? name with
    | none => exact Nat.zero_le _
    | some element => exact h.bounded element
  unfold nameWeight
  split
  · exact Nat.zero_le _
  · split <;> omega

/-- A name that changes in a merge becomes lighter. -/
theorem nameWeight_mergeNames {x y : String} (hne : mergeNames common x y ≠ x) :
    nameWeight rank height (mergeNames common x y) < nameWeight rank height x := by
  by_cases hroot : mergeNames common x y = rootClass
  · have hx : x ≠ rootClass := fun hx => hne (hroot.trans hx.symm)
    rw [hroot, nameWeight, if_pos rfl, nameWeight, if_neg hx]
    split <;> omega
  · unfold mergeNames at hne hroot ⊢
    split at hne
    · rename_i hsome
      rw [if_pos hsome] at hroot ⊢
      rcases mergeArrays_eq common x y with hmerged | ⟨dimensions, a, b, hpos, rfl, -, hmerged⟩
      · exact absurd hmerged hroot
      · have hclimbs : rank (common a b) < rank a := by
          refine h.climbs a b fun hsame => hne ?_
          rw [hmerged, hsame]
        have hx : classArray dimensions a ≠ rootClass := by
          intro hx
          have harray := isArray_classArray hpos a
          rw [hx, not_isArray_rootClass] at harray
          cases harray
        rw [hmerged] at hroot ⊢
        rw [nameWeight, if_neg hroot, nameWeight, if_neg hx, isArray_classArray hpos,
          isArray_classArray hpos, elementClass?_classArray, elementClass?_classArray]
        simpa using hclimbs
    · rename_i hnone
      rw [if_neg hnone] at hroot ⊢
      rw [Bool.or_eq_true, not_or] at hnone
      have hx : x ≠ rootClass := by
        rintro rfl
        exact hne (h.root y)
      have hclimbs := h.climbs x y hne
      have hbound : ((elementClass? (common x y)).map rank).getD 0 ≤ height := by
        cases elementClass? (common x y) with
        | none => exact Nat.zero_le _
        | some element => exact h.bounded element
      rw [nameWeight, if_neg hroot, nameWeight, if_neg hx, if_neg hnone.1]
      split <;> omega

end

/-! ## Types -/

section
variable (rank : String → Nat) (height : Nat)

/-- How far a type is from the unknown one. -/
def typeWeight : VerificationType → Nat
  | .top => 0
  | .null => 2 * height + 4
  | .object name => nameWeight rank height name + 1
  | _ => 1

variable {rank height} {common : CommonSuper} (h : Climbs common rank height)
include h

/-- A type that changes in a merge becomes lighter. -/
theorem typeWeight_mergeType {a b : VerificationType} (hne : mergeType common a b ≠ a) :
    typeWeight rank height (mergeType common a b) < typeWeight rank height a := by
  by_cases hab : a = b
  · rw [hab, mergeType_self] at hne
    exact absurd rfl hne
  · cases a <;> cases b
    case object.object x y =>
      have hxy : x ≠ y := fun hxy => hab (hxy ▸ rfl)
      rw [mergeType_object hxy] at hne ⊢
      exact Nat.succ_lt_succ (nameWeight_mergeNames h fun hsame => hne (congrArg _ hsame))
    case null.object y =>
      have hy := nameWeight_le h y
      rw [show mergeType common .null (.object y) = .object y from if_neg hab, typeWeight, typeWeight]
      omega
    all_goals simp_all [mergeType, typeWeight]

end

/-! ## States -/

section
variable (rank : String → Nat) (height : Nat)

def slotsWeight (slots : List VerificationType) : Nat := (slots.map (typeWeight rank height)).sum

/-- The weight of a state of which there are at most so many local variables. -/
def stateWeight (limit : Nat) (state : State) : Nat :=
  slotsWeight rank height state.stack +
    (slotsWeight rank height state.locals + (limit - state.locals.length))

variable {rank height} {common : CommonSuper} (h : Climbs common rank height)
include h

omit h in
theorem slotsWeight_cons (type : VerificationType) (slots : List VerificationType) :
    slotsWeight rank height (type :: slots) =
      typeWeight rank height type + slotsWeight rank height slots := by
  simp [slotsWeight]

/-- With one slot more, slots in which something changes are still lighter. -/
theorem slotsWeight_merged_cons {existing merged : List VerificationType} {before after : Nat}
    (a b : VerificationType)
    (hrest : merged = existing ∧ after = before ∨
      slotsWeight rank height merged + after < slotsWeight rank height existing + before) :
    mergeType common a b :: merged = a :: existing ∧ after = before ∨
      slotsWeight rank height (mergeType common a b :: merged) + after <
        slotsWeight rank height (a :: existing) + before := by
  rw [slotsWeight_cons, slotsWeight_cons, List.cons.injEq]
  by_cases hsame : mergeType common a b = a
  · rw [hsame]
    rcases hrest with ⟨rfl, rfl⟩ | hlighter
    · exact .inl ⟨⟨rfl, rfl⟩, rfl⟩
    · exact .inr (by omega)
  · have hlighter := typeWeight_mergeType h hsame
    rcases hrest with ⟨rfl, rfl⟩ | hrest
    · exact .inr (by omega)
    · exact .inr (by omega)

theorem slotsWeight_zipWith {existing incoming : List VerificationType}
    (hlength : existing.length = incoming.length) :
    List.zipWith (mergeType common) existing incoming = existing ∨
      slotsWeight rank height (List.zipWith (mergeType common) existing incoming) <
        slotsWeight rank height existing := by
  suffices hmerged : List.zipWith (mergeType common) existing incoming = existing ∧ 0 = 0 ∨
      slotsWeight rank height (List.zipWith (mergeType common) existing incoming) + 0 <
        slotsWeight rank height existing + 0 by simpa using hmerged
  induction existing generalizing incoming with
  | nil => exact .inl ⟨List.zipWith_nil_left, rfl⟩
  | cons a existing ih =>
    cases incoming with
    | nil => cases hlength
    | cons b incoming => exact slotsWeight_merged_cons h a b (ih (Nat.succ.inj hlength))

omit h in
theorem mergeLocals_cons (a : VerificationType) (existing incoming : List VerificationType) :
    mergeLocals common (a :: existing) incoming =
      mergeType common a (incoming.head?.getD .top) :: mergeLocals common existing incoming.tail := by
  cases incoming with
  | nil => cases existing <;> rfl
  | cons b incoming => rfl

/-- Local variables that come to a state weigh less than the place that was left for them. -/
theorem slotsWeight_mergeLocals {limit : Nat} (existing : List VerificationType)
    {incoming : List VerificationType} (hlimit : incoming.length ≤ limit) :
    mergeLocals common existing incoming = existing ∧
        limit - (mergeLocals common existing incoming).length = limit - existing.length ∨
      slotsWeight rank height (mergeLocals common existing incoming) +
          (limit - (mergeLocals common existing incoming).length) <
        slotsWeight rank height existing + (limit - existing.length) := by
  induction existing generalizing incoming limit with
  | nil =>
    cases incoming with
    | nil => exact .inl ⟨rfl, rfl⟩
    | cons b incoming =>
      refine .inr ?_
      rw [List.length_cons] at hlimit
      have hnothing : slotsWeight rank height (List.replicate (incoming.length + 1) .top) = 0 := by
        simp [slotsWeight, typeWeight]
      rw [mergeLocals, List.length_cons, hnothing, List.length_replicate, List.length_nil]
      omega
  | cons a existing ih =>
    have htail : incoming.tail.length ≤ limit - 1 := by
      rw [List.length_tail]
      omega
    have hrest := ih htail
    have hshift : ∀ length, limit - 1 - length = limit - (length + 1) := fun length => by omega
    rw [hshift, hshift] at hrest
    rw [mergeLocals_cons]
    exact slotsWeight_merged_cons h a _ hrest

/-- A state that changes in a merge becomes lighter. -/
theorem stateWeight_merge? {limit : Nat} {existing incoming merged : State}
    (hlimit : incoming.locals.length ≤ limit)
    (hmerged : merge? common existing incoming = some merged) (hne : merged ≠ existing) :
    stateWeight rank height limit merged < stateWeight rank height limit existing := by
  unfold merge? at hmerged
  split at hmerged
  · rename_i hlength
    cases hmerged
    have hstack := slotsWeight_zipWith h hlength
    have hlocals := slotsWeight_mergeLocals h existing.locals hlimit
    unfold stateWeight
    dsimp only
    rcases hstack with hstack | hstack <;> rcases hlocals with ⟨hlocals, -⟩ | hlocals
    · exact absurd (by rw [hstack, hlocals]) hne
    · rw [hstack]
      omega
    · rw [hlocals]
      omega
    · omega
  · cases hmerged

end

end JvmArchive.Flow
