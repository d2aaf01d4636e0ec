import Mathlib.Data.List.TakeWhile
import JvmArchive.Flow.Merge
import JvmArchive.Proofs.Descriptor.Names

/-!
# States that absorb others

Over the hierarchy of which nothing is known, merging keeps what it has seen: a merged state does not
change any more when either of the two states flows in again, and what a state has absorbed stays
absorbed however often it is merged later.
-/
namespace JvmArchive.Flow

/-! ## Names -/

/-- The common superclass of two names, classes or arrays, when they differ. -/
def mergeNames (common : CommonSuper) (x y : String) : String :=
  if isArray x || isArray y then mergeArrays common x y else common x y

/-- The array of so many dimensions whose elements may be of any class. -/
def rootArray (dimensions : Nat) : String :=
  String.ofList (List.replicate dimensions '[') ++ "L" ++ rootClass ++ ";"

/-- Whether a name is that of an array of so many dimensions whose elements are of a class. -/
def IsClassArray (dimensions : Nat) (name : String) : Prop :=
  (splitDimensions name.toList).1 = dimensions ∧
    (Descriptor.objectName? (String.ofList (splitDimensions name.toList).2)).isSome

theorem splitDimensions_append (name : List Char) :
    List.replicate (splitDimensions name).1 '[' ++ (splitDimensions name).2 = name := by
  have hdimensions : name.takeWhile (· = '[') = List.replicate (splitDimensions name).1 '[' :=
    List.eq_replicate_iff.2 ⟨rfl, fun c hc => by simpa using List.mem_takeWhile_imp hc⟩
  rw [← hdimensions]
  exact List.takeWhile_append_dropWhile

theorem splitDimensions_rootClass : (splitDimensions rootClass.toList).1 = 0 := by decide

theorem splitDimensions_rootArray (dimensions : Nat) :
    splitDimensions (rootArray dimensions).toList =
      (dimensions, 'L' :: rootClass.toList ++ [';']) := by
  induction dimensions with
  | zero => decide
  | succ dimensions ih =>
    have hlist : (rootArray (dimensions + 1)).toList = '[' :: (rootArray dimensions).toList := by
      simp [rootArray, List.replicate_succ]
    have hcons : splitDimensions ('[' :: (rootArray dimensions).toList) =
        ((splitDimensions (rootArray dimensions).toList).1 + 1,
          (splitDimensions (rootArray dimensions).toList).2) := by
      simp [splitDimensions]
    rw [hlist, hcons, ih]

theorem isArray_rootArray {dimensions : Nat} (h : 0 < dimensions) :
    isArray (rootArray dimensions) = true := by
  obtain ⟨dimensions, rfl⟩ := Nat.exists_eq_succ_of_ne_zero h.ne'
  rw [isArray, String.startsWith_string_iff]
  simp [rootArray, List.replicate_succ]

/-- Arrays of equally many dimensions whose elements are of one class have one name. -/
theorem eq_of_elements {x y name : String}
    (hdimensions : (splitDimensions x.toList).1 = (splitDimensions y.toList).1)
    (hx : Descriptor.objectName? (String.ofList (splitDimensions x.toList).2) = some name)
    (hy : Descriptor.objectName? (String.ofList (splitDimensions y.toList).2) = some name) :
    x = y := by
  have hrest : (splitDimensions x.toList).2 = (splitDimensions y.toList).2 := by
    have hx := Descriptor.eq_of_objectName? hx
    have hy := Descriptor.eq_of_objectName? hy
    rw [String.toList_ofList] at hx hy
    rw [hx, hy]
  apply String.toList_inj.1
  rw [← splitDimensions_append x.toList, ← splitDimensions_append y.toList, hdimensions, hrest]

/-- Two arrays meet in the array of anything if both are arrays of classes with equally many
dimensions, and in the root otherwise. -/
theorem mergeArrays_rootOnly {x y : String} (hne : x ≠ y) :
    mergeArrays rootOnly x y = rootClass ∨ ∃ dimensions, 0 < dimensions ∧
      IsClassArray dimensions x ∧ IsClassArray dimensions y ∧
        mergeArrays rootOnly x y = rootArray dimensions := by
  unfold mergeArrays
  dsimp only
  split
  · rename_i hdimensions
    split
    · rename_i a b ha hb
      have hab : a ≠ b := by
        rintro rfl
        exact hne (eq_of_elements hdimensions.1 ha hb)
      refine .inr ⟨_, hdimensions.2, ⟨rfl, by simp [ha]⟩, ⟨hdimensions.1.symm, by simp [hb]⟩, ?_⟩
      simp [rootOnly, hab, rootArray]
    · exact .inl rfl
  · exact .inl rfl

theorem mergeNames_rootOnly {x y : String} (hne : x ≠ y) :
    mergeNames rootOnly x y = rootClass ∨ ∃ dimensions, 0 < dimensions ∧
      IsClassArray dimensions x ∧ IsClassArray dimensions y ∧
        mergeNames rootOnly x y = rootArray dimensions := by
  unfold mergeNames
  split
  · exact mergeArrays_rootOnly hne
  · exact .inl (by simp [rootOnly, hne])

/-- The root absorbs every name. -/
theorem mergeNames_rootClass {y : String} (hne : rootClass ≠ y) :
    mergeNames rootOnly rootClass y = rootClass := by
  rcases mergeNames_rootOnly hne with h | ⟨dimensions, hpos, hroot, -, -⟩
  · exact h
  · rw [IsClassArray, splitDimensions_rootClass] at hroot
    omega

/-- The array of anything absorbs the arrays of classes that have its dimensions. -/
theorem mergeNames_rootArray {dimensions : Nat} {y : String} (hpos : 0 < dimensions)
    (hy : IsClassArray dimensions y) :
    mergeNames rootOnly (rootArray dimensions) y = rootArray dimensions := by
  obtain ⟨name, hname⟩ := Option.isSome_iff_exists.1 hy.2
  rw [mergeNames, isArray_rootArray hpos, Bool.true_or, if_pos rfl, mergeArrays,
    splitDimensions_rootArray]
  dsimp only
  rw [if_pos ⟨hy.1.symm, hpos⟩, Descriptor.objectName?_wrapped, hname]
  simp [rootOnly, rootArray]

theorem rootOnly_comm (a b : String) : rootOnly a b = rootOnly b a := by
  unfold rootOnly
  by_cases h : a = b
  · rw [if_pos h, if_pos h.symm, h]
  · rw [if_neg h, if_neg (Ne.symm h)]

theorem mergeArrays_comm (x y : String) : mergeArrays rootOnly x y = mergeArrays rootOnly y x := by
  unfold mergeArrays
  dsimp only
  by_cases hdimensions : (splitDimensions x.toList).1 = (splitDimensions y.toList).1
  · rw [hdimensions]
    cases Descriptor.objectName? (String.ofList (splitDimensions x.toList).2) <;>
      cases Descriptor.objectName? (String.ofList (splitDimensions y.toList).2) <;>
        simp only [rootOnly_comm]
  · rw [if_neg fun h => hdimensions h.1, if_neg fun h => hdimensions h.1.symm]

/-! ## Types -/

theorem mergeType_object {common : CommonSuper} {x y : String} (hne : x ≠ y) :
    mergeType common (.object x) (.object y) = .object (mergeNames common x y) := by
  simp [mergeType, mergeNames, hne]

theorem mergeType_self (common : CommonSuper) (a : VerificationType) : mergeType common a a = a :=
  if_pos rfl

theorem mergeType_top (common : CommonSuper) (b : VerificationType) :
    mergeType common .top b = .top := by
  unfold mergeType
  split <;> rfl

/-- The root absorbs everything that is an object or null. -/
theorem mergeType_root (y : String) :
    mergeType rootOnly (.object rootClass) (.object y) = .object rootClass := by
  by_cases hne : rootClass = y
  · rw [← hne, mergeType_self]
  · rw [mergeType_object hne, mergeNames_rootClass hne]

/-- What two types merge to absorbs the second one. -/
theorem mergeType_absorbs_right (a b : VerificationType) :
    mergeType rootOnly (mergeType rootOnly a b) b = mergeType rootOnly a b := by
  by_cases hab : a = b
  · rw [hab, mergeType_self, mergeType_self]
  · cases a <;> cases b
    case object.object x y =>
      have hne : x ≠ y := fun h => hab (h ▸ rfl)
      rw [mergeType_object hne]
      rcases mergeNames_rootOnly hne with h | ⟨dimensions, hpos, -, hy, h⟩
      · rw [h, mergeType_root]
      · rw [h]
        by_cases hroot : rootArray dimensions = y
        · rw [hroot, mergeType_self]
        · rw [mergeType_object hroot, mergeNames_rootArray hpos hy]
    all_goals simp_all [mergeType]

/-- An object that absorbs a name still does so when another name is merged into it. -/
theorem mergeType_object_absorbs {x y z : String}
    (h : mergeType rootOnly (.object x) (.object z) = .object x) :
    mergeType rootOnly (mergeType rootOnly (.object x) (.object y)) (.object z) =
      mergeType rootOnly (.object x) (.object y) := by
  by_cases hxy : x = y
  · rw [hxy, mergeType_self, ← hxy, h]
  · rw [mergeType_object hxy]
    rcases mergeNames_rootOnly hxy with hmerged | ⟨dimensions, hpos, hx, -, hmerged⟩
    · rw [hmerged, mergeType_root]
    · rw [hmerged]
      by_cases hroot : rootArray dimensions = z
      · rw [hroot, mergeType_self]
      · -- What an array of classes absorbs are the arrays of classes with its dimensions.
        have hz : IsClassArray dimensions z := by
          by_cases hxz : x = z
          · rw [← hxz]
            exact hx
          · rw [mergeType_object hxz, VerificationType.object.injEq] at h
            rcases mergeNames_rootOnly hxz with hroot | ⟨others, -, hx', hz, -⟩
            · rw [← h, hroot, IsClassArray, splitDimensions_rootClass] at hx
              omega
            · rw [hx.1.symm, hx'.1]
              exact hz
        rw [mergeType_object hroot, mergeNames_rootArray hpos hz]

/-- What a type has absorbed, it still absorbs when another type is merged into it. -/
theorem mergeType_absorbs_of_absorbs {a b c : VerificationType} (h : mergeType rootOnly a c = a) :
    mergeType rootOnly (mergeType rootOnly a b) c = mergeType rootOnly a b := by
  by_cases hab : a = b
  · rw [hab, mergeType_self, ← hab, h]
  · by_cases hac : a = c
    · subst hac
      cases a <;> cases b
      case object.object x y => exact mergeType_object_absorbs (mergeType_self _ _)
      all_goals simp_all [mergeType]
    · cases a <;> cases c
      case object.object x z =>
        cases b
        case object y => exact mergeType_object_absorbs h
        all_goals simp_all [mergeType]
      all_goals cases b <;> simp_all [mergeType]

/-- Over the hierarchy of which nothing is known it does not matter which type was there first. -/
theorem mergeType_comm (a b : VerificationType) :
    mergeType rootOnly a b = mergeType rootOnly b a := by
  by_cases hab : a = b
  · rw [hab]
  · cases a <;> cases b
    case object.object x y =>
      have hne : x ≠ y := fun h => hab (h ▸ rfl)
      rw [mergeType_object hne, mergeType_object hne.symm]
      simp only [mergeNames, mergeArrays_comm x y, rootOnly_comm x y, Bool.or_comm]
    all_goals simp_all [mergeType, eq_comm]

/-! ## States -/

theorem getElem?_mergeLocals (common : CommonSuper) (existing incoming : List VerificationType)
    (slot : Nat) :
    (mergeLocals common existing incoming)[slot]? =
      if slot < existing.length then
        existing[slot]?.map (mergeType common · (incoming[slot]?.getD .top))
      else if slot < incoming.length then some .top
      else none := by
  induction existing generalizing incoming slot with
  | nil => simp [mergeLocals, List.getElem?_replicate]
  | cons a existing ih =>
    cases incoming with
    | nil =>
      simp only [mergeLocals, List.getElem?_map, List.getElem?_nil, Option.getD_none,
        List.length_nil, Nat.not_lt_zero, if_false]
      split
      · rfl
      · rw [List.getElem?_eq_none (by omega)]
        rfl
    | cons b incoming =>
      cases slot with
      | zero => simp [mergeLocals]
      | succ slot => simp [mergeLocals, ih]

theorem length_mergeLocals (common : CommonSuper) (existing incoming : List VerificationType) :
    (mergeLocals common existing incoming).length = max existing.length incoming.length := by
  induction existing generalizing incoming with
  | nil => simp [mergeLocals]
  | cons a existing ih =>
    cases incoming with
    | nil => simp [mergeLocals]
    | cons b incoming =>
      simp [mergeLocals, ih]

/-- Local variables do not change in a merge if there are enough of them and each slot absorbs what
comes into it. -/
theorem mergeLocals_eq_self_iff {common : CommonSuper} {existing incoming : List VerificationType} :
    mergeLocals common existing incoming = existing ↔
      incoming.length ≤ existing.length ∧ ∀ (slot : Nat) (type : VerificationType),
        existing[slot]? = some type → mergeType common type (incoming[slot]?.getD .top) =
          type := by
  constructor
  · intro h
    have hlength := length_mergeLocals common existing incoming
    rw [h] at hlength
    refine ⟨by omega, fun slot type hslot => ?_⟩
    have hmerged := getElem?_mergeLocals common existing incoming slot
    rw [h, hslot, if_pos (List.getElem?_eq_some_iff.1 hslot).1] at hmerged
    exact (Option.some.inj hmerged).symm
  · rintro ⟨hlength, hslots⟩
    apply List.ext_getElem?
    intro slot
    rw [getElem?_mergeLocals]
    split
    · rename_i hlt
      rw [List.getElem?_eq_getElem hlt, Option.map_some]
      exact congrArg some (hslots slot _ (List.getElem?_eq_getElem hlt))
    · rw [if_neg (by omega), List.getElem?_eq_none (by omega)]

theorem mergeLocals_absorbs_right (a b : List VerificationType) :
    mergeLocals rootOnly (mergeLocals rootOnly a b) b = mergeLocals rootOnly a b := by
  rw [mergeLocals_eq_self_iff, length_mergeLocals]
  refine ⟨by omega, fun slot type hslot => ?_⟩
  rw [getElem?_mergeLocals] at hslot
  split at hslot
  · obtain ⟨existing, -, rfl⟩ := Option.map_eq_some_iff.1 hslot
    exact mergeType_absorbs_right _ _
  · split at hslot
    · cases hslot
      exact mergeType_top _ _
    · cases hslot

theorem mergeLocals_absorbs_of_absorbs {a b c : List VerificationType}
    (h : mergeLocals rootOnly a c = a) :
    mergeLocals rootOnly (mergeLocals rootOnly a b) c = mergeLocals rootOnly a b := by
  rw [mergeLocals_eq_self_iff] at h ⊢
  rw [length_mergeLocals]
  refine ⟨by omega, fun slot type hslot => ?_⟩
  rw [getElem?_mergeLocals] at hslot
  split at hslot
  · obtain ⟨existing, hexisting, rfl⟩ := Option.map_eq_some_iff.1 hslot
    exact mergeType_absorbs_of_absorbs (h.2 slot existing hexisting)
  · split at hslot
    · cases hslot
      exact mergeType_top _ _
    · cases hslot

/-- Local variables that are absorbed are replaced by those that absorb them. -/
theorem mergeLocals_of_absorbs {a b : List VerificationType} (h : mergeLocals rootOnly a b = a) :
    mergeLocals rootOnly b a = a := by
  obtain ⟨hlength, hslots⟩ := mergeLocals_eq_self_iff.1 h
  apply List.ext_getElem?
  intro slot
  rw [getElem?_mergeLocals]
  by_cases hlt : slot < a.length
  · have ha := List.getElem?_eq_getElem hlt
    have hkept := hslots slot _ ha
    split
    next hb =>
      rw [List.getElem?_eq_getElem hb, Option.getD_some] at hkept
      rw [ha, List.getElem?_eq_getElem hb, Option.map_some, Option.getD_some, mergeType_comm, hkept]
    next hb =>
      rw [List.getElem?_eq_none (Nat.le_of_not_lt hb), Option.getD_none, mergeType_comm,
        mergeType_top] at hkept
      rw [ha, hkept]
  · rw [if_neg (by omega), if_neg hlt, List.getElem?_eq_none (Nat.le_of_not_lt hlt)]

theorem zipWith_absorbs_right {a b : List VerificationType} (h : a.length = b.length) :
    List.zipWith (mergeType rootOnly) (List.zipWith (mergeType rootOnly) a b) b =
      List.zipWith (mergeType rootOnly) a b := by
  induction a generalizing b with
  | nil => simp
  | cons x a ih =>
    cases b with
    | nil => cases h
    | cons y b =>
      simp only [List.zipWith_cons_cons]
      rw [mergeType_absorbs_right, ih (by simpa using h)]

theorem zipWith_absorbs_of_absorbs {a b c : List VerificationType} (hb : a.length = b.length)
    (h : List.zipWith (mergeType rootOnly) a c = a) :
    List.zipWith (mergeType rootOnly) (List.zipWith (mergeType rootOnly) a b) c =
      List.zipWith (mergeType rootOnly) a b := by
  induction a generalizing b c with
  | nil => simp
  | cons x a ih =>
    cases b with
    | nil => cases hb
    | cons y b =>
      cases c with
      | nil => cases h
      | cons z c =>
        simp only [List.zipWith_cons_cons, List.cons.injEq] at h ⊢
        exact ⟨mergeType_absorbs_of_absorbs h.1, ih (by simpa using hb) h.2⟩

/-- Whether nothing changes when the second state flows to the first one: their stacks are equally high
and every slot of the first one keeps its type. -/
def State.Absorbs (existing incoming : State) : Prop :=
  merge? rootOnly existing incoming = some existing

namespace State

variable {a b c merged : State}

theorem absorbs_iff : Absorbs a b ↔ a.stack.length = b.stack.length ∧
    mergeLocals rootOnly a.locals b.locals = a.locals ∧
      List.zipWith (mergeType rootOnly) a.stack b.stack = a.stack := by
  unfold Absorbs merge?
  split
  · rename_i hlength
    obtain ⟨locals, stack⟩ := a
    simp [hlength]
  · rename_i hlength
    simp [hlength]

theorem absorbs_refl (a : State) : Absorbs a a := by
  rw [absorbs_iff, mergeLocals_eq_self_iff]
  refine ⟨rfl, ⟨le_refl _, fun slot type hslot => ?_⟩, ?_⟩
  · rw [hslot, Option.getD_some, mergeType_self]
  · simp [List.zipWith_self, mergeType_self]

/-- A merged state absorbs the state that was merged into it. -/
theorem absorbs_of_merge? (h : merge? rootOnly a b = some merged) : Absorbs merged b := by
  unfold merge? at h
  split at h
  · rename_i hlength
    cases h
    rw [absorbs_iff]
    exact ⟨by simp [hlength], mergeLocals_absorbs_right _ _, zipWith_absorbs_right hlength⟩
  · cases h

/-- A merged state absorbs whatever the state before it has absorbed. -/
theorem Absorbs.of_merge? (hc : Absorbs a c) (h : merge? rootOnly a b = some merged) :
    Absorbs merged c := by
  unfold merge? at h
  split at h
  · rename_i hlength
    cases h
    rw [absorbs_iff] at hc ⊢
    refine ⟨?_, mergeLocals_absorbs_of_absorbs hc.2.1, zipWith_absorbs_of_absorbs hlength hc.2.2⟩
    simp [← hlength, hc.1]
  · cases h

/-- A state that flows to one that it absorbs takes its place. -/
theorem Absorbs.merge?_comm (h : Absorbs a b) : merge? rootOnly b a = some a := by
  obtain ⟨hlength, hlocals, hstack⟩ := absorbs_iff.1 h
  have hstack' : List.zipWith (mergeType rootOnly) b.stack a.stack = a.stack := by
    rw [List.zipWith_comm]
    simp only [mergeType_comm, hstack]
  rw [merge?, if_pos hlength.symm, mergeLocals_of_absorbs hlocals, hstack']

/-- Two states that absorb each other are one. -/
theorem Absorbs.antisymm (hab : Absorbs a b) (hba : Absorbs b a) : a = b :=
  Option.some.inj (hab.merge?_comm.symm.trans hba)

end State
end JvmArchive.Flow
