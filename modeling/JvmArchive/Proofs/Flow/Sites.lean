import JvmArchive.Flow.Analysis

/-!
# Names of allocations

The label right before an allocation names it, and where there is none a number counted down from the
highest one. While every label stands at one place only, and their numbers and the places stay below
half of the range, two allocations have two names.
-/
namespace JvmArchive.Flow

/-- Instructions in which each label has one place at most, and no number that could name an allocation
without a label. -/
structure PlacedOnce (instructions : List Instruction) : Prop where
  once : ∀ {i j : Nat} {label : Label}, instructions[i]? = some (.label label) →
    instructions[j]? = some (.label label) → i = j
  small : ∀ {label : Label}, .label label ∈ instructions → label.number.toNat < 2147483648

namespace Body

/-- The label before an instruction stands before it with nothing but other entries that take no room
in between. -/
theorem exists_of_labelBefore? {instructions : Array Instruction} {index : Nat} {label : Label}
    (h : labelBefore? instructions index = some label) :
    ∃ place < index, instructions[place]? = some (.label label) ∧
      ∀ between, place < between → between < index →
        ∃ instruction, instructions[between]? = some instruction ∧ instruction.isPseudo = true := by
  induction index with
  | zero => cases h
  | succ index ih =>
    rw [labelBefore?] at h
    split at h
    · rename_i placed hplaced
      cases h
      exact ⟨index, Nat.lt_succ_self _, hplaced, fun between _ _ => by omega⟩
    · rename_i instruction _ hinstruction
      split at h
      · rename_i hpseudo
        obtain ⟨place, hlt, hplace, hbetween⟩ := ih h
        refine ⟨place, by omega, hplace, fun between habove hbelow => ?_⟩
        rcases Nat.lt_succ_iff_lt_or_eq.1 hbelow with hless | rfl
        · exact hbetween between habove hless
        · exact ⟨instruction, hinstruction, hpseudo⟩
      · cases h
    · cases h

variable {body : Body} {instructions : List Instruction} {i j : Nat} {first second : Instruction}

/-- The places of two real instructions behind one label are in order only if they are one. -/
theorem le_of_labelBefore? (hbody : body.instructions = instructions.toArray)
    (honce : PlacedOnce instructions) {label : Label}
    (hi : labelBefore? body.instructions i = some label)
    (hj : labelBefore? body.instructions j = some label)
    (hfirst : instructions[i]? = some first) (hreal : first.isPseudo = false) : j ≤ i := by
  obtain ⟨place, hlt, hplace, -⟩ := exists_of_labelBefore? hi
  obtain ⟨place', -, hplace', hbetween⟩ := exists_of_labelBefore? hj
  rw [hbody, List.getElem?_toArray] at hplace hplace'
  obtain rfl := honce.once hplace hplace'
  refine Nat.le_of_not_lt fun hlater => ?_
  obtain ⟨instruction, hinstruction, hpseudo⟩ := hbetween i hlt hlater
  rw [hbody, List.getElem?_toArray, hfirst, Option.some.injEq] at hinstruction
  rw [← hinstruction, hreal] at hpseudo
  cases hpseudo

/-- The number that names an allocation without a label. -/
theorem toNat_site_number (h : i < 2147483648) :
    (0xFFFFFFFF - i.toUInt32 : UInt32).toNat = 4294967295 - i := by
  have hi : i.toUInt32.toNat = i := by
    simp [Nat.toUInt32]
    omega
  rw [UInt32.toNat_sub, hi]
  simp
  omega

/-- Two allocations with one name are one. -/
theorem eq_of_site_eq (hbody : body.instructions = instructions.toArray)
    (honce : PlacedOnce instructions) (hlength : instructions.length ≤ 2147483648)
    (hfirst : instructions[i]? = some first) (hsecond : instructions[j]? = some second)
    (hreal : first.isPseudo = false) (hreal' : second.isPseudo = false)
    (hsite : body.site i = body.site j) : i = j := by
  have hi : i < 2147483648 := by
    have := (List.getElem?_eq_some_iff.1 hfirst).1
    omega
  have hj : j < 2147483648 := by
    have := (List.getElem?_eq_some_iff.1 hsecond).1
    omega
  -- A label that stands somewhere has a lower number than any allocation without one.
  have hlabelled : ∀ {k label}, labelBefore? body.instructions k = some label →
      label.number.toNat < 2147483648 := by
    intro k label hk
    obtain ⟨place, -, hplace, -⟩ := exists_of_labelBefore? hk
    rw [hbody, List.getElem?_toArray] at hplace
    exact honce.small (List.mem_of_getElem? hplace)
  have hnumbers := congrArg (fun label : Label => label.number.toNat) hsite
  unfold site at hsite hnumbers
  cases hbefore : labelBefore? body.instructions i with
  | none =>
    cases hbefore' : labelBefore? body.instructions j with
    | none =>
      simp only [hbefore, hbefore', Option.getD_none, toNat_site_number hi, toNat_site_number hj]
        at hnumbers
      omega
    | some label =>
      have hsmall := hlabelled hbefore'
      simp only [hbefore, hbefore', Option.getD_none, Option.getD_some, toNat_site_number hi]
        at hnumbers
      omega
  | some label =>
    have hsmall := hlabelled hbefore
    cases hbefore' : labelBefore? body.instructions j with
    | none =>
      simp only [hbefore, hbefore', Option.getD_none, Option.getD_some, toNat_site_number hj]
        at hnumbers
      omega
    | some label' =>
      simp only [hbefore, hbefore', Option.getD_some] at hsite
      subst hsite
      exact Nat.le_antisymm (le_of_labelBefore? hbody honce hbefore' hbefore hsecond hreal')
        (le_of_labelBefore? hbody honce hbefore hbefore' hfirst hreal)

/-- Whether an allocation of the class has the given name. -/
def Allocates (body : Body) (site : Label) (class_ : String) : Prop :=
  ∃ index, body.instructions[index]? = some (.type Opcode.new class_) ∧ body.site index = site

/-- An allocation's name tells its class. -/
theorem class_of_allocates (hbody : body.instructions = instructions.toArray)
    (honce : PlacedOnce instructions) (hlength : instructions.length ≤ 2147483648) {site : Label}
    {class_ other : String} (h : body.Allocates site class_) (h' : body.Allocates site other) :
    class_ = other := by
  obtain ⟨i, hi, rfl⟩ := h
  obtain ⟨j, hj, hsite⟩ := h'
  rw [hbody, List.getElem?_toArray] at hi hj
  obtain rfl := eq_of_site_eq hbody honce hlength hj hi rfl rfl hsite
  rw [hi] at hj
  cases hj
  rfl

end Body
end JvmArchive.Flow
