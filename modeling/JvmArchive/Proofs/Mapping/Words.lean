import JvmArchive.Proofs.Mapping.Drawn
import Mathlib.Data.List.Induction
import Mathlib.Data.List.Shortlex
import Mathlib.Data.Set.Function

/-!
# Words over the letters

Counting gives every word over the letters its position: the letters are digits without a zero, so each
word but the empty one stands at exactly one position, and shorter words stand before longer ones. Main
statement: `bijOn_nthName_shortlex`.
-/
namespace JvmArchive.Mapping

theorem length_alphabet : alphabet.length = 52 := by decide

theorem nodup_alphabet : alphabet.Nodup := by decide

theorem letter_eq_getElem (n : Nat) (h : n % 52 < alphabet.length) : letter n = alphabet[n % 52] := by
  rw [letter, List.getD_eq_getElem?_getD, List.getElem?_eq_getElem h, Option.getD_some]

@[simp]
theorem idxOf_letter (n : Nat) : alphabet.idxOf (letter n) = n % 52 := by
  rw [letter_eq_getElem n (Nat.mod_lt n (by decide))]
  exact nodup_alphabet.idxOf_getElem _ _

theorem idxOf_lt {c : Char} (h : c ∈ alphabet) : alphabet.idxOf c < 52 := by
  rw [← length_alphabet]
  exact List.idxOf_lt_length_of_mem h

/-- A letter is found at its position, however often the count has gone around. -/
theorem letter_idxOf {c : Char} (h : c ∈ alphabet) (rounds : Nat) :
    letter (rounds * 52 + alphabet.idxOf c) = c := by
  have hmod : (rounds * 52 + alphabet.idxOf c) % 52 = alphabet.idxOf c := by
    have := idxOf_lt h
    omega
  rw [letter_eq_getElem _ (Nat.mod_lt _ (by decide))]
  simp only [hmod]
  exact List.getElem_idxOf _

/-! ## Positions -/

/-- How many words stand before the words with these letters and one more, the empty word among them. -/
def position (letters : List Char) : Nat :=
  letters.foldl (fun n c => n * 52 + alphabet.idxOf c + 1) 0

theorem position_concat (letters : List Char) (c : Char) :
    position (letters ++ [c]) = position letters * 52 + alphabet.idxOf c + 1 := by
  rw [position, List.foldl_concat, position]

theorem position_nthLetters (n : Nat) : position (nthLetters n) = n + 1 := by
  fun_induction nthLetters n with
  | case1 n hlt =>
    rw [← List.nil_append [letter n], position_concat, idxOf_letter, Nat.mod_eq_of_lt hlt]
    simp [position]
  | case2 n hle ih =>
    rw [position_concat, ih, idxOf_letter]
    omega

theorem nthLetters_inj {m n : Nat} (h : nthLetters m = nthLetters n) : m = n := by
  have hposition := congrArg position h
  rw [position_nthLetters, position_nthLetters] at hposition
  omega

/-- Every word stands at its position. -/
theorem nthLetters_position {letters : List Char} (hne : letters ≠ [])
    (hletters : ∀ c ∈ letters, c ∈ alphabet) : nthLetters (position letters - 1) = letters := by
  induction letters using List.reverseRecOn with
  | nil => exact absurd rfl hne
  | append_singleton front c ih =>
    obtain ⟨hfront, hc⟩ := List.forall_mem_append.1 hletters
    have hmem : c ∈ alphabet := hc c List.mem_cons_self
    have hlt := idxOf_lt hmem
    rw [position_concat, Nat.add_sub_cancel, nthLetters, letter_idxOf hmem]
    by_cases hnil : front = []
    · subst hnil
      rw [if_pos (by simpa [position] using hlt), List.nil_append]
    · have hpos : 0 < position front := by
        rw [← ih hnil hfront, position_nthLetters]
        exact Nat.succ_pos _
      have hdiv : (position front * 52 + alphabet.idxOf c) / 52 = position front := by omega
      rw [if_neg (by omega), hdiv, ih hnil hfront]

/-! ## The loop -/

/-- The letters of the word at a position, by a loop whose subtraction fails below zero. -/
def nthLetters? (n : Nat) : Option (List Char) :=
  if n < 52 then some [letter n]
  else
    match _h : n / 52 with
    | 0 => none
    | before + 1 => (nthLetters? before).map (· ++ [letter n])
termination_by n
decreasing_by omega

/-- Nothing is subtracted that is not there. -/
theorem nthLetters?_eq_some (n : Nat) : nthLetters? n = some (nthLetters n) := by
  fun_induction nthLetters? n with
  | case1 n hlt => rw [nthLetters, if_pos hlt]
  | case2 n hle hzero => omega
  | case3 n hle before hdiv ih =>
    rw [nthLetters, if_neg hle, hdiv, ih]
    rfl

/-! ## Order -/

/-- The order of the letters. -/
def LetterBefore (c d : Char) : Prop := alphabet.idxOf c < alphabet.idxOf d

instance : Std.Asymm LetterBefore := ⟨fun _ _ h => Nat.lt_asymm h⟩

theorem shortlex_concat {α : Type} {r : α → α → Prop} {front other : List α} (a b : α)
    (h : List.Shortlex r front other) : List.Shortlex r (front ++ [a]) (other ++ [b]) := by
  rcases List.shortlex_def.1 h with hlength | ⟨hlength, hlex⟩
  · exact .of_length_lt (by simpa using hlength)
  · refine .of_lex (by simpa using hlength) ?_
    clear h
    induction hlex with
    | nil => simp at hlength
    | rel hr => exact .rel hr
    | cons _ ih => exact .cons (ih (by simpa using hlength))

/-- The words come in their order. -/
theorem shortlex_nthLetters {i j : Nat} (h : i < j) :
    List.Shortlex LetterBefore (nthLetters i) (nthLetters j) := by
  induction j using Nat.strongRecOn generalizing i with
  | ind j ih =>
    have hlast : i / 52 = j / 52 → LetterBefore (letter i) (letter j) := by
      intro hdiv
      rw [LetterBefore, idxOf_letter, idxOf_letter]
      omega
    rw [nthLetters, nthLetters.eq_def j]
    by_cases hj : j < 52
    · rw [if_pos (by omega), if_pos hj, List.shortlex_singleton_iff]
      exact hlast (by omega)
    · rw [if_neg hj]
      by_cases hi : i < 52
      · have hfront := List.length_pos_iff.2 (nthLetters_ne_nil (j / 52 - 1))
        rw [if_pos hi]
        exact .of_length_lt (by simpa using hfront)
      · rw [if_neg hi]
        by_cases hdiv : i / 52 = j / 52
        · rw [hdiv]
          exact List.Shortlex.append_left ((List.shortlex_singleton_iff _ _).2 (hlast hdiv)) _
        · exact shortlex_concat _ _ (ih (j / 52 - 1) (by omega) (by omega))

/-! ## Names -/

theorem toList_nthName (n : Nat) : (nthName n).toList = nthLetters n := by
  rw [nthName, String.toList_ofList]

theorem nthName_inj {m n : Nat} (h : nthName m = nthName n) : m = n := by
  have hletters := congrArg String.toList h
  rw [toList_nthName, toList_nthName] at hletters
  exact nthLetters_inj hletters

theorem dollar_not_mem_nthName (n : Nat) : '$' ∉ (nthName n).toList := by
  rw [toList_nthName]
  intro h
  have hletter : '$' ∉ alphabet := by decide
  exact hletter (mem_alphabet_of_mem_nthLetters h)

/-- The names over the letters. -/
def lettered : Set String := {name | name.toList ≠ [] ∧ ∀ c ∈ name.toList, c ∈ alphabet}

/-- Whether a name stands before another one: the shorter one, or else the one with the earlier letter
where they differ first. -/
def Precedes (name other : String) : Prop := List.Shortlex LetterBefore name.toList other.toList

/-- Over an alphabet of 52 letters, every name that is not empty stands at exactly one position; the loop
that finds it there never subtracts from zero; and the names come in the order of their positions, the
shorter ones first and those of one length as the letters come in the alphabet. -/
theorem bijOn_nthName_shortlex :
    (alphabet.length = 52 ∧ alphabet.Nodup) ∧ Set.BijOn nthName Set.univ lettered ∧
      (∀ n, nthLetters? n = some (nthLetters n)) ∧
      ∀ i j, i < j ↔ Precedes (nthName i) (nthName j) := by
  refine ⟨⟨length_alphabet, nodup_alphabet⟩, ⟨fun n _ => ?_, fun m _ n _ => nthName_inj, ?_⟩,
    nthLetters?_eq_some, fun i j => ?_⟩
  · change (nthName n).toList ≠ [] ∧ ∀ c ∈ (nthName n).toList, c ∈ alphabet
    rw [toList_nthName]
    exact ⟨nthLetters_ne_nil n, fun c => mem_alphabet_of_mem_nthLetters⟩
  · rintro name ⟨hne, hletters⟩
    refine ⟨position name.toList - 1, Set.mem_univ _, ?_⟩
    rw [nthName, nthLetters_position hne hletters, String.ofList_toList]
  · rw [Precedes, toList_nthName, toList_nthName]
    refine ⟨shortlex_nthLetters, fun hbefore => ?_⟩
    rcases Nat.lt_trichotomy i j with hlt | rfl | hgt
    · exact hlt
    · exact absurd hbefore (Std.Asymm.asymm _ _ hbefore)
    · exact absurd hbefore (Std.Asymm.asymm _ _ (shortlex_nthLetters hgt))

end JvmArchive.Mapping
