import JvmArchive.Mapping.Names
import Mathlib.Data.List.Basic

/-!
# Drawn names

Names are drawn letter by letter: alphabetic ones from the letters, random ones from the letters and the
digits. So no drawn name is empty or holds a character that keys, descriptors and mapping files are put
together with.
-/
namespace JvmArchive.Mapping

/-- Whether a name is one that a source draws in a scope. -/
def Drawn {σ : Type} (source : NameSource σ) (scope : Scope) (name : String) : Prop :=
  ∃ names, (source.draw scope names).1 = name

/-- Whether a name is made of letters and digits. -/
structure IsAlphanumeric (name : String) : Prop where
  ne_nil : name.toList ≠ []
  mem : ∀ c ∈ name.toList, c ∈ randomCharacters

/-- Whether a source draws only names that are made of letters and digits. -/
def NameSource.Alphanumeric {σ : Type} (source : NameSource σ) : Prop :=
  ∀ scope name, Drawn source scope name → IsAlphanumeric name

/-! ## Alphabetic names -/

theorem letter_mem_alphabet (n : Nat) : letter n ∈ alphabet := by
  have hlt : n % 52 < alphabet.length := Nat.mod_lt n (by decide)
  rw [letter, List.getD_eq_getElem?_getD, List.getElem?_eq_getElem hlt, Option.getD_some]
  exact List.getElem_mem hlt

theorem mem_alphabet_of_mem_nthLetters {n : Nat} {c : Char} (h : c ∈ nthLetters n) :
    c ∈ alphabet := by
  fun_induction nthLetters n with
  | case1 n => exact List.mem_singleton.1 h ▸ letter_mem_alphabet n
  | case2 n _ ih =>
    rcases List.mem_append.1 h with hfront | hlast
    · exact ih hfront
    · exact List.mem_singleton.1 hlast ▸ letter_mem_alphabet n

theorem nthLetters_ne_nil (n : Nat) : nthLetters n ≠ [] := by
  rw [nthLetters]
  split <;> simp

theorem isAlphanumeric_nthName (n : Nat) : IsAlphanumeric (nthName n) where
  ne_nil := by
    rw [nthName, String.toList_ofList]
    exact nthLetters_ne_nil n
  mem c hc := by
    have hletters : alphabet ⊆ randomCharacters := by decide
    rw [nthName, String.toList_ofList] at hc
    exact hletters (mem_alphabet_of_mem_nthLetters hc)

theorem exists_nthName_of_drawn {scope : Scope} {name : String} (h : Drawn Counters.source scope name) :
    ∃ n, name = nthName n := by
  obtain ⟨names, rfl⟩ := h
  cases scope
  · exact ⟨_, rfl⟩
  · exact ⟨_, rfl⟩
  · exact ⟨_, rfl⟩
  · exact ⟨_, rfl⟩

theorem alphanumeric_counters : Counters.source.Alphanumeric := by
  intro scope name hdrawn
  obtain ⟨n, rfl⟩ := exists_nthName_of_drawn hdrawn
  exact isAlphanumeric_nthName n

/-! ## Random names -/

section
variable {ρ : Type} (words : WordSource ρ)

theorem drawCharacter_mem (tries : Nat) (generator : ρ) :
    (drawCharacter words tries generator).1 ∈ randomCharacters := by
  induction tries generalizing generator with
  | zero => exact (by decide : 'A' ∈ randomCharacters)
  | succ tries ih =>
    rw [drawCharacter]
    dsimp only
    split
    · rename_i c hc
      exact List.mem_of_getElem? hc
    · exact ih _

theorem mem_drawCharacters {n : Nat} {generator : ρ} {c : Char}
    (h : c ∈ (drawCharacters words n generator).1) : c ∈ randomCharacters := by
  induction n generalizing generator with
  | zero => simp [drawCharacters] at h
  | succ n ih =>
    rw [drawCharacters] at h
    rcases List.mem_cons.1 h with rfl | hrest
    · exact drawCharacter_mem words words.period generator
    · exact ih hrest

theorem length_drawCharacters (n : Nat) (generator : ρ) :
    (drawCharacters words n generator).1.length = n := by
  induction n generalizing generator with
  | zero => rfl
  | succ n ih => exact congrArg (· + 1) (ih _)

theorem isAlphanumeric_drawRandomName (generator : ρ) :
    IsAlphanumeric (drawRandomName words generator).1 where
  ne_nil h := by
    have hlength := length_drawCharacters words randomNameLength generator
    rw [drawRandomName, String.toList_ofList] at h
    rw [h] at hlength
    cases hlength
  mem c hc := by
    rw [drawRandomName, String.toList_ofList] at hc
    exact mem_drawCharacters words hc

theorem isAlphanumeric_drawUnseen (seen : Std.HashSet String) (tries : Nat) (generator : ρ) :
    IsAlphanumeric (drawUnseen words seen tries generator).1 := by
  induction tries generalizing generator with
  | zero => exact isAlphanumeric_drawRandomName words generator
  | succ tries ih =>
    rw [drawUnseen]
    dsimp only
    split
    · exact ih _
    · exact isAlphanumeric_drawRandomName words generator

theorem alphanumeric_randomNames : (RandomNames.source words).Alphanumeric := by
  rintro scope name ⟨names, rfl⟩
  exact isAlphanumeric_drawUnseen words (names.seen scope) words.period names.generator

/-- Names of either kind are made of letters and digits, whatever the source of words. -/
theorem alphanumeric_naming : (Naming.source words).Alphanumeric := by
  rintro scope name ⟨names, rfl⟩
  cases names with
  | alphabetic counters => exact alphanumeric_counters scope _ ⟨counters, rfl⟩
  | random names => exact alphanumeric_randomNames words scope _ ⟨names, rfl⟩

end

end JvmArchive.Mapping
