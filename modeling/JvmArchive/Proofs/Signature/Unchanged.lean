import JvmArchive.Proofs.Signature.Renaming
import Mathlib.Data.List.TakeWhile

/-!
# Signatures without renamed classes

A renaming that keeps every class name it knows leaves every text as it is, signature or not. The names
that a scan asks for never hold a dot: each is cut off at the first one, and a full name is put together
with dollar signs.
-/
namespace JvmArchive.Signature

/-- Whether every name without a dot is kept, be it known or not. -/
def KeepsDotless (f : String → Option String) : Prop :=
  ∀ name, '.' ∉ name.toList → ∀ image ∈ f name, image = name

/-- Whether what a scan awaits holds no full name with a dot. -/
def Awaited.IsDotless : Awaited → Prop
  | .suffixes name => '.' ∉ name
  | _ => True

variable {f : String → Option String} (hf : KeepsDotless f)

theorem dot_not_mem_takeWhile (s : List Char) : '.' ∉ s.takeWhile (!endsName ·) := by
  intro hmem
  have := List.mem_takeWhile_imp hmem
  simp [endsName] at this

include hf

theorem rename_eq_self {name : List Char} (h : '.' ∉ name) : rename f name = name := by
  rw [rename]
  cases himage : f (String.ofList name) with
  | none => rfl
  | some image =>
    have hsame := hf _ (by simpa using h) image himage
    simp [hsame]

/-- Reading the first character of a type copies it and what belongs to it. -/
theorem openType_eq_self (c : Char) (rest : List Char) :
    (openType f c rest).1 ++ (openType f c rest).2.2 = c :: rest ∧
      ∀ awaited ∈ (openType f c rest).2.1, awaited.IsDotless := by
  unfold openType
  split
  · dsimp only
    rw [rename_eq_self hf (dot_not_mem_takeWhile rest), List.cons_append, List.takeWhile_append_dropWhile]
    exact ⟨rfl, by simpa [Awaited.IsDotless] using dot_not_mem_takeWhile rest⟩
  · dsimp only
    rw [List.cons_append, List.cons_append, List.append_assoc, List.take_append_drop,
      List.takeWhile_append_dropWhile]
    exact ⟨rfl, by simp⟩
  · exact ⟨rfl, by simp [Awaited.IsDotless]⟩
  · exact ⟨rfl, by simp⟩

/-- A type is copied if what comes behind it is. -/
theorem openType_append_scan (c : Char) (rest : List Char) {stack : List Awaited}
    (h : ∀ awaited ∈ stack, awaited.IsDotless)
    (ih : (∀ awaited ∈ (openType f c rest).2.1 ++ stack, awaited.IsDotless) →
      scan f ((openType f c rest).2.1 ++ stack) (openType f c rest).2.2 = (openType f c rest).2.2) :
    (openType f c rest).1 ++
      scan f ((openType f c rest).2.1 ++ stack) (openType f c rest).2.2 = c :: rest := by
  obtain ⟨hcopy, hdotless⟩ := openType_eq_self hf c rest
  rw [ih (List.forall_mem_append.2 ⟨hdotless, h⟩), hcopy]

theorem scan_eq_self (stack : List Awaited) (s : List Char) (h : ∀ awaited ∈ stack, awaited.IsDotless) :
    scan f stack s = s := by
  fun_induction scan f stack s with
  | case1 => rfl
  | case3 c rest _ opened ih =>
    have hcopy := openType_append_scan hf c rest h (by simpa using ih)
    rwa [List.append_nil] at hcopy
  | case4 stack c rest opened ih =>
    exact openType_append_scan hf c rest (List.forall_mem_cons.1 h).2 ih
  | case12 stack c rest _ _ _ opened ih => exact openType_append_scan hf c rest h ih
  | case6 name stack rest inner full _ ih =>
    obtain ⟨hname, hstack⟩ := List.forall_mem_cons.1 h
    have hfull : '.' ∉ full := by
      simpa [full, Awaited.IsDotless] using ⟨hname, dot_not_mem_takeWhile rest⟩
    rw [ih (List.forall_mem_cons.2 ⟨hfull, hstack⟩), rename_eq_self hf hname, rename_eq_self hf hfull,
      innerSuffix_append, List.cons_append, List.takeWhile_append_dropWhile]
  | case15 stack c rest _ _ ih =>
    rw [ih (by simpa [Awaited.IsDotless] using h), List.cons_append, List.takeWhile_append_dropWhile]
  -- all other characters are copied one by one, and what they add to the stack holds no name
  | case2 | case5 | case7 | case8 | case9 | case10 | case11 | case13 | case14 | case16 | case17
  | case18 => grind [Awaited.IsDotless]

/-- Renaming changes no text where every name without a dot is kept. -/
theorem map_eq_self (text : String) : map f text = text := by
  rw [map]
  split
  · next rest htext =>
    rw [scan_eq_self hf [.parameters] rest (by simp [Awaited.IsDotless]), ← htext, String.ofList_toList]
  · rw [scan_eq_self hf [] _ (by simp), String.ofList_toList]

end JvmArchive.Signature
