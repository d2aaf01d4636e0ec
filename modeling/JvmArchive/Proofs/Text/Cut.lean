import JvmArchive.Text.Cut

/-!
# Cutting text that was put together

Cutting a text gives back the parts that it was put together from, if these are free of the separator,
and trimming one drops nothing if it starts and ends in something else than a blank.
-/
namespace JvmArchive.Text

/-! ## Single characters -/

/-- A text is cut at the first place of the separator. -/
theorem cut?_append {c : Char} {before : List Char} (h : c ∉ before) (after : List Char) :
    cut? c (before ++ c :: after) = some (before, after) := by
  induction before with
  | nil => simp [cut?]
  | cons d before ih =>
    rw [List.mem_cons, not_or] at h
    rw [List.cons_append, cut?, if_neg fun hd => h.1 hd.symm, ih h.2]
    rfl

/-- A cut stops at the first place of the separator. -/
theorem not_mem_of_cut? {c : Char} {s before after : List Char} (h : cut? c s = some (before, after)) :
    c ∉ before := by
  induction s generalizing before with
  | nil => simp [cut?] at h
  | cons d s ih =>
    rw [cut?] at h
    split at h
    · obtain ⟨rfl, -⟩ := Prod.mk.inj (Option.some.inj h)
      simp
    · rename_i hd
      obtain ⟨⟨front, back⟩, hfront, hcut⟩ := Option.map_eq_some_iff.1 h
      obtain ⟨rfl, rfl⟩ := Prod.mk.inj hcut
      rw [List.mem_cons, not_or]
      exact ⟨fun hc => hd hc.symm, ih hfront⟩

theorem cut?_eq_none {c : Char} {s : List Char} (h : c ∉ s) : cut? c s = none := by
  induction s with
  | nil => rfl
  | cons d s ih =>
    rw [List.mem_cons, not_or] at h
    rw [cut?, if_neg fun hd => h.1 hd.symm, ih h.2]
    rfl

theorem length_get_cut? {c : Char} {s : List Char} (h : (cut? c s).isSome) :
    ((cut? c s).get h).2.length < s.length := by
  obtain ⟨⟨before, after⟩, hcut⟩ := Option.isSome_iff_exists.1 h
  simp only [hcut, Option.get_some]
  exact length_after_cut? hcut

theorem cutLast?_eq_none {c : Char} {s : List Char} (h : c ∉ s) : cutLast? c s = none := by
  induction s with
  | nil => rfl
  | cons d s ih =>
    rw [List.mem_cons, not_or] at h
    rw [cutLast?, ih h.2]
    exact if_neg fun hd => h.1 hd.symm

theorem cutLast?_append {c : Char} {after : List Char} (h : c ∉ after) (before : List Char) :
    cutLast? c (before ++ c :: after) = some (before, after) := by
  induction before with
  | nil => simp [cutLast?, cutLast?_eq_none h]
  | cons d before ih => simp [cutLast?, ih]

/-- What follows the last place of a separator. -/
theorem afterLast_append {c : Char} {after : List Char} (h : c ∉ after) (before : List Char) :
    afterLast c (before ++ c :: after) = after := by
  rw [afterLast, cutLast?_append h]

/-- A text with the separator in it has a last place of it. -/
theorem exists_cutLast? {c : Char} {s : List Char} (h : c ∈ s) :
    ∃ before after, c ∉ after ∧ s = before ++ c :: after := by
  obtain ⟨after, before, hreverse, hafter⟩ := List.eq_append_cons_of_mem (List.mem_reverse.2 h)
  refine ⟨before.reverse, after.reverse, by simpa using hafter, ?_⟩
  rw [← List.reverse_reverse s, hreverse]
  simp

/-- Nothing before a place of the separator matters to what follows the last one. -/
theorem afterLast_append_cons (c : Char) (before after : List Char) :
    afterLast c (before ++ c :: after) = afterLast c after := by
  by_cases h : c ∈ after
  · obtain ⟨front, back, hback, rfl⟩ := exists_cutLast? h
    have hfront : before ++ c :: (front ++ c :: back) = (before ++ c :: front) ++ c :: back := by simp
    rw [hfront, afterLast_append hback, afterLast_append hback]
  · rw [afterLast_append h, afterLast, cutLast?_eq_none h]

/-- A text is all that follows its last separator exactly if it has none. -/
theorem afterLast_eq_self_iff {c : Char} {s : List Char} : afterLast c s = s ↔ c ∉ s := by
  constructor
  · intro hsame hmem
    obtain ⟨before, after, hafter, rfl⟩ := exists_cutLast? hmem
    rw [afterLast_append hafter] at hsame
    have := congrArg List.length hsame
    simp only [List.length_append, List.length_cons] at this
    omega
  · intro h
    rw [afterLast, cutLast?_eq_none h]

/-- What stands before a rest is found by its length. -/
theorem take_length_sub (front back : List Char) :
    (front ++ back).take ((front ++ back).length - back.length) = front := by
  rw [List.length_append, Nat.add_sub_cancel, List.take_left]

/-! ## Words -/

theorem dropLeading?_append (word s : List Char) : dropLeading? word (word ++ s) = some s := by
  induction word with
  | nil => rfl
  | cons c word ih => rw [List.cons_append, dropLeading?, if_pos rfl, ih]

theorem dropTrailing?_append (s word : List Char) : dropTrailing? word (s ++ word) = some s := by
  rw [dropTrailing?, List.reverse_append, dropLeading?_append, Option.map_some, List.reverse_reverse]

theorem eq_append_of_dropLeading? {word s rest : List Char} (h : dropLeading? word s = some rest) :
    s = word ++ rest := by
  induction word generalizing s with
  | nil => simpa [dropLeading?] using h
  | cons c word ih =>
    cases s with
    | nil => simp [dropLeading?] at h
    | cons d s =>
      rw [dropLeading?, Option.ite_none_right_eq_some] at h
      rw [List.cons_append, h.1, ih h.2]

theorem eq_append_of_dropTrailing? {word s front : List Char} (h : dropTrailing? word s = some front) :
    s = front ++ word := by
  obtain ⟨back, hback, rfl⟩ := Option.map_eq_some_iff.1 h
  have hreverse := congrArg List.reverse (eq_append_of_dropLeading? hback)
  simpa using hreverse

theorem cutWord?_cons_append (c : Char) (word after : List Char) :
    cutWord? (c :: word) (c :: word ++ after) = some ([], after) := by
  rw [List.cons_append, cutWord?, ← List.cons_append, dropLeading?_append]

/-- A cut goes past everything that is no place of the word. -/
theorem cutWord?_cons {word : List Char} {c : Char} {s : List Char}
    (h : dropLeading? word (c :: s) = none) :
    cutWord? word (c :: s) = (cutWord? word s).map fun cut => (c :: cut.1, cut.2) := by
  rw [cutWord?, h]

theorem cutWord?_append {first : Char} {front : List Char} (h : first ∉ front) (word s : List Char) :
    cutWord? (first :: word) (front ++ s) =
      (cutWord? (first :: word) s).map fun cut => (front ++ cut.1, cut.2) := by
  induction front with
  | nil => simp
  | cons c front ih =>
    rw [List.mem_cons, not_or] at h
    rw [List.cons_append, cutWord?_cons (by rw [dropLeading?, if_neg h.1]), ih h.2, Option.map_map]
    rfl

/-! ## Lines -/

theorem splitOnP_flatMap {α : Type} [DecidableEq α] {feed : α} {parts : List (List α)}
    (h : ∀ part ∈ parts, feed ∉ part) :
    (parts.flatMap (· ++ [feed])).splitOnP (· = feed) = parts ++ [[]] := by
  induction parts with
  | nil => rfl
  | cons part parts ih =>
    rw [List.forall_mem_cons] at h
    have hpart : ∀ c ∈ part, decide (c = feed) = false := by
      intro c hc
      rw [decide_eq_false_iff_not]
      rintro rfl
      exact h.1 hc
    rw [List.flatMap_cons, List.append_assoc, List.singleton_append,
      List.splitOnP_append_cons_of_forall_mem hpart feed (decide_eq_true rfl), ih h.2]
    rfl

/-- The parts of a text between separators are free of them. -/
theorem not_mem_of_mem_splitOnP {α : Type} [DecidableEq α] {feed : α} {s part : List α}
    (h : part ∈ s.splitOnP (· = feed)) : feed ∉ part := by
  induction s generalizing part with
  | nil =>
    rw [List.splitOnP_nil, List.mem_singleton] at h
    simp [h]
  | cons c s ih =>
    rw [List.splitOnP_cons_eq_if_modifyHead] at h
    split at h
    · rcases List.mem_cons.1 h with rfl | hrest
      · simp
      · exact ih hrest
    · rename_i hc
      cases hparts : s.splitOnP (· = feed) with
      | nil => exact absurd hparts (List.splitOnP_ne_nil _ _)
      | cons first parts =>
        rw [hparts] at h ih
        rcases List.mem_cons.1 h with rfl | hrest
        · rw [List.mem_cons, not_or]
          exact ⟨fun hfeed => hc (decide_eq_true hfeed.symm), ih List.mem_cons_self⟩
        · exact ih (List.mem_cons_of_mem _ hrest)

/-- The lines of a text that was put together from lines. -/
theorem lines_flatMap {α : Type} [DecidableEq α] {feed carriage : α} {parts : List (List α)}
    (hfeed : ∀ part ∈ parts, feed ∉ part)
    (hcarriage : ∀ part ∈ parts, part.getLast? ≠ some carriage) :
    lines feed carriage (parts.flatMap (· ++ [feed])) = parts := by
  have hkept : parts.map (fun part =>
      if part.getLast? = some carriage then part.dropLast else part) = parts :=
    (List.map_congr_left fun part hpart => if_neg (hcarriage part hpart)).trans (List.map_id' parts)
  rw [lines, splitOnP_flatMap hfeed, List.dropLast_concat, List.getLast?_concat]
  simp [hkept]

/-- The parts of a list that was joined by separators. -/
theorem splitOnP_intercalate {separator : Char} {parts : List (List Char)}
    (h : ∀ part ∈ parts, separator ∉ part) (hne : parts ≠ []) :
    ([separator].intercalate parts).splitOnP (· = separator) = parts :=
  List.splitOn_intercalate separator h hne

theorem mem_intercalate {separator c : Char} {parts : List (List Char)}
    (h : c ∈ [separator].intercalate parts) : c = separator ∨ ∃ part ∈ parts, c ∈ part := by
  induction parts with
  | nil => simp at h
  | cons part parts ih =>
    cases parts with
    | nil => exact .inr ⟨part, List.mem_cons_self, by simpa using h⟩
    | cons next parts =>
      rw [List.intercalate_cons_cons, List.mem_append, List.mem_append, List.mem_singleton] at h
      rcases h with (hpart | hsep) | hrest
      · exact .inr ⟨part, List.mem_cons_self, hpart⟩
      · exact .inl hsep
      · rcases ih hrest with hsep | ⟨other, hother, hc⟩
        · exact .inl hsep
        · exact .inr ⟨other, List.mem_cons_of_mem _ hother, hc⟩

/-! ## Blanks -/

theorem dropWhile_isBlank_eq {s : List Char} (h : ∀ c ∈ s.head?, isBlank c = false) :
    s.dropWhile isBlank = s := by
  cases s with
  | nil => rfl
  | cons c s => rw [List.dropWhile_cons, h c rfl, if_neg Bool.false_ne_true]

theorem trimStart_eq {s : List Char} (h : ∀ c ∈ s.head?, isBlank c = false) : trimStart s = s :=
  dropWhile_isBlank_eq h

theorem trimEnd_eq {s : List Char} (h : ∀ c ∈ s.getLast?, isBlank c = false) : trimEnd s = s := by
  rw [trimEnd, dropWhile_isBlank_eq (by rwa [List.head?_reverse]), List.reverse_reverse]

theorem mem_of_mem_trim {s : List Char} {c : Char} (h : c ∈ trim s) : c ∈ s := by
  rw [trim, trimEnd, List.mem_reverse] at h
  exact (List.dropWhile_suffix _).mem (List.mem_reverse.1 ((List.dropWhile_suffix _).mem h))

theorem blank_head_dropWhile {s : List Char} : ∀ c ∈ (s.dropWhile isBlank).head?, isBlank c = false := by
  intro c hc
  have hhead := List.head?_dropWhile_not isBlank s
  rw [Option.mem_def] at hc
  rwa [hc] at hhead

/-- What has been trimmed starts with no blank. -/
theorem blank_head_trim {s : List Char} : ∀ c ∈ (trim s).head?, isBlank c = false := by
  intro c hc
  obtain ⟨rest, hrest⟩ := List.head?_eq_some_iff.1 hc
  obtain ⟨back, hback⟩ := List.dropWhile_suffix isBlank (l := (trimStart s).reverse)
  have hfront : trimStart s = trim s ++ back.reverse := by
    rw [← List.reverse_reverse (trimStart s), ← hback, List.reverse_append]
    rfl
  have hstart : (trimStart s).head? = some c := by
    rw [hfront, hrest]
    rfl
  exact blank_head_dropWhile c hstart

/-- Trimming once more drops nothing. -/
theorem trim_trim (s : List Char) : trim (trim s) = trim s := by
  have hlast : ∀ c ∈ (trim s).getLast?, isBlank c = false := by
    rw [trim, trimEnd, List.getLast?_reverse]
    exact blank_head_dropWhile
  rw [trim, trimStart_eq blank_head_trim, trimEnd_eq hlast]

theorem trim_append_left {indent : List Char} (h : ∀ c ∈ indent, isBlank c = true) (s : List Char) :
    trim (indent ++ s) = trim s := by
  rw [trim, trimStart, List.dropWhile_append_of_pos h]
  rfl

/-- What a test says of every character of a list. -/
theorem forall_mem_of_all {s : List Char} {p : Char → Prop} [DecidablePred p]
    (h : s.all (fun c => decide (p c)) = true) : ∀ c ∈ s, p c :=
  fun c hc => of_decide_eq_true (List.all_eq_true.1 h c hc)

/-- Whether a text is free of blanks and not empty. -/
structure IsWord (s : List Char) : Prop where
  ne_nil : s ≠ []
  blank : ∀ c ∈ s, isBlank c = false

namespace IsWord

variable {front back s : List Char}

theorem append (h : IsWord s) (hback : ∀ c ∈ back, isBlank c = false) : IsWord (s ++ back) where
  ne_nil := by simp [h.ne_nil]
  blank c hc := (List.mem_append.1 hc).elim (h.blank c) (hback c)

theorem not_mem {c : Char} (h : IsWord s) (hc : isBlank c = true) : c ∉ s := by
  intro hmem
  rw [h.blank c hmem] at hc
  cases hc

theorem blank_head (h : IsWord s) (back : List Char) : ∀ c ∈ (s ++ back).head?, isBlank c = false := by
  obtain ⟨first, rest, rfl⟩ := List.exists_cons_of_ne_nil h.ne_nil
  rintro c hc
  obtain rfl : first = c := by simpa using hc
  exact h.blank first List.mem_cons_self

theorem blank_last (h : IsWord s) (front : List Char) :
    ∀ c ∈ (front ++ s).getLast?, isBlank c = false := by
  intro c hc
  have hlast : s.getLast? = some (s.getLast h.ne_nil) := List.getLast?_eq_some_getLast h.ne_nil
  rw [List.getLast?_append, hlast, Option.some_or] at hc
  obtain rfl : s.getLast h.ne_nil = c := Option.some.inj hc
  exact h.blank _ (List.getLast_mem h.ne_nil)

/-- Nothing is trimmed between two words. -/
theorem trim_append (hfront : IsWord front) (hback : IsWord back) (between : List Char) :
    trim (front ++ between ++ back) = front ++ between ++ back := by
  rw [trim, trimStart_eq (List.append_assoc .. ▸ hfront.blank_head _),
    trimEnd_eq (hback.blank_last _)]

theorem trim_eq (h : IsWord s) : trim s = s := by
  have hhead := h.blank_head []
  rw [List.append_nil] at hhead
  have hlast : ∀ c ∈ s.getLast?, isBlank c = false := h.blank_last []
  rw [trim, trimStart_eq hhead, trimEnd_eq hlast]

end IsWord

/-- The pieces of a text that was put together from words, each but the first behind a blank. -/
theorem splitOnP_isBlank_append {first : List Char} {parts : List (List Char)}
    (hfirst : ∀ c ∈ first, isBlank c = false) (h : ∀ part ∈ parts, IsWord part) :
    (first ++ parts.flatMap (' ' :: ·)).splitOnP isBlank = first :: parts := by
  induction parts generalizing first with
  | nil => simpa using List.splitOnP_eq_singleton hfirst
  | cons part parts ih =>
    rw [List.forall_mem_cons] at h
    rw [List.flatMap_cons, List.cons_append,
      List.splitOnP_append_cons_of_forall_mem hfirst ' ' rfl, ih h.1.blank h.2]

/-- The words of a text that was put together from words, each behind a blank. -/
theorem words_flatMap {parts : List (List Char)} (h : ∀ part ∈ parts, IsWord part) :
    words (parts.flatMap (' ' :: ·)) = parts := by
  have hpieces : ([] ++ parts.flatMap (' ' :: ·)).splitOnP isBlank = [] :: parts :=
    splitOnP_isBlank_append (by simp) h
  rw [List.nil_append] at hpieces
  rw [words, hpieces, List.filter_cons_of_neg (by simp), List.filter_eq_self]
  intro part hpart
  simpa using (h part hpart).ne_nil

/-! ## Replaced characters -/

theorem toList_replaceChar (old new : Char) (s : String) :
    (replaceChar old new s).toList = s.toList.map fun c => if c = old then new else c := by
  rw [replaceChar, String.toList_map]

theorem mem_replaceChar {old new c : Char} {s : String} (h : c ∈ (replaceChar old new s).toList) :
    c ∈ s.toList ∨ c = new := by
  rw [toList_replaceChar] at h
  obtain ⟨before, hbefore, rfl⟩ := List.mem_map.1 h
  split
  · exact .inr rfl
  · exact .inl hbefore

theorem IsWord.replaceChar {old new : Char} {s : String} (h : IsWord s.toList)
    (hnew : isBlank new = false) : IsWord (replaceChar old new s).toList where
  ne_nil := by
    rw [toList_replaceChar]
    simpa using h.ne_nil
  blank c hc := (mem_replaceChar hc).elim (h.blank c) fun hsame => hsame ▸ hnew

theorem replaceChar_of_not_mem {old : Char} {s : String} (h : old ∉ s.toList) (new : Char) :
    replaceChar old new s = s := by
  refine String.toList_inj.1 ?_
  rw [toList_replaceChar]
  refine (List.map_congr_left fun c hc => ?_).trans (List.map_id' _)
  exact if_neg fun hsame : c = old => h (hsame ▸ hc)

/-- Replacing a character is taken back where the other one did not stand before. -/
theorem replaceChar_replaceChar {old new : Char} {s : String} (h : new ∉ s.toList) :
    replaceChar new old (replaceChar old new s) = s := by
  have hback : ∀ c ∈ s.toList,
      (if (if c = old then new else c) = new then old else if c = old then new else c) = c := by
    intro c hc
    by_cases hold : c = old
    · rw [if_pos hold, if_pos rfl, hold]
    · rw [if_neg hold, if_neg fun hnew : c = new => h (hnew ▸ hc)]
  refine String.toList_inj.1 ?_
  rw [toList_replaceChar, toList_replaceChar, List.map_map]
  exact (List.map_congr_left hback).trans (List.map_id' _)

end JvmArchive.Text
