/-!
# Cutting text

Ways to cut a list of characters at a separator, each with the fact that what follows the cut is
shorter, and at blanks.
-/
namespace JvmArchive.Text

/-- The text before and the text after the first occurrence of a character. -/
def cut? (c : Char) : List Char → Option (List Char × List Char)
  | [] => none
  | d :: rest =>
    if d = c then some ([], rest)
    else (cut? c rest).map fun (before, after) => (d :: before, after)

/-- The text before and the text after the last occurrence of a character. -/
def cutLast? (c : Char) : List Char → Option (List Char × List Char)
  | [] => none
  | d :: rest =>
    match cutLast? c rest with
    | some (before, after) => some (d :: before, after)
    | none => if d = c then some ([], rest) else none

/-- A cut puts the text back together around the separator. -/
theorem eq_append_of_cut? {c : Char} {s before after : List Char}
    (h : cut? c s = some (before, after)) : s = before ++ c :: after := by
  induction s generalizing before with
  | nil => simp [cut?] at h
  | cons d rest ih =>
    rw [cut?] at h
    split at h
    · next hd =>
      obtain ⟨rfl, rfl⟩ := Prod.mk.injEq .. ▸ Option.some.injEq .. ▸ h
      simp [hd]
    · obtain ⟨⟨b, a⟩, hb, hab⟩ := Option.map_eq_some_iff.1 h
      obtain ⟨rfl, rfl⟩ := Prod.mk.injEq .. ▸ hab
      simp [ih hb]

theorem length_after_cut? {c : Char} {s before after : List Char}
    (h : cut? c s = some (before, after)) : after.length < s.length := by
  rw [eq_append_of_cut? h]
  simp only [List.length_append, List.length_cons]
  omega

/-- The text after the last occurrence of a character, or the whole text without one. -/
def afterLast (c : Char) (s : List Char) : List Char :=
  match cutLast? c s with
  | some (_, after) => after
  | none => s

/-- What follows a leading word, if the text starts with it. -/
def dropLeading? : List Char → List Char → Option (List Char)
  | [], s => some s
  | _ :: _, [] => none
  | p :: ps, c :: cs => if p = c then dropLeading? ps cs else none

/-- The text before and the text after the first occurrence of a word. -/
def cutWord? (word : List Char) : List Char → Option (List Char × List Char)
  | [] => (dropLeading? word []).map fun after => ([], after)
  | c :: rest =>
    match dropLeading? word (c :: rest) with
    | some after => some ([], after)
    | none => (cutWord? word rest).map fun (before, after) => (c :: before, after)

/-- What precedes a trailing word, if the text ends with it. -/
def dropTrailing? (word s : List Char) : Option (List Char) :=
  (dropLeading? word.reverse s.reverse).map List.reverse

/-- The lines of a text, given its line feed and its carriage return. A line ends in a line feed, right
before which a carriage return is dropped, and the last line may lack its end. -/
def lines {α : Type} [DecidableEq α] (feed carriage : α) (s : List α) : List (List α) :=
  let pieces := s.splitOnP (· = feed)
  (pieces.dropLast.map fun line =>
      if line.getLast? = some carriage then line.dropLast else line) ++
    pieces.getLast?.toList.filter (!·.isEmpty)

/-- Every occurrence of one character replaced by another. -/
def replaceChar (old new : Char) (s : String) : String :=
  s.map fun c => if c = old then new else c

/-! ## Blank characters -/

/-- The space characters of every script: the ASCII controls from tab to carriage return, the space,
the next-line and no-break characters, and the spaces and separators of the general block. -/
def isBlank (c : Char) : Bool :=
  let n := c.toNat
  (0x09 ≤ n && n ≤ 0x0D) || n == 0x20 || n == 0x85 || n == 0xA0 || n == 0x1680 ||
    (0x2000 ≤ n && n ≤ 0x200A) || n == 0x2028 || n == 0x2029 || n == 0x202F || n == 0x205F ||
    n == 0x3000

/-- Drops blanks at the front. -/
def trimStart (cs : List Char) : List Char := cs.dropWhile isBlank

/-- Drops blanks at the end. -/
def trimEnd (cs : List Char) : List Char := (cs.reverse.dropWhile isBlank).reverse

/-- Drops blanks at both ends. -/
def trim (cs : List Char) : List Char := trimEnd (trimStart cs)

/-- The maximal runs of characters that are not blank. -/
def words (cs : List Char) : List (List Char) :=
  (cs.splitOnP isBlank).filter (!·.isEmpty)

/-- Whether a text is empty or blank throughout. -/
def isBlankText (cs : List Char) : Bool := cs.all isBlank

end JvmArchive.Text
