import JvmArchive.Archive.Manifest
import JvmArchive.Proofs.Table
import JvmArchive.Proofs.Text.Cut

/-!
# Attributes of manifests

Names of attributes are the same if they agree but for capitals. What is read from lines has names that
differ in more than that, without blanks around them and without a colon, and values that fit in lines.
-/
namespace JvmArchive

namespace Text

theorem sameFolded_iff {a b : String} : sameFolded a b = true ↔ foldCase a = foldCase b := beq_iff_eq

theorem sameFolded_self (a : String) : sameFolded a a = true := sameFolded_iff.2 rfl

theorem sameFolded_comm (a b : String) : sameFolded a b = sameFolded b a := Bool.beq_comm

/-- Names whose first letters differ are different. -/
theorem sameFolded_eq_false {a b : String} (h : a.toList.head?.map Char.toLower ≠
    b.toList.head?.map Char.toLower) : sameFolded a b = false := by
  rw [Bool.eq_false_iff, ne_eq, sameFolded_iff]
  intro hsame
  have hheads := congrArg (List.head? ∘ String.toList) hsame
  simp only [Function.comp_apply, foldCase, String.toList_map, List.head?_map] at hheads
  exact h hheads

/-- Names that are the same are the same as the same names. -/
theorem sameFolded_congr {a b : String} (h : sameFolded a b = true) (c : String) :
    sameFolded c a = sameFolded c b := by
  rw [sameFolded, sameFolded, sameFolded_iff.1 h]

end Text

namespace Manifest

variable {manifest : Manifest}

/-! ## Finding attributes -/

theorem keyOf?_eq (manifest : Manifest) (key : String) :
    manifest.keyOf? key = (manifest.toList.find? (Text.sameFolded ·.1 key)).map (·.1) := by
  rw [keyOf?, Table.keys, List.find?_map]
  rfl

/-- The value of an attribute is that of the first name that is the same. -/
theorem get?_eq (manifest : Manifest) (key : String) :
    manifest.get? key = (manifest.toList.find? (Text.sameFolded ·.1 key)).map (·.2) := by
  rw [get?, keyOf?_eq]
  cases h : manifest.toList.find? (Text.sameFolded ·.1 key) with
  | none => rfl
  | some entry =>
    rw [Option.map_some, Option.map_some, Option.bind_some]
    exact Table.get?_of_mem_entries (List.mem_of_find?_eq_some h)

theorem keyOf?_eq_none_iff {key : String} :
    manifest.keyOf? key = none ↔
      ∀ entry ∈ manifest.toList, Text.sameFolded entry.1 key = false := by
  rw [keyOf?_eq, Option.map_eq_none_iff, List.find?_eq_none]
  simp

/-- An attribute is set under any name that is the same. -/
theorem insert_keyOf? (manifest : Manifest) (key value : String) :
    manifest.insert ((manifest.keyOf? key).getD key) value = manifest.insert key value := by
  cases hkey : manifest.keyOf? key with
  | none => rfl
  | some found =>
    have hsame : Text.sameFolded found key = true := by
      rw [keyOf?] at hkey
      simpa using List.find?_some hkey
    have hfound : manifest.keyOf? found = some found := by
      rw [← hkey, keyOf?, keyOf?, funext (Text.sameFolded_congr hsame)]
    rw [Manifest.insert, Manifest.insert, hkey, Option.getD_some, hfound, Option.getD_some]

/-! ## What can be read -/

/-- Whether a name can stand before the colon of a line, and a value behind it. -/
structure IsAttribute (key value : String) : Prop where
  trimmed : Text.trim key.toList = key.toList
  colon : ':' ∉ key.toList
  name : '\n' ∉ key.toList
  value : '\n' ∉ value.toList

/-- Whether the attributes of a manifest can be read from lines, each from lines of its own. -/
structure Readable (manifest : Manifest) : Prop where
  entries : ∀ entry ∈ manifest.toList, IsAttribute entry.1 entry.2
  distinct : manifest.attributes.keys.Pairwise fun a b => Text.sameFolded a b = false

theorem readable_empty : Readable {} where
  entries entry h := by cases h
  distinct := .nil

/-- An attribute that is there gets the value, and one that is not comes behind the others. -/
theorem Readable.insert (h : manifest.Readable) {key value : String} (hnew : IsAttribute key value) :
    (manifest.insert key value).Readable := by
  rw [Manifest.insert]
  cases hkey : manifest.keyOf? key with
  | none =>
    have hdiffers := keyOf?_eq_none_iff.1 hkey
    have habsent : key ∉ manifest.attributes.entries.map (·.1) := by
      intro hmem
      obtain ⟨entry, hentry, rfl⟩ := List.mem_map.1 hmem
      exact absurd (hdiffers entry hentry) (by simp [Text.sameFolded_self])
    have hentries : (manifest.attributes.insert key value).entries =
        manifest.attributes.entries ++ [(key, value)] := Table.insertEntry_of_not_mem habsent
    constructor
    · intro entry hentry
      rw [toList, Option.getD_none, hentries, List.mem_append, List.mem_singleton] at hentry
      rcases hentry with hold | rfl
      · exact h.entries entry hold
      · exact hnew
    · rw [Table.keys, Option.getD_none, hentries, List.map_append, List.pairwise_append]
      refine ⟨h.distinct, by simp, fun a ha b hb => ?_⟩
      obtain ⟨entry, hentry, rfl⟩ := List.mem_map.1 ha
      obtain rfl : b = key := by simpa using hb
      exact hdiffers entry hentry
  | some found =>
    have hfound : found ∈ manifest.attributes.keys := List.mem_of_find?_eq_some hkey
    obtain ⟨⟨name, old⟩, hold, hname⟩ := List.mem_map.1 hfound
    constructor
    · intro entry hentry
      rw [toList, Option.getD_some] at hentry
      rcases Table.mem_entries_insert hentry with hlast | hmem
      · have hattr := h.entries _ hold
        rw [hlast, ← hname]
        exact ⟨hattr.trimmed, hattr.colon, hattr.name, hnew.value⟩
      · exact h.entries entry hmem
    · have hkeys : (manifest.attributes.insert found value).keys = manifest.attributes.keys :=
        (Table.map_fst_insertEntry _ _ _).trans (if_pos hfound)
      rw [Option.getD_some, hkeys]
      exact h.distinct

/-- A line goes on with the value of an attribute. -/
theorem Readable.update (h : manifest.Readable) (key : String) {more : List Char} (hmore : '\n' ∉ more) :
    Readable { attributes := manifest.attributes.update key (· ++ String.ofList more) } where
  entries entry hentry := by
    obtain ⟨⟨name, value⟩, hold, rfl⟩ := List.mem_map.1 hentry
    have hattr := h.entries _ hold
    refine ⟨hattr.trimmed, hattr.colon, hattr.name, ?_⟩
    dsimp only
    split
    · rw [String.toList_append, String.toList_ofList, List.mem_append, not_or]
      exact ⟨hattr.value, hmore⟩
    · exact hattr.value
  distinct := by
    have hkeys : (manifest.attributes.update key (· ++ String.ofList more)).keys =
        manifest.attributes.keys := by
      simp [Table.update, Table.map, Table.keys, Function.comp_def]
    rw [hkeys]
    exact h.distinct

/-! ## Reading -/

theorem mem_of_mem_lineText {line : List Char} {c : Char} (h : c ∈ lineText line) : c ∈ line := by
  rw [lineText] at h
  cases hfront : Text.dropTrailing? ['\r'] line with
  | none => simpa [hfront] using h
  | some front =>
    rw [hfront, Option.getD_some] at h
    rw [Text.eq_append_of_dropTrailing? hfront]
    exact List.mem_append_left _ h

theorem isAttribute_of_readAttribute {line : List Char} {key value : String} (hfeed : '\n' ∉ line)
    (h : readAttribute line = .ok (key, value)) : IsAttribute key value := by
  rw [readAttribute] at h
  split at h
  · rename_i before after hcut
    obtain ⟨rfl, rfl⟩ := Prod.mk.inj (Except.ok.inj h)
    have hline := Text.eq_append_of_cut? hcut
    have hcolon := Text.not_mem_of_cut? hcut
    have hbehind : '\n' ∉ (Text.dropLeading? [' '] after).getD after := by
      intro hmem
      refine hfeed (hline ▸ List.mem_append_right _ (List.mem_cons_of_mem _ ?_))
      cases hrest : Text.dropLeading? [' '] after with
      | none => simpa [hrest] using hmem
      | some rest =>
        rw [hrest, Option.getD_some] at hmem
        rw [Text.eq_append_of_dropLeading? hrest]
        exact List.mem_append_right _ hmem
    constructor
    · rw [String.toList_ofList, Text.trim_trim]
    · rw [String.toList_ofList]
      exact fun hmem => hcolon (Text.mem_of_mem_trim hmem)
    · rw [String.toList_ofList]
      exact fun hmem => hfeed (hline ▸ List.mem_append_left _ (Text.mem_of_mem_trim hmem))
    · rwa [String.toList_ofList]
  · cases h

/-- Lines that can be read leave attributes that can be read. -/
theorem readable_of_readLines {lines : List (List Char)} (hlines : ∀ line ∈ lines, '\n' ∉ line)
    {number : Nat} {last : Option String} {result : Manifest} (h : manifest.Readable)
    (hread : readLines lines number last manifest = .ok result) : result.Readable := by
  induction lines generalizing number last manifest with
  | nil =>
    cases hread
    exact h
  | cons line lines ih =>
    rw [List.forall_mem_cons] at hlines
    have htext : '\n' ∉ lineText line := fun hmem => hlines.1 (mem_of_mem_lineText hmem)
    rw [readLines] at hread
    split at hread
    · cases hread
      exact h
    · rename_i more hline
      split at hread
      · cases hread
      · refine ih hlines.2 (h.update _ ?_) hread
        exact fun hmem => htext (hline ▸ List.mem_cons_of_mem _ hmem)
    · split at hread
      · cases hread
      · rename_i key value hread'
        have hnew := isAttribute_of_readAttribute htext hread'
        dsimp only at hread
        rw [insert_keyOf?] at hread
        exact ih hlines.2 (h.insert hnew) hread

/-- The attributes of a manifest that was read can be read. -/
theorem readable_of_ofBytes {bytes : List UInt8} (h : ofBytes bytes = .ok manifest) :
    manifest.Readable :=
  readable_of_readLines (fun _ => Text.not_mem_of_mem_splitOnP) readable_empty h

end Manifest
end JvmArchive
