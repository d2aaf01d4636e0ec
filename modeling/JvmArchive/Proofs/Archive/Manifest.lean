import JvmArchive.Proofs.Archive.Attributes
import JvmArchive.Proofs.Text.Utf8
import Mathlib.Data.List.Basic
import Mathlib.Data.List.Find

/-!
# Manifests read back

An attribute is written in lines of its own, none of them longer than the limit. The first one holds its
name and the colon if the name has at most 71 bytes, and then reading these lines sets the attribute. So a
manifest whose names are not too long is read from what is written of it, with its version moved to the
front and spelled as usual.
-/
namespace JvmArchive.Manifest

variable {manifest : Manifest}

/-! ## Lines of attributes -/

/-- The lines that a text is broken into: the first one, and the others without their spaces. -/
def breakLines : Nat → List Char → List Char × List (List Char)
  | _, [] => ([], [])
  | room, c :: rest =>
    if c.utf8Size ≤ room then
      let lines := breakLines (room - c.utf8Size) rest
      (c :: lines.1, lines.2)
    else
      let lines := breakLines (lineLimit - 1 - c.utf8Size) rest
      ([], (c :: lines.1) :: lines.2)

theorem wrap_eq (room : Nat) (text : List Char) :
    wrap room text =
      (breakLines room text).1 ++ (breakLines room text).2.flatMap ('\r' :: '\n' :: ' ' :: ·) := by
  induction text generalizing room with
  | nil => rfl
  | cons c text ih =>
    rw [wrap, breakLines]
    split
    · rw [ih]
      rfl
    · rw [ih]
      simp

theorem flatten_breakLines (room : Nat) (text : List Char) :
    (breakLines room text).1 ++ (breakLines room text).2.flatten = text := by
  induction text generalizing room with
  | nil => rfl
  | cons c text ih =>
    rw [breakLines]
    split
    · exact congrArg (c :: ·) (ih _)
    · simpa using ih _

/-- What the line has room for is not broken. -/
theorem breakLines_append {room : Nat} {front : List Char} (h : (Text.utf8 front).length ≤ room)
    (back : List Char) :
    breakLines room (front ++ back) =
      (front ++ (breakLines (room - (Text.utf8 front).length) back).1,
        (breakLines (room - (Text.utf8 front).length) back).2) := by
  induction front generalizing room with
  | nil => rfl
  | cons c front ih =>
    rw [Text.length_utf8_cons] at h ⊢
    rw [List.cons_append, breakLines, if_pos (by omega), ih (by omega), Nat.sub_sub]
    rfl

/-- No line is longer than its room, and those behind a space have one byte less. -/
theorem length_breakLines (room : Nat) (text : List Char) :
    (Text.utf8 (breakLines room text).1).length ≤ room ∧
      ∀ more ∈ (breakLines room text).2, (Text.utf8 more).length ≤ lineLimit - 1 := by
  induction text generalizing room with
  | nil => simp [breakLines, Text.utf8]
  | cons c text ih =>
    have hsize : c.utf8Size ≤ lineLimit - 1 := Nat.le_trans c.utf8Size_le_four (by decide)
    rw [breakLines]
    split
    · obtain ⟨hfirst, hlater⟩ := ih (room - c.utf8Size)
      refine ⟨?_, hlater⟩
      rw [Text.length_utf8_cons]
      omega
    · obtain ⟨hfirst, hlater⟩ := ih (lineLimit - 1 - c.utf8Size)
      refine ⟨Nat.zero_le _, List.forall_mem_cons.2 ⟨?_, hlater⟩⟩
      rw [Text.length_utf8_cons]
      omega

/-- The lines that an attribute is written in, without their ends. -/
def linesOf (key value : String) : List (List Char) :=
  let lines := breakLines lineLimit (key ++ ": " ++ value).toList
  lines.1 :: lines.2.map (' ' :: ·)

theorem attributeText_eq (key value : String) :
    attributeText key value = (linesOf key value).flatMap (· ++ ['\r', '\n']) := by
  -- each break ends one line and starts the next one
  have hlater : ∀ later : List (List Char),
      later.flatMap ('\r' :: '\n' :: ' ' :: ·) ++ ['\r', '\n'] =
        ['\r', '\n'] ++ (later.map (' ' :: ·)).flatMap (· ++ ['\r', '\n']) := by
    intro later
    induction later with
    | nil => rfl
    | cons more later ih => simpa using ih
  rw [attributeText, wrap_eq, linesOf, List.flatMap_cons, List.append_assoc, hlater,
    List.append_assoc]

/-- Every line fits, with its space. -/
theorem length_linesOf_le (key value : String) :
    ∀ line ∈ linesOf key value, (Text.utf8 line).length ≤ lineLimit := by
  obtain ⟨hfirst, hlater⟩ := length_breakLines lineLimit (key ++ ": " ++ value).toList
  refine List.forall_mem_cons.2 ⟨hfirst, List.forall_mem_map.2 fun more hmore => ?_⟩
  have hlength := hlater more hmore
  rw [Text.length_utf8_cons]
  exact Nat.add_le_of_le_sub' (by decide) hlength

theorem toList_attribute (key value : String) :
    (key ++ ": " ++ value).toList = (key.toList ++ [':']) ++ ' ' :: value.toList := by
  rw [String.toList_append, String.toList_append, List.append_assoc, List.append_assoc]
  rfl

theorem not_mem_linesOf {key value : String} (h : IsAttribute key value) :
    ∀ line ∈ linesOf key value, '\n' ∉ line := by
  have htext : '\n' ∉ (key ++ ": " ++ value).toList := by
    rw [toList_attribute]
    simpa using ⟨h.name, h.value⟩
  rw [← flatten_breakLines lineLimit (key ++ ": " ++ value).toList, List.mem_append, not_or] at htext
  refine List.forall_mem_cons.2 ⟨htext.1, List.forall_mem_map.2 fun more hmore => ?_⟩
  have hfree : '\n' ∉ more := fun hfeed => htext.2 (List.mem_flatten.2 ⟨more, hmore, hfeed⟩)
  simpa using hfree

/-- A name of at most 71 bytes stands in the first line with its colon. -/
theorem linesOf_of_le {key : String} (hkey : (Text.utf8 key.toList).length ≤ 71) (value : String) :
    linesOf key value =
      let behind := breakLines (71 - (Text.utf8 key.toList).length) (' ' :: value.toList)
      (key.toList ++ ':' :: behind.1) :: behind.2.map (' ' :: ·) := by
  have hlength : (Text.utf8 (key.toList ++ [':'])).length = (Text.utf8 key.toList).length + 1 := by
    rw [Text.utf8, List.flatMap_append, List.length_append]
    rfl
  have hroom : lineLimit - (Text.utf8 (key.toList ++ [':'])).length =
      71 - (Text.utf8 key.toList).length := by
    rw [hlength, lineLimit]
    omega
  rw [linesOf, toList_attribute, breakLines_append (by rw [hlength, lineLimit]; omega), hroom]
  simp

/-- The colon behind a name of more than 71 bytes comes in a later line. -/
theorem exists_linesOf_of_lt {key value : String} (h : IsAttribute key value)
    (hkey : 71 < (Text.utf8 key.toList).length) :
    ∃ first later, linesOf key value = first :: later ∧ ':' ∉ first ∧
      ∃ c rest, first = c :: rest ∧ c ≠ ' ' := by
  obtain ⟨c, front, hfront⟩ : ∃ c front, key.toList = c :: front :=
    List.exists_cons_of_ne_nil fun hnil => by simp [hnil, Text.utf8] at hkey
  have htext := flatten_breakLines lineLimit (key ++ ": " ++ value).toList
  have hlength := (length_breakLines lineLimit (key ++ ": " ++ value).toList).1
  have hsize : c.utf8Size ≤ lineLimit := Nat.le_trans c.utf8Size_le_four (by decide)
  refine ⟨_, _, rfl, fun hcolon => ?_, c, ?_⟩
  · -- a line that reaches the colon holds the whole name
    have hline : (breakLines lineLimit (key ++ ": " ++ value).toList).1 <+:
        key.toList ++ ':' :: ' ' :: value.toList := by
      refine ⟨_, htext.trans ?_⟩
      rw [toList_attribute, List.append_assoc]
      rfl
    have hprefix : (key.toList ++ [':']) <+: (breakLines lineLimit (key ++ ": " ++ value).toList).1 := by
      refine List.prefix_of_prefix_length_le ⟨' ' :: value.toList, by simp⟩ hline ?_
      by_contra hshort
      rw [List.length_append, List.length_singleton] at hshort
      have hwithin := List.prefix_of_prefix_length_le hline (List.prefix_append key.toList _) (by omega)
      exact h.colon (hwithin.subset hcolon)
    obtain ⟨rest, hrest⟩ := hprefix
    rw [← hrest, Text.utf8, List.flatMap_append, List.flatMap_append, List.length_append,
      List.length_append] at hlength
    have hone : (Text.utf8 [':']).length = 1 := rfl
    rw [lineLimit] at hlength
    rw [Text.utf8] at hkey hone
    omega
  · refine ⟨(breakLines (lineLimit - c.utf8Size) (front ++ ':' :: ' ' :: value.toList)).1, ?_, ?_⟩
    · rw [toList_attribute, hfront, List.append_assoc, List.cons_append, breakLines, if_pos hsize]
      rfl
    · rintro rfl
      have hhead := Text.blank_head_trim (s := key.toList) ' ' (by rw [h.trimmed, hfront]; rfl)
      exact absurd hhead (by decide)

/-! ## Reading one attribute -/

theorem lineText_append (line : List Char) : lineText (line ++ ['\r']) = line := by
  rw [lineText, Text.dropTrailing?_append, Option.getD_some]

theorem readLines_continuations (later : List (List Char)) (rest : List (List Char)) (number : Nat)
    (key : String) (manifest : Manifest) :
    ∃ next, readLines ((later.map (' ' :: ·)).map (· ++ ['\r']) ++ rest) number (some key) manifest =
      readLines rest next (some key)
        { attributes := manifest.attributes.update key (· ++ String.ofList later.flatten) } := by
  induction later generalizing number manifest with
  | nil =>
    have hnothing : ∀ value : String, value ++ String.ofList [].flatten = value := fun _ =>
      String.append_empty
    refine ⟨number, ?_⟩
    rw [Table.update_of_eq hnothing]
    rfl
  | cons more later ih =>
    obtain ⟨next, hnext⟩ := ih (number + 1)
      { attributes := manifest.attributes.update key (· ++ String.ofList more) }
    refine ⟨next, ?_⟩
    rw [List.map_cons, List.map_cons, List.cons_append, readLines, lineText_append]
    refine hnext.trans ?_
    rw [Table.update_update]
    simp only [List.flatten_cons, String.ofList_append, String.append_assoc]

/-- What is read of a value. Behind a name of 71 bytes there is no room for the space, which starts the
next line behind the one that marks it. -/
def valueRead (key value : String) : String :=
  if (Text.utf8 key.toList).length = 71 then " " ++ value else value

/-- Where the space behind the colon stands decides whether it is read as part of the value. -/
theorem valueRead_eq {key : String} (hkey : (Text.utf8 key.toList).length ≤ 71) (value : String) :
    let behind := breakLines (71 - (Text.utf8 key.toList).length) (' ' :: value.toList)
    String.ofList ((Text.dropLeading? [' '] behind.1).getD behind.1) ++ String.ofList behind.2.flatten =
      valueRead key value := by
  have hspace : (' ' : Char).utf8Size = 1 := rfl
  have hvalue : ∀ room, (breakLines room value.toList).1 ++ (breakLines room value.toList).2.flatten =
      value.toList := fun room => flatten_breakLines room value.toList
  dsimp only
  rw [breakLines, hspace, valueRead, ← String.ofList_append]
  split
  · rw [if_neg (by omega), ← String.toList_inj, String.toList_ofList]
    exact hvalue _
  · rw [if_pos (by omega), ← String.toList_inj, String.toList_ofList, String.toList_append]
    exact congrArg (' ' :: ·) (hvalue _)

/-- Reading the lines of an attribute sets it, if its name leaves room for the colon. -/
theorem readLines_linesOf {key value : String} (h : IsAttribute key value)
    (hkey : (Text.utf8 key.toList).length ≤ 71) (hnew : manifest.keyOf? key = none)
    (rest : List (List Char)) (number : Nat) (last : Option String) :
    ∃ next, readLines ((linesOf key value).map (· ++ ['\r']) ++ rest) number last manifest =
      readLines rest next (some key) (manifest.insert key (valueRead key value)) := by
  have hvalue := valueRead_eq hkey value
  rw [linesOf_of_le hkey]
  generalize breakLines (71 - (Text.utf8 key.toList).length) (' ' :: value.toList) = behind at hvalue ⊢
  obtain ⟨first, later⟩ := behind
  dsimp only at hvalue ⊢
  have hread : readAttribute (key.toList ++ ':' :: first) =
      .ok (key, String.ofList ((Text.dropLeading? [' '] first).getD first)) := by
    rw [readAttribute, Text.cut?_append h.colon]
    simp only [h.trimmed, String.ofList_toList]
    rfl
  have hinsert : ∀ value, manifest.insert key value =
      { attributes := manifest.attributes.insert key value } := by
    intro value
    rw [Manifest.insert, hnew, Option.getD_none]
  obtain ⟨next, hnext⟩ := readLines_continuations later rest (number + 1) key
    (manifest.insert key (String.ofList ((Text.dropLeading? [' '] first).getD first)))
  refine ⟨next, ?_⟩
  rw [List.map_cons, List.cons_append, readLines, lineText_append]
  split
  · rename_i hnil
    simp at hnil
  · rename_i more hspace
    -- the line starts with the name or with the colon, and neither starts with a space
    exfalso
    cases hchars : key.toList with
    | nil => simp [hchars] at hspace
    | cons c front =>
      rw [hchars, List.cons_append, List.cons.injEq] at hspace
      have hhead := Text.blank_head_trim (s := key.toList) ' ' (by rw [h.trimmed, hchars, hspace.1]; rfl)
      exact absurd hhead (by decide)
  · rw [hread]
    dsimp only
    rw [hnew, Option.getD_none]
    refine hnext.trans ?_
    rw [hinsert, Table.update_insert, hvalue, hinsert]

/-- A longer name is read as a line without a colon. -/
theorem readLines_linesOf_of_lt {key value : String} (h : IsAttribute key value)
    (hkey : 71 < (Text.utf8 key.toList).length) (rest : List (List Char)) (number : Nat)
    (last : Option String) (manifest : Manifest) :
    ∃ error, readLines ((linesOf key value).map (· ++ ['\r']) ++ rest) number last manifest =
      .error error := by
  obtain ⟨first, later, hlines, hcolon, c, front, rfl, hspace⟩ := exists_linesOf_of_lt h hkey
  have hread : ∃ details, readAttribute (c :: front) = .error details :=
    ⟨_, by rw [readAttribute, Text.cut?_eq_none hcolon]; rfl⟩
  obtain ⟨details, hdetails⟩ := hread
  refine ⟨.manifest number details, ?_⟩
  rw [hlines, List.map_cons, List.cons_append, readLines, lineText_append]
  split
  · contradiction
  · rename_i hline
    exact absurd (List.cons.inj hline).1 hspace
  · rw [hdetails]
    rfl

/-! ## Reading a manifest -/

/-- The attributes as they are written: the version, and behind it all others in their order. -/
def written (manifest : Manifest) : List (String × String) :=
  (versionKey, (manifest.get? versionKey).getD defaultVersion) ::
    manifest.toList.filter fun entry => !Text.sameFolded entry.1 versionKey

/-- The lines that attributes are written in, with the empty one behind them. -/
def writtenLines (rows : List (String × String)) : List (List Char) :=
  (rows.flatMap fun row => linesOf row.1 row.2) ++ [[]]

theorem writtenLines_cons (row : String × String) (rows : List (String × String)) :
    writtenLines (row :: rows) = linesOf row.1 row.2 ++ writtenLines rows := by
  rw [writtenLines, writtenLines, List.flatMap_cons, List.append_assoc]

theorem text_eq (manifest : Manifest) :
    manifest.text = (writtenLines manifest.written).flatMap (· ++ ['\r', '\n']) := by
  rw [writtenLines, List.flatMap_append, List.flatMap_assoc, text, written, List.flatMap_cons]
  simp only [attributeText_eq]
  rfl

/-- An attribute that is not there yet comes behind the others. -/
theorem toList_insert {key : String} (hnew : manifest.keyOf? key = none) (value : String) :
    (manifest.insert key value).toList = manifest.toList ++ [(key, value)] := by
  have habsent : key ∉ manifest.attributes.entries.map (·.1) := by
    intro hmem
    obtain ⟨entry, hentry, rfl⟩ := List.mem_map.1 hmem
    exact absurd (keyOf?_eq_none_iff.1 hnew entry hentry) (by simp [Text.sameFolded_self])
  rw [Manifest.insert, hnew, Option.getD_none]
  exact Table.insertEntry_of_not_mem habsent

theorem keyOf?_of_distinct {row : String × String} {rows : List (String × String)}
    (hdistinct : (manifest.attributes.keys ++ (row :: rows).map (·.1)).Pairwise fun a b =>
      Text.sameFolded a b = false) : manifest.keyOf? row.1 = none := by
  rw [keyOf?_eq_none_iff]
  exact fun entry hentry => (List.pairwise_append.1 hdistinct).2.2 entry.1
    (List.mem_map_of_mem hentry) row.1 List.mem_cons_self

/-- Reading the lines of attributes with different names sets them in their order. -/
theorem readLines_writtenLines (manifest : Manifest) {rows : List (String × String)}
    (hrows : ∀ row ∈ rows, IsAttribute row.1 row.2 ∧ (Text.utf8 row.1.toList).length ≤ 71)
    (hdistinct : (manifest.attributes.keys ++ rows.map (·.1)).Pairwise fun a b =>
      Text.sameFolded a b = false) (number : Nat) (last : Option String) :
    ∃ again, readLines ((writtenLines rows).map (· ++ ['\r']) ++ [[]]) number last manifest =
        .ok again ∧
      again.toList = manifest.toList ++ rows.map fun row => (row.1, valueRead row.1 row.2) := by
  induction rows generalizing manifest number last with
  | nil => exact ⟨manifest, rfl, (List.append_nil _).symm⟩
  | cons row rows ih =>
    rw [List.forall_mem_cons] at hrows
    have hnew := keyOf?_of_distinct hdistinct
    have hentries := toList_insert hnew (valueRead row.1 row.2)
    have hkeys : (manifest.insert row.1 (valueRead row.1 row.2)).attributes.keys =
        manifest.attributes.keys ++ [row.1] := by
      rw [Table.keys, ← toList, hentries, List.map_append]
      rfl
    obtain ⟨next, hnext⟩ := readLines_linesOf hrows.1.1 hrows.1.2 hnew
      ((writtenLines rows).map (· ++ ['\r']) ++ [[]]) number last
    obtain ⟨again, hagain, htoList⟩ := ih (manifest.insert row.1 (valueRead row.1 row.2)) hrows.2
      (by rwa [hkeys, List.append_assoc, List.singleton_append]) next (some row.1)
    refine ⟨again, ?_, ?_⟩
    · rw [writtenLines_cons, List.map_append, List.append_assoc, hnext, hagain]
    · rw [htoList, hentries, List.append_assoc]
      rfl

/-- A name that leaves no room for the colon stops the reading. -/
theorem readLines_writtenLines_of_lt (manifest : Manifest) {rows : List (String × String)}
    (hrows : ∀ row ∈ rows, IsAttribute row.1 row.2)
    (hdistinct : (manifest.attributes.keys ++ rows.map (·.1)).Pairwise fun a b =>
      Text.sameFolded a b = false)
    (hlong : ∃ row ∈ rows, 71 < (Text.utf8 row.1.toList).length) (number : Nat)
    (last : Option String) :
    ∃ error, readLines ((writtenLines rows).map (· ++ ['\r']) ++ [[]]) number last manifest =
      .error error := by
  induction rows generalizing manifest number last with
  | nil => simp at hlong
  | cons row rows ih =>
    rw [List.forall_mem_cons] at hrows
    rw [writtenLines_cons, List.map_append, List.append_assoc]
    by_cases hrow : 71 < (Text.utf8 row.1.toList).length
    · exact readLines_linesOf_of_lt hrows.1 hrow _ _ _ _
    · have hnew := keyOf?_of_distinct hdistinct
      have hkeys : (manifest.insert row.1 (valueRead row.1 row.2)).attributes.keys =
          manifest.attributes.keys ++ [row.1] := by
        rw [Table.keys, ← toList, toList_insert hnew, List.map_append]
        rfl
      obtain ⟨next, hnext⟩ := readLines_linesOf hrows.1 (Nat.le_of_not_lt hrow) hnew
        ((writtenLines rows).map (· ++ ['\r']) ++ [[]]) number last
      rw [hnext]
      refine ih _ hrows.2 (by rwa [hkeys, List.append_assoc, List.singleton_append]) ?_ _ _
      obtain ⟨other, hother, hlength⟩ := hlong
      rcases List.mem_cons.1 hother with rfl | hmem
      · exact absurd hlength hrow
      · exact ⟨other, hmem, hlength⟩

theorem isAttribute_version {value : String} (h : '\n' ∉ value.toList) : IsAttribute versionKey value :=
  ⟨by decide, by decide, by decide, h⟩

theorem Readable.written (h : manifest.Readable) :
    (∀ row ∈ manifest.written, IsAttribute row.1 row.2) ∧
      (manifest.written.map (·.1)).Pairwise fun a b => Text.sameFolded a b = false := by
  constructor
  · intro row hrow
    rcases List.mem_cons.1 hrow with rfl | hrest
    · have hvalue : '\n' ∉ ((manifest.get? versionKey).getD defaultVersion).toList := by
        rw [get?_eq]
        cases hfound : manifest.toList.find? (Text.sameFolded ·.1 versionKey) with
        | none => decide
        | some entry => exact (h.entries entry (List.mem_of_find?_eq_some hfound)).value
      exact isAttribute_version hvalue
    · exact h.entries row (List.mem_filter.1 hrest).1
  · rw [Manifest.written, List.map_cons, List.pairwise_cons]
    constructor
    · intro name hname
      obtain ⟨row, hrow, rfl⟩ := List.mem_map.1 hname
      have hdiffers := (List.mem_filter.1 hrow).2
      rw [Bool.not_eq_true'] at hdiffers
      rw [← hdiffers, Text.sameFolded_comm]
    · exact h.distinct.sublist (List.filter_sublist.map _)

theorem not_mem_writtenLines (h : manifest.Readable) :
    ∀ line ∈ writtenLines manifest.written, '\n' ∉ line := by
  intro line hline
  rcases List.mem_append.1 hline with hmem | hlast
  · obtain ⟨row, hrow, hmem⟩ := List.mem_flatMap.1 hmem
    exact not_mem_linesOf (h.written.1 row hrow) line hmem
  · rw [List.mem_singleton.1 hlast]
    exact List.not_mem_nil

/-- What is written of a manifest is read line by line. -/
theorem ofBytes_toBytes_eq (h : manifest.Readable) :
    ofBytes manifest.toBytes =
      readLines ((writtenLines manifest.written).map (· ++ ['\r']) ++ [[]]) 1 none {} := by
  have hends : ∀ lines : List (List Char),
      lines.flatMap (· ++ ['\r', '\n']) = (lines.map (· ++ ['\r'])).flatMap (· ++ ['\n']) := by
    intro lines
    rw [List.flatMap_map]
    exact List.flatMap_congr fun line _ => by rw [List.append_assoc]; rfl
  have hfree : ∀ line ∈ (writtenLines manifest.written).map (· ++ ['\r']), '\n' ∉ line := by
    refine List.forall_mem_map.2 fun line hline => ?_
    simpa using not_mem_writtenLines h line hline
  rw [ofBytes, toBytes, Text.decodeLossy_utf8, text_eq, hends, Text.splitOnP_flatMap hfree]

theorem Readable.pairwise_written (h : manifest.Readable) :
    (({} : Manifest).attributes.keys ++ manifest.written.map (·.1)).Pairwise fun a b =>
      Text.sameFolded a b = false :=
  h.written.2

/-- What is written of a manifest that was read is read as the attributes that are written. -/
theorem ofBytes_toBytes (h : manifest.Readable)
    (hnames : ∀ entry ∈ manifest.toList, Text.sameFolded entry.1 versionKey = false →
      (Text.utf8 entry.1.toList).length ≤ 70) :
    ∃ again, ofBytes manifest.toBytes = .ok again ∧ again.toList = manifest.written := by
  have hlengths : ∀ row ∈ manifest.written, (Text.utf8 row.1.toList).length ≤ 70 := by
    have hversion : (Text.utf8 versionKey.toList).length ≤ 70 := by decide
    refine List.forall_mem_cons.2 ⟨hversion, fun row hrow => ?_⟩
    obtain ⟨hmem, hother⟩ := List.mem_filter.1 hrow
    exact hnames row hmem (by simpa using hother)
  have hvalues : manifest.written.map (fun row => (row.1, valueRead row.1 row.2)) =
      manifest.written := by
    refine (List.map_congr_left fun row hrow => ?_).trans (List.map_id' _)
    have hlength := hlengths row hrow
    rw [valueRead, if_neg (by omega)]
  obtain ⟨again, hagain, htoList⟩ := readLines_writtenLines {}
    (fun row hrow => ⟨h.written.1 row hrow, Nat.le_succ_of_le (hlengths row hrow)⟩)
    h.pairwise_written 1 none
  rw [hvalues] at htoList
  exact ⟨again, (ofBytes_toBytes_eq h).trans hagain, htoList⟩

/-! ## What is found afterwards -/

/-- Every attribute but the version is found as before. -/
theorem get?_of_written {again : Manifest} (h : again.toList = manifest.written) {key : String}
    (hkey : Text.sameFolded versionKey key = false) : again.get? key = manifest.get? key := by
  rw [get?_eq, get?_eq, h, written, List.find?_cons, hkey, List.find?_filter]
  congr 1
  refine List.find?_congr fun entry _ => ?_
  cases hsame : Text.sameFolded entry.1 key with
  | false => simp
  | true =>
    have hother : Text.sameFolded entry.1 versionKey = false := by
      rw [← hkey, Text.sameFolded, Text.sameFolded, Text.sameFolded_iff.1 hsame, Bool.beq_comm]
    simp [hother]

theorem mainClass?_of_written {again : Manifest} (h : again.toList = manifest.written) :
    again.mainClass? = manifest.mainClass? := by
  rw [mainClass?, mainClass?, get?_of_written h (by decide +kernel)]

end JvmArchive.Manifest
