import JvmArchive.Proofs.Archive.Manifest

/-!
# Long names in manifests

A line has room for 72 bytes, and all lines that are written keep to that. The name of an attribute must
leave room in the first line for the colon and the space behind it. With 71 bytes it pushes the space to
the next line, where it is read as part of the value, and with more bytes the line has no colon and cannot
be read at all. So what is written of a manifest is read as the same attributes exactly if no name but
that of the version has more than 70 bytes.
-/
namespace JvmArchive

namespace Text

/-- Outside of ASCII no byte of a character is one of ASCII. -/
theorem le_of_mem_utf8EncodeChar {c : Char} (hc : 128 ≤ c.toNat) :
    ∀ b ∈ String.utf8EncodeChar c, 128 ≤ b.toNat := by
  have hbyte : ∀ k, 128 ≤ k → k < 256 → 128 ≤ (UInt8.ofNat k).toNat := by
    intro k hmin hmax
    rwa [toNat_ofNat hmax]
  have hnat : c.val.toNat = c.toNat := rfl
  unfold String.utf8EncodeChar
  simp only [hnat]
  split
  · omega
  · split
    · simp only [List.forall_mem_cons]
      exact ⟨hbyte _ (by omega) (by omega), hbyte _ (by omega) (by omega), by simp⟩
    · split
      · simp only [List.forall_mem_cons]
        exact ⟨hbyte _ (by omega) (by omega), hbyte _ (by omega) (by omega),
          hbyte _ (by omega) (by omega), by simp⟩
      · simp only [List.forall_mem_cons]
        exact ⟨hbyte _ (by omega) (by omega), hbyte _ (by omega) (by omega),
          hbyte _ (by omega) (by omega), hbyte _ (by omega) (by omega), by simp⟩

/-- Only a line feed has the byte of one. -/
theorem eq_of_mem_utf8EncodeChar {c : Char} (h : (10 : UInt8) ∈ String.utf8EncodeChar c) :
    c = '\n' := by
  have hascii : c.toNat < 128 := by
    by_contra hwide
    exact absurd (le_of_mem_utf8EncodeChar (by omega) 10 h) (by decide)
  have hone : String.utf8EncodeChar c = [UInt8.ofNat c.toNat] :=
    if_pos (show c.toNat ≤ 127 by omega)
  rw [hone] at h
  have hbyte := congrArg UInt8.toNat (List.mem_singleton.1 h)
  rw [toNat_ofNat (by omega)] at hbyte
  rw [← Char.ofNat_toNat c, ← hbyte]
  rfl

theorem not_mem_utf8 {text : List Char} (h : '\n' ∉ text) : (10 : UInt8) ∉ utf8 text := by
  intro hmem
  obtain ⟨c, hc, hbyte⟩ := List.mem_flatMap.1 hmem
  exact h (eq_of_mem_utf8EncodeChar hbyte ▸ hc)

end Text

namespace Manifest

variable {manifest : Manifest}

/-! ## Lines -/

/-- The bytes of a manifest are cut into the lines that it is written in. -/
theorem lines_toBytes (h : manifest.Readable) :
    Text.lines 10 13 manifest.toBytes = (writtenLines manifest.written).map Text.utf8 := by
  have hbytes : manifest.toBytes =
      ((writtenLines manifest.written).map fun line => Text.utf8 line ++ [13]).flatMap (· ++ [10]) := by
    rw [toBytes, text_eq, Text.utf8, List.flatMap_assoc, List.flatMap_map]
    refine List.flatMap_congr fun line _ => ?_
    rw [List.flatMap_append, List.append_assoc]
    rfl
  have hfree : ∀ part ∈ (writtenLines manifest.written).map fun line => Text.utf8 line ++ [13],
      (10 : UInt8) ∉ part := by
    refine List.forall_mem_map.2 fun line hline => ?_
    simpa using Text.not_mem_utf8 (not_mem_writtenLines h line hline)
  rw [hbytes, Text.lines, Text.splitOnP_flatMap hfree, List.dropLast_concat, List.getLast?_concat,
    List.map_map]
  simp [Function.comp_def]

/-- No line is longer than the limit. -/
theorem length_lines_le (h : manifest.Readable) :
    ∀ line ∈ Text.lines 10 13 manifest.toBytes, line.length ≤ 72 := by
  rw [lines_toBytes h]
  refine List.forall_mem_map.2 fun line hline => ?_
  rcases List.mem_append.1 hline with hmem | hlast
  · obtain ⟨row, -, hmem⟩ := List.mem_flatMap.1 hmem
    exact length_linesOf_le row.1 row.2 line hmem
  · rw [List.mem_singleton.1 hlast]
    exact Nat.zero_le _

/-! ## Values -/

/-- Where names differ, each is found as itself. -/
theorem find?_sameFolded_of_mem {entries : List (String × String)}
    (hdistinct : (entries.map (·.1)).Pairwise fun a b => Text.sameFolded a b = false)
    {entry : String × String} (hentry : entry ∈ entries) :
    entries.find? (Text.sameFolded ·.1 entry.1) = some entry := by
  induction entries with
  | nil => cases hentry
  | cons other entries ih =>
    rw [List.map_cons, List.pairwise_cons] at hdistinct
    rcases List.mem_cons.1 hentry with rfl | hrest
    · rw [List.find?_cons, Text.sameFolded_self]
    · rw [List.find?_cons, hdistinct.1 entry.1 (List.mem_map_of_mem hrest)]
      exact ih hdistinct.2 hrest

/-- Each attribute is found under its own name. -/
theorem Readable.get?_of_mem (h : manifest.Readable) {entry : String × String}
    (hentry : entry ∈ manifest.toList) : manifest.get? entry.1 = some entry.2 := by
  have hfound : manifest.toList.find? (Text.sameFolded ·.1 entry.1) = some entry :=
    find?_sameFolded_of_mem h.distinct hentry
  rw [get?_eq, hfound]
  rfl

/-- What is written of a manifest is read only if every name leaves room for its colon, and then as the
attributes that are written, some of them with a space before their value. -/
theorem written_of_ofBytes_toBytes (h : manifest.Readable) {again : Manifest}
    (hread : ofBytes manifest.toBytes = .ok again) :
    (∀ row ∈ manifest.written, (Text.utf8 row.1.toList).length ≤ 71) ∧
      again.toList = manifest.written.map fun row => (row.1, valueRead row.1 row.2) := by
  rw [ofBytes_toBytes_eq h] at hread
  have hlengths : ∀ row ∈ manifest.written, (Text.utf8 row.1.toList).length ≤ 71 := by
    by_contra hlong
    push Not at hlong
    obtain ⟨error, herror⟩ :=
      readLines_writtenLines_of_lt {} h.written.1 h.pairwise_written hlong 1 none
    rw [hread] at herror
    cases herror
  obtain ⟨found, hfound, htoList⟩ := readLines_writtenLines {}
    (fun row hrow => ⟨h.written.1 row hrow, hlengths row hrow⟩) h.pairwise_written 1 none
  rw [hread, Except.ok.injEq] at hfound
  exact ⟨hlengths, hfound ▸ htoList⟩

/-- An attribute other than the version that is read with its value has a name of at most 70 bytes. -/
theorem length_le_of_get?_eq (h : manifest.Readable) {again : Manifest}
    (hread : ofBytes manifest.toBytes = .ok again) {entry : String × String}
    (hentry : entry ∈ manifest.toList) (hother : Text.sameFolded entry.1 versionKey = false)
    (hvalue : again.get? entry.1 = manifest.get? entry.1) : (Text.utf8 entry.1.toList).length ≤ 70 := by
  obtain ⟨hlengths, htoList⟩ := written_of_ofBytes_toBytes h hread
  have hwritten : entry ∈ manifest.written :=
    List.mem_cons_of_mem _ (List.mem_filter.2 ⟨hentry, by simp [hother]⟩)
  have hagain : (entry.1, valueRead entry.1 entry.2) ∈ again.toList := by
    rw [htoList]
    exact List.mem_map.2 ⟨entry, hwritten, rfl⟩
  have hsame : valueRead entry.1 entry.2 = entry.2 := by
    rw [h.get?_of_mem hentry, (readable_of_ofBytes hread).get?_of_mem hagain] at hvalue
    exact Option.some.inj hvalue
  by_contra hlong
  have hlength : (Text.utf8 entry.1.toList).length = 71 := by
    have hle := hlengths entry hwritten
    omega
  rw [valueRead, if_pos hlength] at hsame
  have hsizes := congrArg String.length hsame
  rw [String.length_append] at hsizes
  exact absurd hsizes (by change 1 + _ ≠ _; omega)

/-- A manifest that was read is written in lines of at most 72 bytes, and these are read as a manifest in
which every attribute but the version has its value exactly if no other name has more than 70 bytes. -/
theorem ofBytes_toBytes_keeps_iff {bytes : List UInt8} (h : ofBytes bytes = .ok manifest) :
    (∀ line ∈ Text.lines 10 13 manifest.toBytes, line.length ≤ 72) ∧
      ((∃ again, ofBytes manifest.toBytes = .ok again ∧
          ∀ key, Text.sameFolded versionKey key = false → again.get? key = manifest.get? key) ↔
        ∀ entry ∈ manifest.toList, Text.sameFolded entry.1 versionKey = false →
          (Text.utf8 entry.1.toList).length ≤ 70) := by
  have hreadable := readable_of_ofBytes h
  refine ⟨length_lines_le hreadable, fun ⟨again, hread, hvalues⟩ entry hentry hother => ?_,
    fun hnames => ?_⟩
  · exact length_le_of_get?_eq hreadable hread hentry hother
      (hvalues entry.1 (Text.sameFolded_comm _ _ ▸ hother))
  · obtain ⟨again, hread, hwritten⟩ := ofBytes_toBytes hreadable hnames
    exact ⟨again, hread, fun key hkey => get?_of_written hwritten hkey⟩

/-- A manifest with a name of as many letters. -/
def namedText (n : Nat) : List Char :=
  "Manifest-Version: 1.0\n".toList ++ List.replicate n 'k' ++ ": v\n".toList

theorem exists_ofBytes_utf8 {text : List Char} {entries : List (String × String)}
    (h : (readLines (text.splitOnP (· = '\n')) 1 none {}).toOption.map toList = some entries) :
    ∃ manifest, ofBytes (Text.utf8 text) = .ok manifest ∧ manifest.toList = entries := by
  rw [ofBytes, Text.decodeLossy_utf8]
  cases hread : readLines (text.splitOnP (· = '\n')) 1 none {} with
  | error error =>
    rw [hread] at h
    cases h
  | ok manifest =>
    rw [hread] at h
    exact ⟨manifest, rfl, Option.some.inj h⟩

/-- A name of 70 bytes is short enough. -/
theorem ofBytes_toBytes_keeps_seventy :
    ∃ manifest, ofBytes (Text.utf8 (namedText 70)) = .ok manifest ∧
      (∀ line ∈ Text.lines 10 13 manifest.toBytes, line.length ≤ 72) ∧
      ∃ again, ofBytes manifest.toBytes = .ok again ∧
        ∀ key, Text.sameFolded versionKey key = false → again.get? key = manifest.get? key := by
  obtain ⟨manifest, hread, hentries⟩ := exists_ofBytes_utf8
    (by decide +kernel : (readLines ((namedText 70).splitOnP (· = '\n')) 1 none {}).toOption.map toList =
      some [(versionKey, defaultVersion), (String.ofList (List.replicate 70 'k'), "v")])
  obtain ⟨hlines, hkeeps⟩ := ofBytes_toBytes_keeps_iff hread
  have hversion : (Text.utf8 versionKey.toList).length ≤ 70 := by decide
  have hname : (Text.utf8 (String.ofList (List.replicate 70 'k')).toList).length ≤ 70 := by
    rw [String.toList_ofList]
    decide
  refine ⟨manifest, hread, hlines, hkeeps.2 fun entry hentry _ => ?_⟩
  rw [hentries, List.mem_cons, List.mem_singleton] at hentry
  rcases hentry with rfl | rfl
  · exact hversion
  · exact hname

/-- A name of 71 bytes is too long, although it is read. -/
theorem not_ofBytes_toBytes_keeps :
    ∃ manifest, ofBytes (Text.utf8 (namedText 71)) = .ok manifest ∧
      ¬∃ again, ofBytes manifest.toBytes = .ok again ∧
        ∀ key, Text.sameFolded versionKey key = false → again.get? key = manifest.get? key := by
  obtain ⟨manifest, hread, hentries⟩ := exists_ofBytes_utf8
    (by decide +kernel : (readLines ((namedText 71).splitOnP (· = '\n')) 1 none {}).toOption.map toList =
      some [(versionKey, defaultVersion), (String.ofList (List.replicate 71 'k'), "v")])
  have hother : Text.sameFolded versionKey (String.ofList (List.replicate 71 'k')) = false :=
    Text.sameFolded_eq_false (by rw [String.toList_ofList]; decide)
  have hmem : (String.ofList (List.replicate 71 'k'), "v") ∈ manifest.toList := by
    rw [hentries]
    exact List.mem_cons_of_mem _ (List.mem_singleton.2 rfl)
  refine ⟨manifest, hread, fun ⟨again, hagain, hvalues⟩ => ?_⟩
  have hlength := length_le_of_get?_eq (readable_of_ofBytes hread) hagain hmem
    (Text.sameFolded_comm _ _ ▸ hother) (hvalues _ hother)
  rw [String.toList_ofList] at hlength
  exact absurd hlength (by decide)

end Manifest
end JvmArchive
