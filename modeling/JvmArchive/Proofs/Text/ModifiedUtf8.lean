import JvmArchive.Proofs.Text.Utf8
import JvmArchive.Text.ModifiedUtf8
import Mathlib.Tactic.IntervalCases

/-!
# Modified UTF-8 reads back

Every unit is read from its bytes, every character from its units, and so every text from its encoded
form. Plain text has two ways to be written and to be read, as it stands and unit by unit, and they
agree.
-/
namespace JvmArchive.Text

theorem toUInt16_toUInt8 {u : UInt16} (h : u < 0x80) : u.toUInt8.toUInt16 = u := by
  rw [← UInt16.toNat_inj]
  have hlt : u.toNat < 128 := h
  simp
  omega

namespace ModifiedUtf8

/-- A unit of one byte has the highest bit of that byte clear. -/
theorem one_byte {u : UInt16} (h : u < 0x80) : u.toUInt8 &&& 0x80 = 0 := by
  have hlt : u.toNat < 2 ^ 7 := h
  apply UInt8.eq_of_toBitVec_eq
  apply BitVec.eq_of_getLsbD_eq
  intro i hi
  have hbit : 7 ≤ i → u.toBitVec.getLsbD i = false := fun hi =>
    Nat.testBit_lt_two_pow (Nat.lt_of_lt_of_le hlt (Nat.pow_le_pow_right (by decide) hi))
  simp only [UInt8.toBitVec_and, UInt16.toBitVec_toUInt8, BitVec.getLsbD_and,
    BitVec.getLsbD_setWidth]
  interval_cases i <;> simp [-BitVec.getLsbD_eq_getElem, hbit]

/-- A mark is seen through the bits of a unit that stand beside it. -/
theorem mark_and {field : UInt16} {mask : UInt8} (h : field.toUInt8 &&& mask = 0) (mark : UInt8)
    (u : UInt16) : (mark ||| (u &&& field).toUInt8) &&& mask = mark &&& mask := by
  have hfield : (u &&& field).toUInt8 &&& mask = 0 := by
    rw [UInt16.toUInt8_and, UInt8.and_assoc, h, UInt8.and_zero]
  apply UInt8.eq_of_toBitVec_eq
  rw [UInt8.toBitVec_and, UInt8.toBitVec_or, BitVec.and_or_distrib_right, ← UInt8.toBitVec_and,
    ← UInt8.toBitVec_and, hfield, UInt8.toBitVec_zero, BitVec.or_zero]

/-- The first of two bytes tells that there are two, and together they hold the unit. -/
theorem two_bytes {u : UInt16} (h : u < 0x800) :
    let a : UInt8 := (0xC0 : UInt8) ||| ((u >>> 6) &&& 0x1F).toUInt8
    let b : UInt8 := (0x80 : UInt8) ||| (u &&& 0x3F).toUInt8
    a &&& 0x80 = 0x80 ∧ a &&& 0xE0 = 0xC0 ∧
      ((a &&& 0x1F).toUInt16 <<< 6) ||| (b &&& 0x3F).toUInt16 = u := by
  refine ⟨mark_and (by decide) 0xC0 _, mark_and (by decide) 0xC0 _, ?_⟩
  have hlt : u.toNat < 2 ^ 11 := h
  apply UInt16.eq_of_toBitVec_eq
  apply BitVec.eq_of_getLsbD_eq
  intro i hi
  have hbit : 11 ≤ i → u.toBitVec.getLsbD i = false := fun hi =>
    Nat.testBit_lt_two_pow (Nat.lt_of_lt_of_le hlt (Nat.pow_le_pow_right (by decide) hi))
  simp only [UInt16.toBitVec_or, UInt16.toBitVec_shiftLeft, UInt8.toBitVec_toUInt16,
    UInt8.toBitVec_and, UInt8.toBitVec_or, UInt16.toBitVec_toUInt8, UInt16.toBitVec_and,
    UInt16.toBitVec_shiftRight, BitVec.getLsbD_and, BitVec.getLsbD_or, BitVec.getLsbD_setWidth]
  interval_cases i <;> simp <;> simp [← BitVec.getLsbD_eq_getElem, hbit]

/-- The first of three bytes tells that there are three, and together they hold the unit. -/
theorem three_bytes (u : UInt16) :
    let a : UInt8 := (0xE0 : UInt8) ||| ((u >>> 12) &&& 0x0F).toUInt8
    let b : UInt8 := (0x80 : UInt8) ||| ((u >>> 6) &&& 0x3F).toUInt8
    let c : UInt8 := (0x80 : UInt8) ||| (u &&& 0x3F).toUInt8
    a &&& 0x80 = 0x80 ∧ a &&& 0xE0 = 0xE0 ∧ a &&& 0xF0 = 0xE0 ∧
      ((a &&& 0x0F).toUInt16 <<< 12) ||| ((b &&& 0x3F).toUInt16 <<< 6) |||
        (c &&& 0x3F).toUInt16 = u := by
  refine ⟨mark_and (by decide) 0xE0 _, mark_and (by decide) 0xE0 _, mark_and (by decide) 0xE0 _, ?_⟩
  apply UInt16.eq_of_toBitVec_eq
  apply BitVec.eq_of_getLsbD_eq
  intro i hi
  simp only [UInt16.toBitVec_or, UInt16.toBitVec_shiftLeft, UInt8.toBitVec_toUInt16,
    UInt8.toBitVec_and, UInt8.toBitVec_or, UInt16.toBitVec_toUInt8, UInt16.toBitVec_and,
    UInt16.toBitVec_shiftRight, BitVec.getLsbD_and, BitVec.getLsbD_or, BitVec.getLsbD_setWidth]
  interval_cases i <;> simp

theorem decodeUnits_one {a : UInt8} (h : a &&& 0x80 = 0) (rest : List UInt8) :
    decodeUnits (a :: rest) = a.toUInt16 :: decodeUnits rest := by
  match rest with
  | [] => simp [decodeUnits, h]
  | [b] => simp [decodeUnits, h]
  | b :: c :: rest => simp [decodeUnits, h]

/-- A unit is read from the bytes that it takes, whatever follows. -/
theorem decodeUnits_encodeUnit (u : UInt16) (rest : List UInt8) :
    decodeUnits (encodeUnit u ++ rest) = u :: decodeUnits rest := by
  unfold encodeUnit
  split
  · next h =>
    rw [List.singleton_append, decodeUnits_one (one_byte h.2), toUInt16_toUInt8 h.2]
  · split
    · next h =>
      obtain ⟨hmark, hlead, hunit⟩ := two_bytes h
      cases rest <;> simp only [List.cons_append, List.nil_append, decodeUnits, hmark, hlead, hunit] <;>
        simp
    · obtain ⟨hmark, htwo, hlead, hunit⟩ := three_bytes u
      simp only [List.cons_append, List.nil_append, decodeUnits, hmark, htwo, hlead, hunit]
      simp

theorem decodeUnits_flatMap_encodeUnit (units : List UInt16) :
    decodeUnits (units.flatMap encodeUnit) = units := by
  induction units with
  | nil => rfl
  | cons u units ih => rw [List.flatMap_cons, decodeUnits_encodeUnit, ih]

end ModifiedUtf8

/-- A unit that is no half of a pair is its own character. -/
theorem charsOfUnits_cons {u : UInt16} (hhigh : isHighHalf u = false) (hlow : isLowHalf u = false)
    (rest : List UInt16) :
    charsOfUnits (u :: rest) = Char.ofNat u.toNat :: charsOfUnits rest := by
  cases rest <;> simp [charsOfUnits, hhigh, hlow]

/-- The code points of characters leave the range of the halves out. -/
theorem toNat_lt_or_gt (c : Char) : c.toNat < 0xD800 ∨ (0xDFFF < c.toNat ∧ c.toNat < 0x110000) :=
  c.valid

theorem charsOfUnits_unitsOfChar (c : Char) (rest : List UInt16) :
    charsOfUnits (unitsOfChar c ++ rest) = c :: charsOfUnits rest := by
  have hvalid := toNat_lt_or_gt c
  unfold unitsOfChar
  split
  · next hsmall =>
    have hnat : c.toNat.toUInt16.toNat = c.toNat := by
      simp [Nat.toUInt16]
      omega
    rw [List.singleton_append, charsOfUnits_cons, hnat, Char.ofNat_toNat]
    · simp [isHighHalf, UInt16.le_iff_toNat_le, UInt16.lt_iff_toNat_lt, hnat]
      omega
    · simp [isLowHalf, UInt16.le_iff_toNat_le, UInt16.lt_iff_toNat_lt, hnat]
      omega
  · next hlarge =>
    have hhigh : (0xD800 + (c.toNat - 0x10000) / 0x400).toUInt16.toNat =
        0xD800 + (c.toNat - 0x10000) / 0x400 := by
      simp [Nat.toUInt16]
      omega
    have hlow : (0xDC00 + (c.toNat - 0x10000) % 0x400).toUInt16.toNat =
        0xDC00 + (c.toNat - 0x10000) % 0x400 := by
      simp [Nat.toUInt16]
      omega
    have hpair : isHighHalf (0xD800 + (c.toNat - 0x10000) / 0x400).toUInt16 = true ∧
        isLowHalf (0xDC00 + (c.toNat - 0x10000) % 0x400).toUInt16 = true := by
      simp only [isHighHalf, isLowHalf, UInt16.le_iff_toNat_le, UInt16.lt_iff_toNat_lt, hhigh, hlow]
      simp
      omega
    have hjoin : joinHalves (0xD800 + (c.toNat - 0x10000) / 0x400).toUInt16
        (0xDC00 + (c.toNat - 0x10000) % 0x400).toUInt16 = c := by
      have hpoint : 0x10000 + (0xD800 + (c.toNat - 0x10000) / 0x400 - 0xD800) * 0x400 +
          (0xDC00 + (c.toNat - 0x10000) % 0x400 - 0xDC00) = c.toNat := by omega
      rw [joinHalves, hhigh, hlow, hpoint, Char.ofNat_toNat]
    simp only [List.cons_append, List.nil_append, charsOfUnits, hpair, hjoin]
    simp

theorem charsOfUnits_flatMap_unitsOfChar (chars : List Char) :
    charsOfUnits (chars.flatMap unitsOfChar) = chars := by
  induction chars with
  | nil => rfl
  | cons c chars ih => rw [List.flatMap_cons, charsOfUnits_unitsOfChar, ih]

namespace ModifiedUtf8

/-! ## Plain text -/

theorem isPlain_iff {b : UInt8} : isPlain b = true ↔ b ≠ 0 ∧ b < 0x80 := by simp [isPlain]

/-- The first byte of a sequence is not plain. -/
theorem all_isPlain_cons {k : Nat} (hmin : 128 ≤ k) (hmax : k < 256) (bytes : List UInt8) :
    (UInt8.ofNat k :: bytes).all isPlain = false := by
  have hlarge : isPlain (UInt8.ofNat k) = false := by
    rw [← Bool.not_eq_true, isPlain_iff, UInt8.lt_iff_toNat_lt, toNat_ofNat hmax]
    exact fun h => Nat.not_lt.2 hmin h.2
  rw [List.all_cons, hlarge, Bool.false_and]

/-- A plain byte is a character of its own in one way as in the other. -/
theorem charsOfUnits_decodeUnits {bytes : List UInt8} (h : bytes.all isPlain = true) :
    charsOfUnits (decodeUnits bytes) = decodeLossy bytes := by
  induction bytes with
  | nil => simp [decodeUnits, charsOfUnits, decodeLossy]
  | cons b bytes ih =>
    rw [List.all_cons, Bool.and_eq_true] at h
    have hsmall : b < 0x80 := (isPlain_iff.1 h.1).2
    have hnat : b.toNat < 128 := hsmall
    have hclear : b &&& 0x80 = 0 := by
      simpa using one_byte (u := b.toUInt16) (by simpa [UInt16.lt_iff_toNat_lt] using hnat)
    have hhigh : isHighHalf b.toUInt16 = false := by
      simp [isHighHalf, UInt16.le_iff_toNat_le]
      omega
    have hlow : isLowHalf b.toUInt16 = false := by
      simp [isLowHalf, UInt16.le_iff_toNat_le]
      omega
    rw [decodeUnits_one hclear, charsOfUnits_cons hhigh hlow, ih h.2, decodeLossy, if_pos hsmall,
      UInt8.toNat_toUInt16]

/-- A character of plain bytes is written as it stands when it is written by its units. -/
theorem flatMap_encodeUnit_unitsOfChar {c : Char} (h : (String.utf8EncodeChar c).all isPlain = true) :
    (unitsOfChar c).flatMap encodeUnit = String.utf8EncodeChar c := by
  have hnat : c.val.toNat = c.toNat := rfl
  have hone : c.toNat ≤ 127 := by
    by_contra hlarge
    unfold String.utf8EncodeChar at h
    simp only [hnat, if_neg hlarge] at h
    split at h
    · rw [all_isPlain_cons (by omega) (by omega)] at h
      cases h
    · split at h <;> rw [all_isPlain_cons (by omega) (by omega)] at h <;> cases h
  have hbytes : String.utf8EncodeChar c = [UInt8.ofNat c.toNat] := by
    unfold String.utf8EncodeChar
    simp only [hnat, if_pos hone]
  have hunit : c.toNat.toUInt16.toNat = c.toNat := by
    simp [Nat.toUInt16]
    omega
  have hplain : c.toNat.toUInt16 ≠ 0 ∧ c.toNat.toUInt16 < 0x80 := by
    rw [hbytes, List.all_cons, Bool.and_eq_true] at h
    refine ⟨fun hsame => (isPlain_iff.1 h.1).1 ?_, ?_⟩
    · rw [← hunit, hsame]
      rfl
    · rw [UInt16.lt_iff_toNat_lt, hunit]
      exact Nat.lt_succ_of_le hone
  have hbyte : c.toNat.toUInt16.toUInt8 = UInt8.ofNat c.toNat := by
    rw [← UInt8.toNat_inj, UInt16.toNat_toUInt8, hunit, UInt8.toNat_ofNat']
  rw [unitsOfChar, if_pos (by omega), List.flatMap_singleton, encodeUnit, if_pos hplain, hbytes, hbyte]

/-- Both ways to write a text give the same bytes. -/
theorem encode_eq (text : String) :
    encode text = (text.toList.flatMap unitsOfChar).flatMap encodeUnit := by
  unfold encode
  split
  · rename_i hplain
    rw [utf8, List.all_flatMap, List.all_eq_true] at hplain
    rw [List.flatMap_assoc, utf8, List.flatMap_def, List.flatMap_def]
    exact congrArg _ (List.map_congr_left fun c hc =>
      (flatMap_encodeUnit_unitsOfChar (hplain c hc)).symm)
  · rfl

/-- Both ways to read bytes give the same text. -/
theorem decode_eq (bytes : List UInt8) :
    decode bytes = String.ofList (charsOfUnits (decodeUnits bytes)) := by
  unfold decode
  split
  · rename_i hplain
    rw [charsOfUnits_decodeUnits hplain]
  · rfl

/-! ## Texts -/

/-- Every text is read from its encoded form. -/
theorem decode_encode (text : String) : decode (encode text) = text := by
  rw [decode_eq, encode_eq, decodeUnits_flatMap_encodeUnit, charsOfUnits_flatMap_unitsOfChar,
    String.ofList_toList]

/-- The zero unit takes two bytes, so that no byte is zero. -/
theorem zero_not_mem_encodeUnit (u : UInt16) : 0 ∉ encodeUnit u := by
  unfold encodeUnit
  split
  · next h =>
    intro hzero
    have hbyte : u.toUInt8 = 0 := (List.mem_singleton.1 hzero).symm
    exact h.1 (by rw [← toUInt16_toUInt8 h.2, hbyte]; rfl)
  · split <;> simp [eq_comm (a := (0 : UInt8)), UInt8.or_eq_zero_iff]

/-- A text is read from its bytes, none of which is zero, and what is read from any bytes is read again
from the bytes that it is written to. -/
theorem decode_encode_zeroless :
    (∀ text, decode (encode text) = text ∧ 0 ∉ encode text) ∧
      ∀ bytes, decode (encode (decode bytes)) = decode bytes := by
  refine ⟨fun text => ⟨decode_encode text, ?_⟩, fun bytes => decode_encode (decode bytes)⟩
  intro hzero
  rw [encode_eq] at hzero
  obtain ⟨unit, -, hunit⟩ := List.mem_flatMap.1 hzero
  exact zero_not_mem_encodeUnit unit hunit

end ModifiedUtf8
end JvmArchive.Text
