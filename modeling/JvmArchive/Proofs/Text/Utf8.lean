import JvmArchive.Text.Utf8
import Mathlib.Tactic.IntervalCases

/-!
# UTF-8 reads back

A leading byte tells how many bytes follow and where the first of them lies; the bytes of a character
keep to that, so every text is read from its bytes.
-/
namespace JvmArchive.Text

theorem length_utf8_cons (c : Char) (text : List Char) :
    (utf8 (c :: text)).length = c.utf8Size + (utf8 text).length := by
  rw [utf8, List.flatMap_cons, List.length_append, String.length_utf8EncodeChar]
  rfl

/-! ## Leading bytes -/

theorem trail?_two {k : Nat} (hmin : 2 ≤ k) (hmax : k < 32) :
    trail? (UInt8.ofNat (k + 192)) = some (k, 1, 0x80, 0xBF) := by
  interval_cases k <;> rfl

theorem trail?_three {k : Nat} (h : k < 16) :
    trail? (UInt8.ofNat (k + 224)) =
      some (k, 2, if k = 0 then 0xA0 else 0x80, if k = 13 then 0x9F else 0xBF) := by
  interval_cases k <;> rfl

theorem trail?_four {k : Nat} (h : k < 5) :
    trail? (UInt8.ofNat (k + 240)) =
      some (k, 3, if k = 0 then 0x90 else 0x80, if k = 4 then 0x8F else 0xBF) := by
  interval_cases k <;> rfl

theorem toNat_ofNat {k : Nat} (h : k < 256) : (UInt8.ofNat k).toNat = k := by
  rw [UInt8.toNat_ofNat']
  exact Nat.mod_eq_of_lt h

theorem decodeLossy_lead {k value n : Nat} {low high : UInt8} (hmin : 128 ≤ k) (hmax : k < 256)
    (htrail : trail? (UInt8.ofNat k) = some (value, n, low, high)) (bytes : List UInt8) :
    decodeLossy (UInt8.ofNat k :: bytes) =
      (((readTrail value n low high bytes).1.map Char.ofNat).getD replacement) ::
        decodeLossy (readTrail value n low high bytes).2 := by
  have hlead : ¬UInt8.ofNat k < 0x80 := by
    rw [UInt8.lt_iff_toNat_lt, toNat_ofNat hmax]
    exact Nat.not_lt.2 hmin
  rw [decodeLossy, if_neg hlead, htrail]

/-! ## Continuation bytes -/

theorem readTrail_continuation {k : Nat} (hk : k < 64) {low high : UInt8}
    (hlow : low.toNat ≤ k + 128) (hhigh : k + 128 ≤ high.toNat) (value n : Nat)
    (bytes : List UInt8) :
    readTrail value (n + 1) low high (UInt8.ofNat (k + 128) :: bytes) =
      readTrail (value * 64 + k) n 0x80 0xBF bytes := by
  have hbyte : (UInt8.ofNat (k + 128)).toNat = k + 128 := toNat_ofNat (by omega)
  have hbits : (UInt8.ofNat (k + 128) &&& 0x3F).toNat = k := by
    rw [UInt8.toNat_and, hbyte]
    exact (Nat.and_two_pow_sub_one_eq_mod (k + 128) 6).trans (by omega)
  have hrange : low ≤ UInt8.ofNat (k + 128) ∧ UInt8.ofNat (k + 128) ≤ high := by
    rw [UInt8.le_iff_toNat_le, UInt8.le_iff_toNat_le, hbyte]
    exact ⟨hlow, hhigh⟩
  rw [readTrail, if_pos hrange, hbits]

/-- The bytes behind the first continuation byte range over all of them. -/
theorem readTrail_any {k : Nat} (hk : k < 64) (value n : Nat) (bytes : List UInt8) :
    readTrail value (n + 1) 0x80 0xBF (UInt8.ofNat (k + 128) :: bytes) =
      readTrail (value * 64 + k) n 0x80 0xBF bytes := by
  have hlow : (0x80 : UInt8).toNat ≤ k + 128 := Nat.le_add_left 128 k
  have hhigh : k + 128 ≤ (0xBF : UInt8).toNat := show k + 128 ≤ 191 by omega
  exact readTrail_continuation hk hlow hhigh value n bytes

/-! ## Characters -/

theorem decodeLossy_two {a b : Nat} (hmin : 2 ≤ a) (hmax : a < 32) (hb : b < 64)
    (bytes : List UInt8) :
    decodeLossy (UInt8.ofNat (a + 192) :: UInt8.ofNat (b + 128) :: bytes) =
      Char.ofNat (a * 64 + b) :: decodeLossy bytes := by
  rw [decodeLossy_lead (by omega) (by omega) (trail?_two hmin hmax), readTrail_any hb]
  rfl

/-- Numbers that two bytes can tell and the surrogates are left out. -/
theorem decodeLossy_three {a b d : Nat} (ha : a < 16) (hb : b < 64) (hd : d < 64)
    (hlow : a = 0 → 32 ≤ b) (hhigh : a = 13 → b < 32) (bytes : List UInt8) :
    decodeLossy (UInt8.ofNat (a + 224) :: UInt8.ofNat (b + 128) :: UInt8.ofNat (d + 128) :: bytes) =
      Char.ofNat ((a * 64 + b) * 64 + d) :: decodeLossy bytes := by
  rw [decodeLossy_lead (by omega) (by omega) (trail?_three ha), readTrail_continuation hb,
    readTrail_any hd]
  · rfl
  · split
    · show 160 ≤ _
      omega
    · show 128 ≤ _
      omega
  · split
    · show _ ≤ 159
      omega
    · show _ ≤ 191
      omega

/-- Numbers that three bytes can tell and those above all characters are left out. -/
theorem decodeLossy_four {a b d e : Nat} (ha : a < 5) (hb : b < 64) (hd : d < 64) (he : e < 64)
    (hlow : a = 0 → 16 ≤ b) (hhigh : a = 4 → b < 16) (bytes : List UInt8) :
    decodeLossy (UInt8.ofNat (a + 240) :: UInt8.ofNat (b + 128) :: UInt8.ofNat (d + 128) ::
        UInt8.ofNat (e + 128) :: bytes) =
      Char.ofNat (((a * 64 + b) * 64 + d) * 64 + e) :: decodeLossy bytes := by
  rw [decodeLossy_lead (by omega) (by omega) (trail?_four ha), readTrail_continuation hb,
    readTrail_any hd, readTrail_any he]
  · rfl
  · split
    · show 144 ≤ _
      omega
    · show 128 ≤ _
      omega
  · split
    · show _ ≤ 143
      omega
    · show _ ≤ 191
      omega

/-- A character is read from its bytes, whatever follows. -/
theorem decodeLossy_utf8EncodeChar (c : Char) (bytes : List UInt8) :
    decodeLossy (String.utf8EncodeChar c ++ bytes) = c :: decodeLossy bytes := by
  have hvalid : c.toNat < 0xD800 ∨ (0xDFFF < c.toNat ∧ c.toNat < 0x110000) := c.valid
  have hnat : c.val.toNat = c.toNat := rfl
  have hchar : ∀ {n : Nat}, n = c.toNat → Char.ofNat n :: decodeLossy bytes = c :: decodeLossy bytes := by
    rintro n rfl
    rw [Char.ofNat_toNat]
  unfold String.utf8EncodeChar
  simp only [hnat]
  split
  next hone =>
    have hlt : UInt8.ofNat c.toNat < 0x80 := by
      rw [UInt8.lt_iff_toNat_lt, toNat_ofNat (by omega)]
      exact Nat.lt_succ_of_le hone
    rw [List.singleton_append, decodeLossy, if_pos hlt, toNat_ofNat (by omega)]
    exact hchar rfl
  next hone =>
    split
    next htwo =>
      rw [List.cons_append, List.cons_append, List.nil_append,
        decodeLossy_two (by omega) (by omega) (by omega)]
      exact hchar (by omega)
    next htwo =>
      split
      next hthree =>
        rw [List.cons_append, List.cons_append, List.cons_append, List.nil_append,
          decodeLossy_three (by omega) (by omega) (by omega) (by omega) (by omega)]
        exact hchar (by omega)
      next hthree =>
        rw [List.cons_append, List.cons_append, List.cons_append, List.cons_append, List.nil_append,
          decodeLossy_four (by omega) (by omega) (by omega) (by omega) (by omega) (by omega)]
        exact hchar (by omega)

/-- Every text is read from its bytes. -/
theorem decodeLossy_utf8 (text : List Char) : decodeLossy (utf8 text) = text := by
  induction text with
  | nil => simp [utf8, decodeLossy]
  | cons c text ih =>
    have hcons : utf8 (c :: text) = String.utf8EncodeChar c ++ utf8 text := List.flatMap_cons
    rw [hcons, decodeLossy_utf8EncodeChar, ih]

end JvmArchive.Text
