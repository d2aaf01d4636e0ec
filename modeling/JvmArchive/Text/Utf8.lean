/-!
# UTF-8

Text as bytes and back. Bytes that are no text are read with a replacement character for each stretch
that cannot be continued.
-/
namespace JvmArchive.Text

/-- The bytes of a text. -/
def utf8 (cs : List Char) : List UInt8 := cs.flatMap String.utf8EncodeChar

/-- The character that stands for bytes which are no text. -/
def replacement : Char := '\uFFFD'

/-- What may follow a leading byte: the bits that it gives, how many bytes must follow, and the range
of the first of them. The other ones range over all continuation bytes. -/
def trail? (lead : UInt8) : Option (Nat × Nat × UInt8 × UInt8) :=
  let bits (mask : UInt8) := (lead &&& mask).toNat
  if 0xC2 ≤ lead ∧ lead ≤ 0xDF then some (bits 0x1F, 1, 0x80, 0xBF)
  else if lead = 0xE0 then some (bits 0x0F, 2, 0xA0, 0xBF)
  else if lead = 0xED then some (bits 0x0F, 2, 0x80, 0x9F)
  else if 0xE1 ≤ lead ∧ lead ≤ 0xEF then some (bits 0x0F, 2, 0x80, 0xBF)
  else if lead = 0xF0 then some (bits 0x07, 3, 0x90, 0xBF)
  else if 0xF1 ≤ lead ∧ lead ≤ 0xF3 then some (bits 0x07, 3, 0x80, 0xBF)
  else if lead = 0xF4 then some (bits 0x07, 3, 0x80, 0x8F)
  else none

/-- Reads as many continuation bytes, the first of them in a range, up to one that does not fit. -/
def readTrail (value : Nat) : Nat → UInt8 → UInt8 → List UInt8 → Option Nat × List UInt8
  | 0, _, _, bytes => (some value, bytes)
  | _ + 1, _, _, [] => (none, [])
  | n + 1, low, high, b :: bytes =>
    if low ≤ b ∧ b ≤ high then
      readTrail (value * 64 + (b &&& 0x3F).toNat) n 0x80 0xBF bytes
    else (none, b :: bytes)

theorem length_readTrail_le (value n : Nat) (low high : UInt8) (bytes : List UInt8) :
    (readTrail value n low high bytes).2.length ≤ bytes.length := by
  induction n generalizing value low high bytes with
  | zero => simp [readTrail]
  | succ n ih =>
    cases bytes with
    | nil => simp [readTrail]
    | cons b bytes =>
      rw [readTrail]
      split
      · exact Nat.le_succ_of_le (ih ..)
      · exact Nat.le_refl _

/-- Reads bytes as text whatever they are. -/
def decodeLossy : List UInt8 → List Char
  | [] => []
  | b :: bytes =>
    if b < 0x80 then Char.ofNat b.toNat :: decodeLossy bytes
    else
      match trail? b with
      | none => replacement :: decodeLossy bytes
      | some (value, n, low, high) =>
        let read := readTrail value n low high bytes
        ((read.1.map Char.ofNat).getD replacement) :: decodeLossy read.2
termination_by bytes => bytes.length
decreasing_by
  · simp
  · simp
  · exact Nat.lt_succ_of_le (length_readTrail_le ..)

end JvmArchive.Text
