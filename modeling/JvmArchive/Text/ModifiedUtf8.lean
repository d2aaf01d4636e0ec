import JvmArchive.Text.Utf8

/-!
# Modified UTF-8

The text form of class file constants. Text is cut into UTF-16 units and every unit is written on
its own: the zero unit takes two bytes, and a character outside the basic plane takes the three
bytes of each half of its surrogate pair. Decoding is total: an ill-formed byte and an unpaired
surrogate half each become the replacement character.
-/
namespace JvmArchive.Text

/-- The UTF-16 units of a character: one, or the two halves of a surrogate pair. -/
def unitsOfChar (c : Char) : List UInt16 :=
  if c.toNat < 0x10000 then [c.toNat.toUInt16]
  else
    [(0xD800 + (c.toNat - 0x10000) / 0x400).toUInt16,
      (0xDC00 + (c.toNat - 0x10000) % 0x400).toUInt16]

def isHighHalf (u : UInt16) : Bool := 0xD800 ≤ u && u < 0xDC00
def isLowHalf (u : UInt16) : Bool := 0xDC00 ≤ u && u < 0xE000

/-- The character of a surrogate pair. -/
def joinHalves (high low : UInt16) : Char :=
  Char.ofNat (0x10000 + (high.toNat - 0xD800) * 0x400 + (low.toNat - 0xDC00))

/-- Reads UTF-16 units as text. A half without its partner becomes the replacement character. -/
def charsOfUnits : List UInt16 → List Char
  | [] => []
  | [u] => [if isHighHalf u || isLowHalf u then replacement else Char.ofNat u.toNat]
  | u :: v :: rest =>
    if isHighHalf u && isLowHalf v then joinHalves u v :: charsOfUnits rest
    else
      (if isHighHalf u || isLowHalf u then replacement else Char.ofNat u.toNat) ::
        charsOfUnits (v :: rest)

namespace ModifiedUtf8

/-- One unit takes one byte, two bytes (also the zero unit) or three. -/
def encodeUnit (u : UInt16) : List UInt8 :=
  if u ≠ 0 ∧ u < 0x80 then [u.toUInt8]
  else if u < 0x800 then
    [(0xC0 : UInt8) ||| ((u >>> 6) &&& 0x1F).toUInt8, (0x80 : UInt8) ||| (u &&& 0x3F).toUInt8]
  else
    [(0xE0 : UInt8) ||| ((u >>> 12) &&& 0x0F).toUInt8, (0x80 : UInt8) ||| ((u >>> 6) &&& 0x3F).toUInt8,
      (0x80 : UInt8) ||| (u &&& 0x3F).toUInt8]

/-- The units that a byte sequence holds. Only the leading byte decides the length; a leading byte
whose sequence is cut off, or that leads none, is one replacement unit. -/
def decodeUnits : List UInt8 → List UInt16
  | [] => []
  | [a] => [if a &&& 0x80 == 0 then a.toUInt16 else 0xFFFD]
  | [a, b] =>
    if a &&& 0x80 == 0 then a.toUInt16 :: decodeUnits [b]
    else if a &&& 0xE0 == 0xC0 then
      [((a &&& 0x1F).toUInt16 <<< 6) ||| (b &&& 0x3F).toUInt16]
    else 0xFFFD :: decodeUnits [b]
  | a :: b :: c :: rest =>
    if a &&& 0x80 == 0 then a.toUInt16 :: decodeUnits (b :: c :: rest)
    else if a &&& 0xE0 == 0xC0 then
      (((a &&& 0x1F).toUInt16 <<< 6) ||| (b &&& 0x3F).toUInt16) :: decodeUnits (c :: rest)
    else if a &&& 0xF0 == 0xE0 then
      (((a &&& 0x0F).toUInt16 <<< 12) ||| ((b &&& 0x3F).toUInt16 <<< 6) |||
        (c &&& 0x3F).toUInt16) :: decodeUnits rest
    else 0xFFFD :: decodeUnits (b :: c :: rest)

/-- A byte that is a character on its own in every encoding: not zero, and not part of a sequence. -/
def isPlain (b : UInt8) : Bool := b != 0 && b < 0x80

/-- The bytes of a text. A text of plain bytes is written as it stands. -/
def encode (text : String) : List UInt8 :=
  if (utf8 text.toList).all isPlain then utf8 text.toList
  else (text.toList.flatMap unitsOfChar).flatMap encodeUnit

/-- The text of a byte sequence, whatever the bytes. Plain bytes are read as they stand. -/
def decode (bytes : List UInt8) : String :=
  if bytes.all isPlain then String.ofList (decodeLossy bytes)
  else String.ofList (charsOfUnits (decodeUnits bytes))

end ModifiedUtf8
end JvmArchive.Text
